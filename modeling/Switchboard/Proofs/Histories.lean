-- Histories of a state: the changes that were made to it one after the other. Each replaces what
-- the key had by something else, so for each key the changes are a chain, and all of them together
-- say what the state has become.
import Switchboard.Proofs.Tables
import Switchboard.Store
namespace Switchboard

/-! ## Changes that lead from one state to another -/

namespace Change

def before (c : Change) : Scalar × Value := (c.key, c.old)

def after (c : Change) : Scalar × Value := (c.key, c.new)

theorem keys_before (log : List Change) : Dict.keys (log.map before) = log.map (·.key) := by
  simp [Dict.keys, before]

theorem keys_after (log : List Change) : Dict.keys (log.map after) = log.map (·.key) := by
  simp [Dict.keys, after]

end Change

/-- Is one of the changes a change of a key? -/
def isChanged (log : List Change) (key : Scalar) : Bool := log.any (·.key == key)

theorem isChanged_eq (log : List Change) (key : Scalar) :
    isChanged log key = (log.map (·.key)).contains key := by
  unfold isChanged
  rw [List.contains_eq_any_beq, List.any_map]
  simp only [Function.comp_def, BEq.comm (a := key)]

theorem isChanged_cons (c : Change) (rest : List Change) (key : Scalar) :
    isChanged (c :: rest) key = (c.key == key || isChanged rest key) := rfl

theorem isChanged_iff {log : List Change} {key : Scalar} :
    isChanged log key = true ↔ ∃ c ∈ log, (c.key == key) = true := by
  unfold isChanged
  exact List.any_eq_true

/-- Do the changes, made one after the other, lead from one state to the other, each replacing a
value by another one? -/
def Leads : Dict Scalar Value → List Change → Dict Scalar Value → Prop
  | s, [], s' => s' = s
  | s, c :: rest, s' =>
    c.old = (s.get? c.key).getD .null ∧ c.old.strictEquals c.new = false ∧
      Leads (s.put c.key c.new) rest s'

theorem Leads.append {s s' s'' : Dict Scalar Value} {log log' : List Change}
    (h : Leads s log s') (h' : Leads s' log' s'') : Leads s (log ++ log') s'' := by
  induction log generalizing s with
  | nil =>
    cases h
    exact h'
  | cons c rest ih => exact ⟨h.1, h.2.1, ih h.2.2⟩

theorem Leads.state_eq {s s' : Dict Scalar Value} {log : List Change} (h : Leads s log s') :
    s' = s.merge (log.map Change.after) := by
  induction log generalizing s with
  | nil => exact h
  | cons c rest ih => exact ih h.2.2

/-- The keys of the state afterwards are those of before and those that were changed. -/
theorem Leads.contains_eq {s s' : Dict Scalar Value} {log : List Change} (h : Leads s log s')
    (key : Scalar) : s'.contains key = (s.contains key || isChanged log key) := by
  rw [h.state_eq, Dict.contains_eq, Dict.keys_merge, contains_foldl_addKey, Change.keys_after,
    ← Dict.contains_eq, ← isChanged_eq]

/-- A key that was not changed has the value that it had. -/
theorem Leads.get?_eq {s s' : Dict Scalar Value} {log : List Change} {key : Scalar}
    (h : Leads s log s') (hk : isChanged log key = false) : s'.get? key = s.get? key := by
  induction log generalizing s with
  | nil =>
    have hs : s' = s := h
    rw [hs]
  | cons c rest ih =>
    obtain ⟨-, -, hrest⟩ := h
    rw [isChanged_cons, Bool.or_eq_false_iff] at hk
    rw [ih hrest hk.2, Dict.get?_put, hk.1]
    rfl

/-- The first change of a key replaced the value that the key had at the beginning. -/
theorem Leads.first_old {s s' : Dict Scalar Value} {log : List Change} {k : Scalar} {v : Value}
    (h : Leads s log s') (hv : Dict.get? (log.map Change.before) k = some v) :
    v = (s.get? k).getD .null := by
  induction log generalizing s with
  | nil => cases hv
  | cons c rest ih =>
    obtain ⟨hold, -, hrest⟩ := h
    simp only [List.map_cons, Change.before, Dict.get?] at hv
    split at hv
    · rename_i hk
      cases hv
      rw [hold, Dict.get?_congr s hk]
    · rename_i hk
      have hput : (s.put c.key c.new).get? k = s.get? k := by
        rw [Dict.get?_put, if_neg hk]
      rw [← hput]
      exact ih hrest hv

/-! ## The changes of one key -/

/-- Do the changes lead from one value to another, each from where the one before it has led to, and
to something else? -/
def Chained : Value → List Change → Value → Prop
  | v, [], v' => v' = v
  | v, c :: rest, v' => c.old = v ∧ c.old.strictEquals c.new = false ∧ Chained c.new rest v'

/-- The changes of each key are a chain from the value it had to the value it has. -/
theorem Leads.chained {s s' : Dict Scalar Value} {log : List Change} (h : Leads s log s')
    (key : Scalar) : Chained ((s.get? key).getD .null) (log.filter (·.key == key))
      ((s'.get? key).getD .null) := by
  induction log generalizing s with
  | nil =>
    have hs : s' = s := h
    rw [hs]
    rfl
  | cons c rest ih =>
    obtain ⟨hold, hnew, hrest⟩ := h
    have htail := ih hrest
    rw [Dict.get?_put] at htail
    by_cases hk : (c.key == key) = true
    · rw [List.filter_cons, if_pos hk]
      rw [if_pos hk] at htail
      exact ⟨hold.trans (by rw [Dict.get?_congr s hk]), hnew, htail⟩
    · rw [List.filter_cons, if_neg hk]
      rw [if_neg hk] at htail
      exact htail

end Switchboard
