-- One expression, evaluated by a manager at two times. If the functions it calls are pure and what
-- it reads is the same both times, its values are the same but for the identities of lists that
-- were built on the way, and nothing is changed but the supply of identities.
import Switchboard.Manager.Exec
import Switchboard.Proofs.Activity
import Switchboard.Proofs.Dependencies
import Switchboard.Proofs.NetEffect
import Switchboard.Proofs.Renaming
namespace Switchboard.Manager

open World Conduct Value

variable {σ : Type}

/-! ## Pure functions -/

/-- Does a program end like this, whatever state the host is in, and without a command? -/
inductive Ends : Act σ → Except Fault Value → Prop
  | done (v : Value) : Ends (.done v) (.ok v)
  | fail (f : Fault) : Ends (.fail f) (.error f)
  | note {change : σ → σ} {next : σ → Act σ} {r : Except Fault Value} :
    (∀ s, Ends (next s) r) → Ends (.note change next) r

/-- A function that only computes a value of what it is called on. It may build a list with the
identity that it is handed, and it does not look at the identities from the bound on otherwise: if
those of its arguments are moved, so are those of its result. One that makes a table anew with each
call is not meant, because tables are compared by identity and no two of its results are equal. -/
structure Pure (n : Nat) (function : Nat → List Value → Act σ) : Prop where
  ends : ∀ identity args, ∃ r, Ends (function identity args) r
  renamed : ∀ {m d identity : Nat} {args : List Value} {r : Except Fault Value}, n ≤ m →
    m ≤ identity → allFit m identity args = true → Ends (function identity args) r →
    Ends (function (identity + d) (allRenamed m d args)) (r.map (Value.renamed m d)) ∧
      ∀ v, r = .ok v → v.fits m (identity + 1) = true

def IsPure (functions : Functions σ) (n : Nat) : Function → Prop
  | .host name => Pure n (functions name)
  | _ => False

theorem IsPure.mono {functions : Functions σ} {n n' : Nat} {f : Function} (hn : n ≤ n')
    (h : IsPure functions n f) : IsPure functions n' f := by
  cases f with
  | host name => exact ⟨h.ends, fun hm => h.renamed (Nat.le_trans hn hm)⟩
  | _ => exact h

/-- How a run with this outcome ends in this world. -/
def outcomeIn (w : World σ) : Except Fault Value → EStateM.Result Fault (World σ) Value
  | .ok v => .ok v w
  | .error f => .error f w

/-- A program without commands changes nothing but the state of the host. -/
theorem run_of_ends {p : Act σ} {r : Except Fault Value} (h : Ends p r)
    (exec : (c : Command) → (c.Input → Act σ) → Run (World σ) c.Answer) (w : World σ) :
    ∃ w', w'.core = w.core ∧ w'.nextIdentity = w.nextIdentity ∧
      Program.run hostPart exec p w = outcomeIn w' r := by
  induction h generalizing w with
  | done v => exact ⟨w, rfl, rfl, rfl⟩
  | fail f => exact ⟨w, rfl, rfl, rfl⟩
  | @note change next r _ ih =>
    obtain ⟨w', hcore, hidentity, hrun⟩ := ih (change w.host) { w with host := change w.host }
    exact ⟨w', hcore, hidentity, hrun⟩

/-! ## Worlds side by side -/

/-- Two evaluations of which the second has its identities moved by a distance. Nothing but what
serves the host changes on either side. -/
def twinning (σ : Type) (n d : Nat) : Likeness (World σ) (World σ) where
  linked p := n ≤ p.1.nextIdentity ∧ p.2.nextIdentity = p.1.nextIdentity + d
  later p q := p.1.Aside q.1 ∧ q.2.core = p.2.core ∧ n ≤ q.1.nextIdentity ∧
    q.2.nextIdentity = q.1.nextIdentity + d
  value p := Twin n d p.1.nextIdentity
  refl h := ⟨⟨rfl, Nat.le_refl _⟩, rfl, h⟩
  trans h h' := ⟨⟨h'.1.1.trans h.1.1, Nat.le_trans h.1.2 h'.1.2⟩, h'.2.1.trans h.2.1, h'.2.2⟩
  kept h := h.2.2
  mono h ht := ⟨fits_mono (Nat.le_refl n) h.1.2 _ ht.1, ht.2⟩
  scalar s := twin_scalar s
  function f h := by
    obtain ⟨-, rfl⟩ := h
    rename_i x
    cases x <;> simp [Value.renamed]
  truth h := by rw [h.2, isTruthy_renamed]
  key h := by rw [h.2, normalKey_renamed]
  unary op h := unary_twin op h
  binary op h h' := binary_twin op h h'
  part key hp h := part_twin hp.1 h key

theorem forall₂_twin {n d m : Nat} {xs ys : List Value} (h : List.Forall₂ (Twin n d m) xs ys) :
    allFit n m xs = true ∧ ys = allRenamed n d xs := by
  induction h with
  | nil => exact ⟨rfl, rfl⟩
  | cons hxy _ ih =>
    rw [allFit, allRenamed, Bool.and_eq_true]
    exact ⟨⟨hxy.1, ih.1⟩, by rw [hxy.2, ih.2]⟩

variable {functions : Functions σ}

/-- Pure functions are called alike. -/
theorem call_twin {n d k j : Nat} {p : World σ × World σ} {f : Function} {xs ys : List Value}
    (hf : IsPure functions n f) (hp : (twinning σ n d).linked p)
    (hxy : List.Forall₂ (Twin n d p.1.nextIdentity) xs ys) :
    (twinning σ n d).Alike p (twinning σ n d).value
      (callFunction functions (level functions (k + 1)) f xs)
      (callFunction functions (level functions (j + 1)) f ys) := by
  obtain ⟨w, v⟩ := p
  obtain ⟨hn, hd⟩ := hp
  obtain ⟨hfit, rfl⟩ := forall₂_twin hxy
  dsimp only at hn hd hfit
  cases f with
  | host name =>
    obtain ⟨r, hr⟩ := hf.ends w.nextIdentity xs
    obtain ⟨hr', hv⟩ := hf.renamed (d := d) (Nat.le_refl n) hn hfit hr
    obtain ⟨w', hwc, hwi, hw⟩ := run_of_ends hr (exec functions (level functions k) k)
      { w with nextIdentity := w.nextIdentity + 1 }
    rw [← hd] at hr'
    obtain ⟨v', hvc, hvi, hv'⟩ := run_of_ends hr' (exec functions (level functions j) j)
      { v with nextIdentity := v.nextIdentity + 1 }
    have hcores : w.Aside w' ∧ v'.core = v.core := ⟨⟨hwc, by rw [hwi]; exact Nat.le_succ _⟩, hvc⟩
    have hbounds : n ≤ w'.nextIdentity ∧ v'.nextIdentity = w'.nextIdentity + d := by
      rw [hwi, hvi]
      dsimp only
      omega
    change (twinning σ n d).Matches (w, v) _
      (Program.run hostPart (exec functions (level functions k) k)
        (functions name w.nextIdentity xs) { w with nextIdentity := w.nextIdentity + 1 })
      (Program.run hostPart (exec functions (level functions j) j)
        (functions name v.nextIdentity (allRenamed n d xs))
        { v with nextIdentity := v.nextIdentity + 1 })
    rw [hw, hv']
    cases r with
    | ok a => exact ⟨⟨hcores.1, hcores.2, hbounds⟩, by rw [hwi]; exact hv a rfl, rfl⟩
    | error f => exact ⟨rfl, hcores.1, hcores.2, hbounds⟩
  | _ => exact hf.elim

theorem twinning_hosts {n d k j : Nat} :
    (twinning σ n d).Hosts (IsPure functions n) (evaluationHost functions (level functions (k + 1)))
      (evaluationHost functions (level functions (j + 1))) where
  fresh {p xs ys} hp hxy := by
    obtain ⟨w, v⟩ := p
    obtain ⟨hn, hd⟩ := hp
    obtain ⟨hfit, rfl⟩ := forall₂_twin hxy
    dsimp only at hn hd hfit
    have hlater : (twinning σ n d).later (w, v)
        ({ w with nextIdentity := w.nextIdentity + 1 },
          { v with nextIdentity := v.nextIdentity + 1 }) := by
      refine ⟨⟨rfl, Nat.le_succ _⟩, rfl, ?_⟩
      dsimp only
      omega
    refine ⟨hlater, ?_, ?_⟩
    · simp only [fits, Bool.and_eq_true, decide_eq_true_eq]
      exact ⟨Nat.lt_succ_self _, allFit_mono (Nat.le_refl n) (Nat.le_succ _) xs hfit⟩
    · rw [Value.renamed, moved_of_le hn, hd]
  call hf hp hxy := call_twin hf hp hxy

/-! ## What is evaluated against -/

/-- The table that expressions are evaluated against. -/
def World.table (w : World σ) : Dict Scalar Value := w.context.merge w.store.state

/-- Does no list that a manager holds carry an identity that is still to be given out? An identity
stands for the place where a container is kept, and what is built anew is kept in a new place. -/
def World.holdsOld (w : World σ) : Bool :=
  entriesFit w.nextIdentity w.context && entriesFit w.nextIdentity w.store.state

theorem holdsOld_iff {w : World σ} : w.holdsOld = true ↔
    entriesFit w.nextIdentity w.context = true ∧
      entriesFit w.nextIdentity w.store.state = true := by
  unfold World.holdsOld
  exact Bool.and_eq_true_iff

theorem table_isOld {w : World σ} (h : w.holdsOld = true) (key : Scalar) :
    (w.table.valueAt key).isOld w.nextIdentity = true := by
  obtain ⟨hcontext, hstate⟩ := holdsOld_iff.mp h
  exact getD_isOld fun v hv => entriesFit_get? (entriesFit_merge hcontext hstate) hv

/-- What the state does not define is found in the context. -/
theorem table_valueAt_of_absent {w : World σ} {key : Scalar}
    (h : w.store.state.contains key = false) : w.table.valueAt key = w.context.valueAt key := by
  have hnone : (Dict.ofList w.store.state).get? key = none := by
    rw [Dict.get?_eq_none_iff, Dict.ofList, Dict.keys_merge, contains_foldl_addKey]
    rw [Dict.contains_eq] at h
    rw [h]
    rfl
  unfold World.table Dict.valueAt
  rw [Dict.get?_merge, hnone]
  rfl

theorem merge_get?_of_leads {d s s' : Dict Scalar Value} {log : List Change} {key : Scalar}
    (hl : Leads s log s') (hk : isChanged log key = false) :
    (d.merge s').get? key = (d.merge s).get? key := by
  induction log generalizing s with
  | nil =>
    have hs : s' = s := hl
    rw [hs]
  | cons c rest ih =>
    obtain ⟨-, -, hrest⟩ := hl
    rw [isChanged_cons, Bool.or_eq_false_iff] at hk
    rw [ih hrest hk.2]
    exact Dict.get?_merge_put d s c.new hk.1

/-- A name that is not changed stays as it is. -/
theorem table_valueAt_of_leads {w v : World σ} {log : List Change} {key : Scalar}
    (hc : v.context = w.context) (hl : Leads w.store.state log v.store.state)
    (hk : isChanged log key = false) : v.table.valueAt key = w.table.valueAt key := by
  unfold World.table Dict.valueAt
  rw [hc, merge_get?_of_leads hl hk]

/-! ## Evaluating again -/

/-- Can an expression be evaluated again with the same result? It is spelled as one that is read
from a text, it takes parts of the context only by name, and it calls none but pure functions, which
it finds in the context under names that the state does not define. -/
structure Repeatable (functions : Functions σ) (w : World σ) (e : Expr) : Prop where
  spelled : e.isSpelled = true
  named : e.thisNamed = true
  pure : Likeness.CallsOnly (IsPure functions w.nextIdentity) (.map 0 w.context) e.callees
  apart : ∀ f ∈ e.callees, ∀ s ∈ f.root, w.store.state.contains (.text s) = false

/-- Of the table too nothing but pure functions is called. -/
theorem Repeatable.callsOnly {w : World σ} {e : Expr} (h : Repeatable functions w e)
    (identity : Nat) :
    Likeness.CallsOnly (IsPure functions w.nextIdentity) (.map identity w.table) e.callees := by
  intro f hf path ha g hg
  obtain ⟨hs, ht⟩ := Expr.callees_named e h.spelled (.inr h.named) f hf
  rcases Expr.admits_root hs (.inr ht) ha with ⟨rfl, -⟩ | ⟨s, hr, rest, rfl⟩
  · cases ht
  · refine h.pure f hf _ ha g ?_
    have hword := Expr.root_words hs hr
    have htable := part_word identity w.table hword
    have hcontext := part_word 0 w.context hword
    rw [table_valueAt_of_absent (h.apart f hf s hr)] at htable
    change (Value.part _ _ >>= fun v => Value.lookup v rest) = _ at hg ⊢
    rwa [hcontext, ← htable]

/-- Evaluated at two times, with the same under all names that it can read, an expression has values
that are twins, or it fails both times with the same fault. -/
theorem Repeatable.twins {w v : World σ} {e : Expr} {d : Nat} (h : Repeatable functions w e)
    (ho : w.holdsOld = true) (hd : v.nextIdentity = w.nextIdentity + d)
    (hi : ∀ s ∈ e.inputs, v.table.valueAt (.text s) = w.table.valueAt (.text s)) (k j : Nat) :
    (twinning σ w.nextIdentity d).Alike (w, v) (twinning σ w.nextIdentity d).value
      (evaluateNow functions (level functions (k + 1)) e)
      (evaluateNow functions (level functions (j + 1)) e) := by
  have hlater : (twinning σ w.nextIdentity d).later (w, v)
      ({ w with nextIdentity := w.nextIdentity + 1 },
        { v with nextIdentity := v.nextIdentity + 1 }) := by
    refine ⟨⟨rfl, Nat.le_succ _⟩, rfl, ?_⟩
    dsimp only
    omega
  have hsees : (twinning σ w.nextIdentity d).Sees
      ({ w with nextIdentity := w.nextIdentity + 1 }, { v with nextIdentity := v.nextIdentity + 1 })
      e.inputs (.map w.nextIdentity w.table) (.map v.nextIdentity v.table) := by
    intro s hs
    have hword := e.inputs_words h.spelled s hs
    rw [part_word _ w.table hword, part_word _ v.table hword, hi s hs]
    exact twin_of_isOld (Nat.le_succ _) (table_isOld ho _)
  exact (Likeness.evaluate_alike twinning_hosts e h.spelled h.named (h.callsOnly _) hsees
    ((twinning σ w.nextIdentity d).kept hlater)).earlier hlater

/-- An evaluation changes nothing and can be made again later, with a like value, as long as nothing
is changed that it can read. -/
theorem Repeatable.again {w v w' : World σ} {e : Expr} {a : Value} {k : Nat}
    (h : Repeatable functions w e) (ho : w.holdsOld = true) (hv : w.nextIdentity ≤ v.nextIdentity)
    (hi : ∀ s ∈ e.inputs, v.table.valueAt (.text s) = w.table.valueAt (.text s))
    (hr : evaluateNow functions (level functions (k + 1)) e w = .ok a w') (j : Nat) :
    w.Aside w' ∧ a.fits w.nextIdentity w'.nextIdentity = true ∧
      ∃ v', evaluateNow functions (level functions (j + 1)) e v =
        .ok (a.renamed w.nextIdentity (v.nextIdentity - w.nextIdentity)) v' := by
  have hd : v.nextIdentity = w.nextIdentity + (v.nextIdentity - w.nextIdentity) := by omega
  have htwins := h.twins ho hd hi k j
  unfold Likeness.Alike at htwins
  dsimp only at htwins
  rw [hr] at htwins
  cases hb : evaluateNow functions (level functions (j + 1)) e v with
  | ok b v' =>
    rw [hb] at htwins
    obtain ⟨hlater, hfits, hrenamed⟩ := htwins
    exact ⟨hlater.1, hfits, v', by rw [hrenamed]⟩
  | error g v' =>
    rw [hb] at htwins
    exact htwins.elim

end Switchboard.Manager
