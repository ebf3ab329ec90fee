-- What a computation may do to a state. A conduct says how the state at the end of a computation is
-- related to the state at its start, after a success and after a fault. A computation keeps to a
-- conduct if it does so from every state, and it does if its parts do: the loops of a clock and
-- host programs are taken apart here.
import Switchboard.Program
import Switchboard.Proofs.Law
import Switchboard.Scheduler
namespace Switchboard

/-- Does a computation succeed with an answer and a state of this kind? -/
def Run.yields {ω α : Type} (act : Run ω α) (w : ω) (p : α → ω → Bool) : Bool :=
  match act w with
  | .ok a w' => p a w'
  | .error _ _ => false

theorem Run.yields_ok {ω α : Type} {act : Run ω α} {w : ω} {p : α → ω → Bool}
    (h : act.yields w p = true) : ∃ a w', act w = .ok a w' ∧ p a w' = true := by
  unfold Run.yields at h
  split at h
  · rename_i a w' hr
    exact ⟨a, w', hr, h⟩
  · cases h

/-- The state in which a computation ends, in success or in fault. -/
def Run.ending {ω α : Type} : EStateM.Result Fault ω α → ω
  | .ok _ w => w
  | .error _ w => w

/-- A result with the state at the end changed. -/
def Run.mapEnd {ω α : Type} (change : ω → ω) :
    EStateM.Result Fault ω α → EStateM.Result Fault ω α
  | .ok a w => .ok a (change w)
  | .error f w => .error f (change w)

theorem Run.ensuring_eq {ω α : Type} (act : Run ω α) (change : ω → ω) (w : ω) :
    act.ensuring change w = Run.mapEnd change (act w) := by
  unfold Run.ensuring
  cases act w <;> rfl

theorem Run.ending_mapEnd {ω α : Type} (change : ω → ω) (r : EStateM.Result Fault ω α) :
    Run.ending (Run.mapEnd change r) = change (Run.ending r) := by
  cases r <;> rfl

theorem Run.mapEnd_mapEnd {ω α : Type} (change after : ω → ω) (r : EStateM.Result Fault ω α) :
    Run.mapEnd after (Run.mapEnd change r) = Run.mapEnd (fun w => after (change w)) r := by
  cases r <;> rfl

/-- If two results are asked for one after the other and there is one in the end, each is one. -/
theorem ok_of_bind_ok {α β : Type} {x : Except Fault α} {next : α → Except Fault β} {b : β}
    (h : (x >>= next) = .ok b) : ∃ a, x = .ok a ∧ next a = .ok b := by
  cases x with
  | ok a => exact ⟨a, rfl, h⟩
  | error f => cases h

/-- Does a computation come to an end? It may break off where its bounds are used up. -/
def Run.ends {ω α : Type} (act : Run ω α) (w : ω) : Bool :=
  match act w with
  | .error .exhausted _ => false
  | _ => true

structure Conduct (ω : Type) where
  /-- The states before and after a success. -/
  good : ω → ω → Prop
  /-- The states before and after a fault. -/
  bad : ω → ω → Prop
  refl : ∀ w, good w w
  trans : ∀ {a b c}, good a b → good b c → good a c
  /-- A fault may come at once. -/
  giveUp : ∀ w, bad w w
  fail : ∀ {a b c}, good a b → bad b c → bad a c
  /-- Something may be done on the way out. -/
  leave : ∀ {a b c}, bad a b → good b c → bad a c

namespace Conduct

variable {ω α β : Type} {c : Conduct ω}

/-- A computation started in this state keeps to the conduct. -/
def KeepsAt (c : Conduct ω) (act : Run ω α) (w : ω) : Prop :=
  match act w with
  | .ok _ w' => c.good w w'
  | .error _ w' => c.bad w w'

def Keeps (c : Conduct ω) (act : Run ω α) : Prop := ∀ w, c.KeepsAt act w

theorem KeepsAt.good {act : Run ω α} {w w' : ω} {a : α} (h : c.KeepsAt act w)
    (hr : act w = .ok a w') : c.good w w' := by
  unfold KeepsAt at h
  rwa [hr] at h

theorem KeepsAt.bad {act : Run ω α} {w w' : ω} {f : Fault} (h : c.KeepsAt act w)
    (hr : act w = .error f w') : c.bad w w' := by
  unfold KeepsAt at h
  rwa [hr] at h

theorem keepsAt_of {act : Run ω α} {w : ω} (hg : ∀ a w', act w = .ok a w' → c.good w w')
    (hb : ∀ f w', act w = .error f w' → c.bad w w') : c.KeepsAt act w := by
  unfold KeepsAt
  cases hr : act w with
  | ok a w' => exact hg a w' hr
  | error f w' => exact hb f w' hr

/-- The conduct that relates all ends alike to the start. -/
def always (r : ω → ω → Prop) (refl : ∀ w, r w w) (trans : ∀ {a b c}, r a b → r b c → r a c) :
    Conduct ω where
  good := r
  bad := r
  refl := refl
  trans := trans
  giveUp := refl
  fail := trans
  leave := trans

/-- Where a fault leaves the state as a success does, it need not be known how it ended. -/
theorem Keeps.ending {act : Run ω α} (h : c.Keeps act) (hbad : ∀ {a b}, c.bad a b → c.good a b)
    (w : ω) : c.good w (Run.ending (act w)) := by
  cases hr : act w with
  | ok a w' => exact (h w).good hr
  | error f w' => exact hbad ((h w).bad hr)

/-- A computation that goes on as another one does from a later state. -/
theorem keepsAt_after {act : Run ω α} (rest : Run ω α) {w u : ω} (hr : act w = rest u)
    (hw : c.good w u) (h : c.KeepsAt rest u) : c.KeepsAt act w := by
  refine keepsAt_of (fun a w' ha => ?_) (fun f w' hf => ?_)
  · rw [hr] at ha
    exact c.trans hw (h.good ha)
  · rw [hr] at hf
    exact c.fail hw (h.bad hf)

/-! ## Single steps -/

theorem keeps_pure (a : α) : c.Keeps (pure a : Run ω α) := c.refl

theorem keeps_throw (f : Fault) : c.Keeps (throw f : Run ω α) := c.giveUp

theorem keeps_ofExcept (r : Except Fault α) : c.Keeps (Run.ofExcept r) := by
  cases r with
  | ok a => exact keeps_pure a
  | error f => exact keeps_throw f

theorem keeps_read {σ : Type} (part : Part ω σ) : c.Keeps part.read := c.refl

/-! ## One computation after the other -/

theorem bind_ok {act : Run ω α} {next : α → Run ω β} {w w' : ω} {a : α}
    (h : act w = .ok a w') : (act >>= next) w = next a w' := by
  change EStateM.bind act next w = _
  simp only [EStateM.bind, h]

theorem bind_error {act : Run ω α} {next : α → Run ω β} {w w' : ω} {f : Fault}
    (h : act w = .error f w') : (act >>= next) w = .error f w' := by
  change EStateM.bind act next w = _
  simp only [EStateM.bind, h]

/-- If two computations succeed one after the other, each does. -/
theorem bind_ok_inv {act : Run ω α} {next : α → Run ω β} {w w' : ω} {b : β}
    (h : (act >>= next) w = .ok b w') : ∃ a v, act w = .ok a v ∧ next a v = .ok b w' := by
  cases hr : act w with
  | ok a v =>
    rw [bind_ok hr] at h
    exact ⟨a, v, rfl, h⟩
  | error f v =>
    rw [bind_error hr] at h
    cases h

theorem ofExcept_ok {r : Except Fault α} {w w' : ω} {a : α}
    (h : Run.ofExcept r w = .ok a w') : r = .ok a ∧ w' = w := by
  cases r with
  | ok b =>
    cases h
    exact ⟨rfl, rfl⟩
  | error f => cases h

theorem keepsAt_bind {act : Run ω α} {next : α → Run ω β} {w : ω} (h : c.KeepsAt act w)
    (hn : ∀ a w', act w = .ok a w' → c.KeepsAt (next a) w') : c.KeepsAt (act >>= next) w := by
  cases hr : act w with
  | ok a w' =>
    have hw := h.good hr
    refine keepsAt_of (fun b v hb => ?_) (fun f v hf => ?_)
    · rw [bind_ok hr] at hb
      exact c.trans hw ((hn a w' hr).good hb)
    · rw [bind_ok hr] at hf
      exact c.fail hw ((hn a w' hr).bad hf)
  | error f w' =>
    unfold KeepsAt
    rw [bind_error hr]
    exact h.bad hr

theorem keeps_bind {act : Run ω α} {next : α → Run ω β} (h : c.Keeps act)
    (hn : ∀ a, c.Keeps (next a)) : c.Keeps (act >>= next) :=
  fun w => keepsAt_bind (h w) fun a w' _ => hn a w'

/-- What follows a look at the state is known to start in it. -/
theorem keepsAt_get {next : ω → Run ω β} {w : ω} (h : c.KeepsAt (next w) w) :
    c.KeepsAt (get >>= next) w := h

theorem keeps_get {next : ω → Run ω β} (h : ∀ v, c.Keeps (next v)) : c.Keeps (get >>= next) :=
  fun w => h w w

theorem keeps_forM (items : List α) {act : α → Run ω Unit} (h : ∀ a ∈ items, c.Keeps (act a)) :
    c.Keeps (items.forM act) := by
  induction items with
  | nil => exact keeps_pure _
  | cons a rest ih =>
    exact keeps_bind (h a List.mem_cons_self) fun _ =>
      ih fun b hb => h b (List.mem_cons_of_mem a hb)

theorem keeps_mapM (items : List α) {act : α → Run ω β} (h : ∀ a, c.Keeps (act a)) :
    c.Keeps (items.mapM act) := by
  induction items with
  | nil => exact keeps_pure _
  | cons a rest ih =>
    rw [List.mapM_cons]
    exact keeps_bind (h a) fun _ => keeps_bind ih fun _ => keeps_pure _

theorem keepsAt_ensuring {act : Run ω α} {change : ω → ω} {w : ω} (h : c.KeepsAt act w)
    (hc : ∀ v, c.good v (change v)) : c.KeepsAt (act.ensuring change) w := by
  unfold KeepsAt at h ⊢
  unfold Run.ensuring
  cases hr : act w with
  | ok a w' =>
    rw [hr] at h
    exact c.trans h (hc w')
  | error f w' =>
    rw [hr] at h
    exact c.leave h (hc w')

/-- A fault that is caught must leave the state as a success might have done. -/
theorem keepsAt_outcome {act : Run ω α} {w : ω} (h : c.KeepsAt act w)
    (hf : ∀ {a b}, c.bad a b → c.good a b) : c.KeepsAt act.outcome w := by
  unfold KeepsAt at h ⊢
  unfold Run.outcome
  cases hr : act w with
  | ok a w' =>
    rw [hr] at h
    exact h
  | error f w' =>
    rw [hr] at h
    cases f with
    | exhausted => exact h
    | _ => exact hf h

theorem outcome_ok {act : Run ω α} {w w' : ω} {a : α} (hr : act w = .ok a w') :
    act.outcome w = .ok (.ok a) w' := by
  unfold Run.outcome
  rw [hr]

theorem outcome_exhausted {act : Run ω α} {w w' : ω} (hr : act w = .error .exhausted w') :
    act.outcome w = .error .exhausted w' := by
  unfold Run.outcome
  rw [hr]

theorem outcome_error {act : Run ω α} {w w' : ω} {f : Fault} (hr : act w = .error f w')
    (hf : f ≠ .exhausted) : act.outcome w = .ok (.error f) w' := by
  unfold Run.outcome
  rw [hr]
  cases f with
  | exhausted => exact absurd rfl hf
  | _ => rfl

/-- What a computation comes to is never that the bound is used up: this is no outcome. -/
theorem ordinary_outcome {act : Run ω α} {w w' : ω} {r : Except Fault α}
    (h : act.outcome w = .ok r w') : Ordinary r := by
  cases hr : act w with
  | ok a v =>
    rw [outcome_ok hr] at h
    cases h
    exact ordinary_ok a
  | error f v =>
    by_cases hf : f = .exhausted
    · subst hf
      rw [outcome_exhausted hr] at h
      cases h
    · rw [outcome_error hr hf] at h
      cases h
      exact ordinary_error hf

theorem keeps_attempt {act : Run ω α} {next : Except Fault α → Run ω β}
    (hf : ∀ {a b}, c.bad a b → c.good a b) (h : c.Keeps act)
    (hn : ∀ r, Ordinary r → c.Keeps (next r)) : c.Keeps (act.outcome >>= next) :=
  fun w => keepsAt_bind (keepsAt_outcome (h w) hf) fun r w' hr => hn r (ordinary_outcome hr) w'

/-- A fault that is passed on need not leave the state as a success does. -/
theorem keepsAt_attempt {act : Run ω α} {next : Except Fault α → Run ω β} {w : ω}
    (h : c.KeepsAt act w) (hok : ∀ a, c.Keeps (next (.ok a)))
    (herror : ∀ f, next (.error f) = throw f) : c.KeepsAt (act.outcome >>= next) w := by
  cases hr : act w with
  | ok a w' =>
    refine keepsAt_bind ?_ fun r v hv => ?_
    · unfold KeepsAt Run.outcome
      rw [hr]
      exact h.good hr
    · unfold Run.outcome at hv
      rw [hr] at hv
      cases hv
      exact hok a w'
  | error f w' =>
    have hw := h.bad hr
    have hrun : (act.outcome >>= next) w = .error f w' := by
      by_cases hf : f = .exhausted
      · subst hf
        apply bind_error
        unfold Run.outcome
        rw [hr]
      · rw [bind_ok (outcome_error hr hf), herror]
        rfl
    unfold KeepsAt
    rw [hrun]
    exact hw

/-! ## Computations that may break off -/

/-- Does a computation do what the plain one does, unless it breaks off? -/
def Guarded (act plain : Run ω α) : Prop :=
  ∀ w, act w = plain w ∨ ∃ w', act w = .error .exhausted w'

theorem guarded_refl (act : Run ω α) : Guarded act act := fun _ => .inl rfl

theorem guarded_bind {act plain : Run ω α} {next plainly : α → Run ω β} (h : Guarded act plain)
    (hn : ∀ a, Guarded (next a) (plainly a)) : Guarded (act >>= next) (plain >>= plainly) := by
  intro w
  rcases h w with h | ⟨w', h⟩
  · cases hr : plain w with
    | ok a v =>
      rw [bind_ok (h.trans hr), bind_ok hr]
      exact hn a v
    | error f v => exact .inl ((bind_error (h.trans hr)).trans (bind_error hr).symm)
  · exact .inr ⟨w', bind_error h⟩

theorem guarded_get {next plainly : ω → Run ω α} (h : ∀ w, Guarded (next w) (plainly w)) :
    Guarded (get >>= next) (get >>= plainly) := fun w => h w w

/-- Keeping to a conduct is a law of single computations. -/
def toLaw (c : Conduct ω) : Law Unit ω where
  holds act := c.Keeps (act ())
  answer := keeps_pure
  fault _ := keeps_throw _
  bind := keeps_bind

/-! ## Clocks and programs -/

section

variable {ψ : Type} {part : Part ω (Scheduler Binary64 ψ)} {fire : ψ → Run ω Unit}

theorem keeps_advanceTo (hw : ∀ s, c.Keeps (part.write s)) (hf : ∀ p, c.Keeps (fire p))
    (deadline : Binary64) (bound : Nat) :
    c.Keeps (Scheduler.advanceTo part fire deadline bound) := by
  induction bound with
  | zero => exact keeps_throw _
  | succ n ih =>
    unfold Scheduler.advanceTo
    refine keeps_bind (keeps_read part) fun s => ?_
    split
    · split
      · dsimp only
        split
        · exact keeps_bind (hw _) fun _ => ih
        · exact keeps_bind (hw _) fun _ => keeps_bind (hf _) fun _ =>
            keeps_bind ih fun _ => keeps_pure _
      · exact keeps_bind (hw _) fun _ => keeps_pure _
    · exact keeps_bind (hw _) fun _ => keeps_pure _

theorem keeps_advance (hw : ∀ s, c.Keeps (part.write s)) (hf : ∀ p, c.Keeps (fire p))
    (bound : Nat) (ms : Binary64) : c.Keeps (Scheduler.advance part fire bound ms) :=
  keeps_bind (keeps_read part) fun _ => keeps_advanceTo hw hf _ bound

theorem keeps_runAll (hw : ∀ s, c.Keeps (part.write s)) (hf : ∀ p, c.Keeps (fire p))
    (bound rounds : Nat) : c.Keeps (Scheduler.runAll part fire bound rounds) := by
  induction rounds with
  | zero => exact keeps_throw _
  | succ n ih =>
    unfold Scheduler.runAll
    refine keeps_bind (keeps_read part) fun s => ?_
    split
    · exact keeps_pure _
    · exact keeps_bind (keeps_advance hw hf bound _) fun _ => keeps_bind ih fun _ => keeps_pure _

/-- A program keeps to a conduct if what is noted and all commands do. It sees how a command ended
and goes on, so a fault must leave the state as a success does. -/
theorem keeps_run {I : Interface} {σ : Type} {host : Part ω σ}
    {exec : (command : I.Command) → (I.Input command → Program I σ) → Run ω (I.Answer command)}
    (hbad : ∀ {a b}, c.bad a b → c.good a b) (hnote : ∀ change, c.Keeps (host.update change))
    (hexec : ∀ command callback, c.Keeps (exec command callback)) (p : Program I σ) :
    c.Keeps (p.run host exec) := by
  induction p with
  | done result => exact keeps_pure _
  | fail f => exact keeps_throw f
  | note change next ih =>
    exact keeps_bind (hnote change) fun _ => keeps_bind (keeps_read _) fun s => ih s
  | perform command callback next _ ih =>
    exact keeps_bind (fun w => keepsAt_outcome (hexec command callback w) hbad) fun r => ih r

end

end Conduct
end Switchboard
