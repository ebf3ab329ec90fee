-- An advance made in two parts. Whether the clock is moved forward at once or in two parts, the
-- same tasks are called at the same times in the same order, the same scheduler and host are left,
-- and the numbers of tasks add up. What the tasks do is of no matter.
import Switchboard.Proofs.Draining
import Switchboard.Proofs.Windows
namespace Switchboard.Scheduler

open Conduct Run

/-! ## Records of calls -/

/-- A session with a record of the calls that an advance makes. -/
structure Record (τ σ : Type) where
  session : Session τ σ
  /-- When a task was called, and which, the first call first. -/
  calls : List (τ × Program (interface τ) σ) := []

namespace Record

variable {τ σ : Type}

def schedulerPart : Part (Record τ σ) (Scheduler τ (Program (interface τ) σ)) where
  view r := r.session.scheduler
  replace s r := { r with session := { r.session with scheduler := s } }

theorem lawful_schedulerPart : (schedulerPart : Part (Record τ σ) _).Lawful :=
  ⟨fun _ _ => rfl, fun _ => rfl, fun _ _ _ => rfl⟩

variable [Add τ] [Sub τ] [Zero τ] [Max τ] [LE τ] [LT τ] [DecidableLE τ] [DecidableLT τ]

/-- The record of a call. -/
def called (task : Program (interface τ) σ) (r : Record τ σ) : Record τ σ :=
  { r with calls := r.calls ++ [(r.session.scheduler.now, task)] }

/-- Record a call and make it. -/
def call (m : Nat) (task : Program (interface τ) σ) : Run (Record τ σ) Unit := fun r =>
  match Session.run m task r.session with
  | .ok _ w => .ok () { called task r with session := w }
  | .error f w => .error f { called task r with session := w }

/-- The advance of a session, with a record. -/
def advance (m bound : Nat) (ms : τ) : Run (Record τ σ) Nat :=
  Scheduler.advance schedulerPart (call m) bound ms

end Record

/-! ## Forgetting the record -/

section

variable {ω ω' τ ψ : Type} [LE τ] [LT τ] [DecidableLE τ] [DecidableLT τ]
  {view : ω → ω'} {fire : ψ → Run ω Unit} {fire' : ψ → Run ω' Unit}

theorem projects_advanceTo (part : Part ω (Scheduler τ ψ)) (part' : Part ω' (Scheduler τ ψ))
    (hread : Projects view part.read part'.read)
    (hwrite : ∀ s, Projects view (part.write s) (part'.write s))
    (hf : ∀ p, Projects view (fire p) (fire' p)) (deadline : τ) (bound : Nat) :
    Projects view (advanceTo part fire deadline bound) (advanceTo part' fire' deadline bound) := by
  induction bound with
  | zero => exact projects_throw _
  | succ n ih =>
    unfold advanceTo
    refine projects_bind hread fun s => ?_
    cases s.queue.top? with
    | none => exact projects_bind (hwrite _) fun _ => projects_pure 0
    | some t =>
      dsimp only
      split
      · split
        · exact projects_bind (hwrite _) fun _ => ih
        · exact projects_bind (hwrite _) fun _ => projects_bind (hf _) fun _ =>
            projects_bind ih fun _ => projects_pure _
      · exact projects_bind (hwrite _) fun _ => projects_pure 0

end

section

variable {τ σ : Type} [Add τ] [Sub τ] [Zero τ] [Max τ] [LE τ] [LT τ] [DecidableLE τ]
  [DecidableLT τ]

theorem projects_call (m : Nat) (task : Program (interface τ) σ) :
    Projects Record.session (Record.call m task) (do let _ ← Session.run m task) := by
  intro r
  unfold Record.call
  cases hr : Session.run m task r.session with
  | ok a w => rw [bind_ok hr]; rfl
  | error f w => rw [bind_error hr]; rfl

/-- To forget the record of an advance gives the advance of the session. -/
theorem projects_advance (m bound : Nat) (ms : τ) :
    Projects Record.session (Record.advance m bound ms : Run (Record τ σ) Nat)
      (Session.exec (Session.run m) bound (.advance ms) nofun) :=
  projects_bind (fun _ => rfl) fun s =>
    projects_advanceTo Record.schedulerPart Session.schedulerPart (fun _ => rfl) (fun _ _ => rfl)
      (projects_call m) (s.now + ms) bound

end

/-! ## One advance and two -/

section

variable {τ σ : Type} [AddCommGroup τ] [LinearOrder τ]

theorem calls_of_call {m : Nat} {task : Program (interface τ) σ} {w r : Record τ σ}
    (h : Record.call m task w = .ok () r) :
    r.calls = w.calls ++ [(w.session.scheduler.now, task)] := by
  unfold Record.call at h
  split at h
  · cases h
    rfl
  · cases h

/-- As many calls are recorded as are counted. -/
theorem length_calls {m n : Nat} {deadline : τ} {w r : Record τ σ} {ran : Nat}
    (h : advanceTo Record.schedulerPart (Record.call m) deadline n w = .ok ran r) :
    r.calls.length = w.calls.length + ran := by
  induction n generalizing w ran with
  | zero => cases h
  | succ n ih =>
    rcases turn_cases (Record.schedulerPart.view w) deadline with
      ⟨t, ht, hd, hc⟩ | ⟨t, ht, hd, hc⟩ | hidle
    · rw [advanceTo_dropped n ht hd hc] at h
      have hrest := ih h
      exact hrest
    · rw [advanceTo_started n ht hd hc] at h
      obtain ⟨_, u, hcall, h⟩ := bind_ok_inv h
      obtain ⟨before, v, hrest, h⟩ := bind_ok_inv h
      cases h
      rw [ih hrest, calls_of_call hcall, List.length_append]
      exact Nat.add_right_comm w.calls.length 1 before
    · rw [advanceTo_arrived n hidle] at h
      cases h
      rfl

/-- If all tasks are modest, an advance comes to its end unless its bound is used up. -/
theorem exhausted_of_advance (m bound : Nat) (ms : τ) {w v : Session τ σ} {f : Fault}
    (hm : AllModest w.scheduler)
    (h : Session.exec (Session.run m) bound (.advance ms) nofun w = .error f v) :
    f = .exhausted := by
  let deadline := w.scheduler.now + ms
  let u : Chronicle τ σ := Chronicle.entered { session := w } (.began deadline)
    ⟨w.scheduler, [deadline]⟩
  have hlogs := Chronicle.logs_exec (Chronicle.logs_run m) bound (.advance ms) nofun
    { session := w }
  have hdrains := drains (calm_task m) bound (w := u) rfl hm
  have hrun : Chronicle.exec (Chronicle.run m) bound (.advance ms) nofun { session := w } =
      Chronicle.orBroken deadline (Chronicle.advanceTo (fun task => do
        let _ ← Chronicle.run m task) deadline bound) u := rfl
  rw [h, hrun] at hlogs
  unfold Drains at hdrains
  unfold Chronicle.orBroken at hlogs
  cases hend : Chronicle.advanceTo (fun task => do
      let _ ← Chronicle.run m task) deadline bound u with
  | ok ran w' =>
    rw [hend] at hlogs
    cases hlogs
  | error g w' =>
    rw [hend] at hdrains hlogs
    cases hlogs
    exact hdrains

variable [IsOrderedAddMonoid τ]

/-- To advance by two amounts, the second of them no less than zero, is to advance by their sum: the
same calls are made at the same times in the same order, the same session is left, and the numbers
of calls add up. Either comes to its end if the other one does. Modest tasks do not fail in either.
-/
theorem an_advance_can_be_made_in_two_parts (m : ℕ) {a b : τ} (hb : 0 ≤ b) (w : Session τ σ) :
    let whole bound : Run (Record τ σ) ℕ := Record.advance m bound (a + b)
    let parts bound : Run (Record τ σ) ℕ := do
      let ran ← Record.advance m bound a
      return ran + (← Record.advance m bound b)
    (∀ bound ms, Projects Record.session (Record.advance m bound ms : Run (Record τ σ) ℕ)
      (Session.exec (Session.run m) bound (.advance ms) nofun)) ∧
    (∀ bound ran r, whole bound { session := w } = .ok ran r →
      parts bound { session := w } = .ok ran r ∧ r.calls.length = ran) ∧
    (∀ bound ran r, parts bound { session := w } = .ok ran r →
      whole (bound + bound) { session := w } = .ok ran r) ∧
    (AllModest w.scheduler → ∀ bound f r,
      whole bound { session := w } = .error f r ∨ parts bound { session := w } = .error f r →
        f = .exhausted) := by
  intro whole parts
  have hwhole : ∀ bound r, ShortOf (whole bound r) (parts bound r) :=
    advance_inTwo Record.lawful_schedulerPart hb
  have hparts : ∀ bound r, ShortOf (parts bound r) (whole (bound + bound) r) :=
    inTwo_advance Record.lawful_schedulerPart hb
  have hcalls : ∀ bound ran r, whole bound { session := w } = .ok ran r → r.calls.length = ran :=
    fun bound ran r hr => (length_calls hr).trans (Nat.zero_add ran)
  refine ⟨projects_advance m, fun bound ran r hr => ⟨(hwhole bound _).ok hr, hcalls bound ran r hr⟩,
    fun bound ran r => (hparts bound _).ok, fun hm => ?_⟩
  have hfails : ∀ bound f r, whole bound { session := w } = .error f r → f = .exhausted := by
    intro bound f r hr
    have hr : Record.advance m bound (a + b) { session := w } = .error f r := hr
    have hsession := projects_advance m bound (a + b) { session := w }
    rw [hr] at hsession
    exact exhausted_of_advance m bound (a + b) hm hsession.symm
  rintro bound f r (hr | hr)
  · exact hfails bound f r hr
  · rcases hparts bound { session := w } with h | ⟨r', h⟩
    · exact hfails _ f r (h.symm.trans hr)
    · cases hr.symm.trans h
      rfl

end

/-- A modest host leads a new scheduler to modest tasks. -/
theorem allModest_of_run {τ σ : Type} [AddCommGroup τ] [LinearOrder τ] {n : ℕ}
    {p : Program (interface τ) σ} (hp : Modest p) {host : σ} {a : Value} {w : Session τ σ}
    (h : Session.run n p ⟨.empty, host⟩ = .ok a w) : AllModest w.scheduler := by
  have hlogs := Chronicle.logs_run n p { session := ⟨.empty, host⟩ }
  have hcalm := calm_run n hp { session := ⟨.empty, host⟩ }
  change Chronicle.plain _ = Session.run n p ⟨.empty, host⟩ at hlogs
  unfold Calm at hcalm
  rw [h] at hlogs
  cases hr : Chronicle.run n p { session := ⟨.empty, host⟩ } with
  | ok b u =>
    rw [hr] at hlogs hcalm
    cases hlogs
    exact hcalm.modest fun _ ht => (List.not_mem_nil ht).elim
  | error f u =>
    rw [hr] at hlogs
    cases hlogs

/-- The first errand runs at the end of the first part, the one that it submits in the second. -/
theorem two_errands_run_in_two_parts :
    ∃ (w : Session ℤ Unit) (r : Record ℤ Unit), (0 : ℤ) ≤ 3 ∧ AllModest w.scheduler ∧
      r.calls.map (·.1) = [5, 7] ∧
      Record.advance 9 9 (5 + 3) { session := w } = .ok 2 r ∧
      (do let ran ← Record.advance 9 9 (5 : ℤ)
          return ran + (← Record.advance 9 9 (3 : ℤ)) : Run (Record ℤ Unit) ℕ)
        { session := w } = .ok 2 r ∧
      ∀ bound f v, Record.advance 9 bound (5 + 3) { session := w } = .error f v →
        f = .exhausted := by
  have hruns : (Session.run 9 errands).yields ⟨.empty, ()⟩ (fun _ w =>
      (Record.advance 9 9 (5 + 3 : ℤ)).yields { session := w } fun ran r =>
        ran = 2 && r.calls.map (·.1) = [5, 7]) = true := by decide +kernel
  obtain ⟨_, w, hw, hadvance⟩ := Run.yields_ok hruns
  obtain ⟨ran, r, hr, hcalls⟩ := Run.yields_ok hadvance
  simp only [Bool.and_eq_true, decide_eq_true_eq] at hcalls
  obtain ⟨rfl, hcalls⟩ := hcalls
  have hb : (0 : ℤ) ≤ 3 := by decide
  have hmodest := allModest_of_run modest_errands hw
  obtain ⟨-, hparts, -, hfails⟩ := an_advance_can_be_made_in_two_parts (a := 5) 9 hb w
  exact ⟨w, r, hb, hmodest, hcalls, hr, (hparts 9 2 r hr).1,
    fun bound f v h => hfails hmodest bound f v (.inl h)⟩

end Switchboard.Scheduler
