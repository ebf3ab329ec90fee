-- Computations that agree. Of a family of computations some are fit, and these come to one end, the
-- manager being of one kind before and after. It is a law, so it holds of all that is put together
-- of parts that agree: of evaluations, and of the loops of a clock if what is due agrees.
import Switchboard.Proofs.Deferrals
namespace Switchboard.Manager

open World Conduct

variable {ι σ α β : Type}

/-- Do those computations of a family that are fit come to the same end, started in this world, and
is the manager of this kind then? -/
def AgreesAt (fits : ι → Prop) (inv : World σ → Prop) (act : ι → Run (World σ) α) (w : World σ) :
    Prop :=
  ∃ r, (∀ i, fits i → act i w = r) ∧ inv (Run.ending r)

section

variable {fits : ι → Prop} {inv : World σ → Prop}

theorem agreesAt_after {act rest : ι → Run (World σ) α} {w v : World σ}
    (hr : ∀ i, fits i → act i w = rest i v) (h : AgreesAt fits inv rest v) :
    AgreesAt fits inv act w := by
  obtain ⟨r, hsame, hinv⟩ := h
  exact ⟨r, fun i hi => (hr i hi).trans (hsame i hi), hinv⟩

theorem agreesAt_bind {act : ι → Run (World σ) α} {next : ι → α → Run (World σ) β} {w : World σ}
    (h : AgreesAt fits inv act w)
    (hn : ∀ a v, inv v → AgreesAt fits inv (fun i => next i a) v) :
    AgreesAt fits inv (fun i => act i >>= next i) w := by
  obtain ⟨r, hsame, hinv⟩ := h
  cases r with
  | ok a v => exact agreesAt_after (fun i hi => bind_ok (hsame i hi)) (hn a v hinv)
  | error f v => exact ⟨.error f v, fun i hi => bind_error (hsame i hi), hinv⟩

/-- To agree, started with a manager of this kind, is a law. -/
def agreeing (fits : ι → Prop) (inv : World σ → Prop) : Law ι (World σ) where
  holds act := ∀ w, inv w → AgreesAt fits inv act w
  answer a w hw := ⟨.ok a w, fun _ _ => rfl, hw⟩
  fault {_ f} _ w hw := ⟨.error f w, fun _ _ => rfl, hw⟩
  bind h hn w hw := agreesAt_bind (h w hw) hn

theorem agrees_throw (f : Fault) : (agreeing fits inv).holds fun _ => (throw f : Run (World σ) α) :=
  fun w hw => ⟨.error f w, fun _ _ => rfl, hw⟩

theorem agrees_ofExcept (r : Except Fault α) :
    (agreeing fits inv).holds fun _ => (Run.ofExcept r : Run (World σ) α) := by
  cases r with
  | ok a => exact (agreeing fits inv).answer a
  | error f => exact agrees_throw f

theorem agrees_sees {next : ι → World σ → Run (World σ) α}
    (h : ∀ w, inv w → (agreeing fits inv).holds fun i => next i w) :
    (agreeing fits inv).holds fun i => get >>= next i :=
  fun w hw => agreesAt_after (fun _ _ => rfl) (h w hw w hw)

theorem agrees_modify {change : World σ → World σ} (h : ∀ w, inv w → inv (change w)) :
    (agreeing fits inv).holds fun _ => (modify change : Run (World σ) Unit) :=
  fun w hw => ⟨.ok () (change w), fun _ _ => rfl, h w hw⟩

theorem agrees_ensuring {act : ι → Run (World σ) α} {change : World σ → World σ}
    (hc : ∀ w, inv w → inv (change w)) (h : (agreeing fits inv).holds act) :
    (agreeing fits inv).holds fun i => (act i).ensuring change := by
  intro w hw
  obtain ⟨r, hsame, hinv⟩ := h w hw
  refine ⟨Run.mapEnd change r, fun i hi => (Run.ensuring_eq _ _ w).trans ?_, ?_⟩
  · rw [hsame i hi]
  · rw [Run.ending_mapEnd]
    exact hc _ hinv

theorem agrees_attempt {act : ι → Run (World σ) α} {next : ι → Except Fault α → Run (World σ) β}
    (h : (agreeing fits inv).holds act)
    (hn : ∀ r, Ordinary r → (agreeing fits inv).holds fun i => next i r) :
    (agreeing fits inv).holds fun i => (act i).outcome >>= next i := by
  intro w hw
  obtain ⟨r, hsame, hinv⟩ := h w hw
  cases r with
  | ok a v =>
    exact agreesAt_after (fun i hi => bind_ok (outcome_ok (hsame i hi)))
      (hn (.ok a) (ordinary_ok a) v hinv)
  | error f v =>
    by_cases hf : f = .exhausted
    · subst hf
      exact ⟨_, fun i hi => bind_error (outcome_exhausted (hsame i hi)), hinv⟩
    · exact agreesAt_after (fun i hi => bind_ok (outcome_error (hsame i hi) hf))
        (hn (.error f) (ordinary_error hf) v hinv)

/-! ## Depth and evaluations -/

theorem agrees_checkDepth (key : Scalar) :
    (agreeing fits inv).holds fun _ => (checkDepth key : Run (World σ) Unit) := by
  refine agrees_sees fun w _ => ?_
  split
  · exact (agreeing fits inv).answer ()
  · split
    · exact agrees_throw _
    · exact (agreeing fits inv).answer ()

/-- Evaluations take a number, a random one at times, or call a function. -/
theorem agrees_serves {functions : Functions σ} {below : ι → Level σ}
    (hidentity : ∀ {w} number, inv w → inv { w with nextIdentity := number })
    (hgenerator : ∀ {w} generator, inv w → inv { w with generator := generator })
    (hact : ∀ name identity args,
      (agreeing fits inv).holds fun i => (below i).act (functions name identity args)) :
    Serves (agreeing fits inv) functions below := by
  have hfresh : (agreeing fits inv).holds fun _ => (World.fresh : Run (World σ) Nat) :=
    fun w hw => ⟨.ok w.nextIdentity { w with nextIdentity := w.nextIdentity + 1 }, fun _ _ => rfl,
      hidentity _ hw⟩
  refine ⟨hfresh, (agreeing fits inv).bind hfresh fun _ =>
    agrees_sees fun _ _ => (agreeing fits inv).answer _, fun f args => ?_⟩
  cases f with
  | randomInt =>
    intro w hw
    cases hr : Generator.roll args w.generator with
    | ok r =>
      refine ⟨.ok (.int r.1) { w with generator := r.2 },
        fun i _ => (callFunction_randomInt functions (below i) args w).trans ?_, hgenerator _ hw⟩
      rw [hr]
    | error f =>
      refine ⟨.error f w,
        fun i _ => (callFunction_randomInt functions (below i) args w).trans ?_, hw⟩
      rw [hr]
  | now =>
    cases args with
    | nil => exact agrees_sees fun w _ => (agreeing fits inv).answer _
    | cons a rest => exact agrees_throw _
  | host name => exact (agreeing fits inv).bind hfresh fun _ => hact _ _ _

/-! ## The loops of a clock -/

section

variable {fires : ι → Deferral → Run (World σ) Unit}
  (hpassed : ∀ {w} now, inv w → inv (w.passed now))
  (hdropped : ∀ {w t}, inv w → w.clock.scheduler.queue.top? = some t → t.cancelled = true →
    inv w.dropped)
  (hstarted : ∀ {w t}, inv w → w.clock.scheduler.queue.top? = some t → t.cancelled = false →
    AgreesAt fits inv (fun i => fires i t.payload) (schedulerPart.replace
      { w.clock.scheduler with now := t.due, queue := w.clock.scheduler.rest } w))

include hpassed hdropped hstarted

theorem agrees_advanceTo (deadline : Binary64) (bound : Nat) : (agreeing fits inv).holds fun i =>
    Scheduler.advanceTo schedulerPart (fires i) deadline bound := by
  induction bound with
  | zero => exact agrees_throw _
  | succ n ih =>
    intro w hw
    rcases Scheduler.turn_cases w.clock.scheduler deadline with
      ⟨t, ht, hd, hc⟩ | ⟨t, ht, hd, hc⟩ | hidle
    · exact agreesAt_after (fun _ _ => Scheduler.advanceTo_dropped n ht hd hc)
        (ih _ (hdropped hw ht hc))
    · refine agreesAt_after (fun _ _ => Scheduler.advanceTo_started n ht hd hc) ?_
      refine agreesAt_bind (hstarted hw ht hc) fun _ => ?_
      exact (agreeing fits inv).bind ih fun _ => (agreeing fits inv).answer _
    · have harrived : ∀ i, Scheduler.advanceTo schedulerPart (fires i) deadline (n + 1) w =
          .ok 0 (w.passed deadline) := fun i => Scheduler.advanceTo_arrived n hidle
      exact ⟨_, fun i _ => harrived i, hpassed deadline hw⟩

theorem agrees_runAll (bound rounds : Nat) : (agreeing fits inv).holds fun i =>
    Scheduler.runAll schedulerPart (fires i) bound rounds := by
  induction rounds with
  | zero => exact agrees_throw _
  | succ n ih =>
    intro w hw
    cases ht : w.clock.scheduler.queue.top? with
    | none => exact ⟨.ok 0 w, fun _ _ => Scheduler.runAll_idle bound n ht, hw⟩
    | some t =>
      have hround : ∀ deadline, (agreeing fits inv).holds fun i => (do
          let ran ← Scheduler.advanceTo schedulerPart (fires i) deadline bound
          return ran + (← Scheduler.runAll schedulerPart (fires i) bound n)) :=
        fun deadline => (agreeing fits inv).bind
          (agrees_advanceTo hpassed hdropped hstarted deadline bound) fun _ =>
            (agreeing fits inv).bind ih fun _ => (agreeing fits inv).answer _
      exact agreesAt_after (fun _ _ => Scheduler.runAll_next bound n ht) (hround _ w hw)

end

end

end Switchboard.Manager
