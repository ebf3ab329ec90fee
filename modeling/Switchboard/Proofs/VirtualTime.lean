-- Runs of a scheduler from its beginning. Whatever a host program and the tasks it submits do, and
-- however they fail, no task is lost or started twice, tasks start when they are due, and the clock
-- goes forwards. One thing turns it back: a task that advances the clock further than the advance
-- that runs it, since that one sets the clock to its own deadline in the end.
import Mathlib.Algebra.Order.Group.Int
import Mathlib.Data.Int.ConditionallyCompleteOrder
import Switchboard.Proofs.Chronicle
import Switchboard.Proofs.Tally
namespace Switchboard.Scheduler

open Conduct Chronicle

section

variable {τ σ : Type} [AddCommGroup τ] [LinearOrder τ] [IsOrderedAddMonoid τ]

/-! ## Tasks -/

/-- Each task that was submitted is at every moment in one of three conditions: it waits, it has
started, once, or it was cancelled before it started. So the number of tasks that wait is that of all
others, no task starts that was cancelled, and when an advance arrives, which may be after a fault
and others have broken off, all that was due by then has started unless it was cancelled. -/
theorem no_task_is_lost_or_started_twice (n : Nat) (p : Program (interface τ) σ) (host : σ) :
    plain (Chronicle.run n p { session := ⟨.empty, host⟩ }) = Session.run n p ⟨.empty, host⟩ ∧
    ∀ pre e, pre ++ [e] <+: logOf n p host →
      let before := Tally.after { submitted := [] } pre
      let tally := before.enter e.what
      Conserved tally e.after.scheduler ∧
      e.after.scheduler.pending + tally.started.length + tally.cancelled.length =
        tally.submitted.length ∧
      (∀ serial due, e.what = .started serial due → toLex (due, serial) ∈ before.submitted ∧
        toLex (due, serial) ∉ before.started ∧ toLex (due, serial) ∉ before.cancelled) ∧
      ∀ deadline, e.what = .arrived deadline →
        ∀ r ∈ tally.submitted, dueOf r ≤ deadline → r ∈ tally.started ∨ r ∈ tally.cancelled := by
  refine ⟨logs_run n p _, fun pre e hpre => ?_⟩
  obtain ⟨running, hpath⟩ := logOf_path n p host
  obtain ⟨v, hv⟩ := hpath.upTo hpre
  obtain ⟨rfl, u, hu, hs⟩ := hv.last
  have hnew : Sane (Scheduler.empty : Scheduler τ (Program (interface τ) σ)) := .of_empty rfl
  have hbefore : Conserved (Tally.after { submitted := [] } pre) u.scheduler :=
    (Conserved.of_sane hnew).path hu
  have hafter := hbefore.step hs
  refine ⟨hafter, hafter.pending_eq, fun serial due hwhat => ?_, fun deadline hwhat => ?_⟩
  · rw [hwhat] at hs
    exact hbefore.startable hs
  · rw [hwhat] at hs ⊢
    exact hbefore.settled (hnew.path hu) hs

end

/-- Three tasks: one fails, one that is due with it is cancelled by then, and one comes later. The
host goes on after the fault, and advances once more. -/
def mishap : Program (interface ℤ) Unit :=
  .ask (.later 5) (fun _ => .ask (.cancel 1) nofun fun _ => .fail .impure) fun _ =>
    .ask (.later 5) (fun _ => .done .null) fun _ =>
      .ask (.later 8) (fun _ => .done .null) fun _ =>
        .perform (.advance 10) nofun fun _ => .ask (.advance 20) nofun fun _ => .done .null

theorem the_third_task_starts_after_the_fault :
    ∃ pre e, pre ++ [e] <+: logOf 9 mishap () ∧ e.what = .arrived 25 ∧
      ∀ r ∈ ((Tally.after { submitted := [] } pre).enter e.what).submitted, dueOf r ≤ 25 →
        r ∈ ((Tally.after { submitted := [] } pre).enter e.what).started ∨
          r ∈ ((Tally.after { submitted := [] } pre).enter e.what).cancelled := by
  have hends : ((logOf 9 mishap ()).map (·.what)).getLast? = some (.arrived 25) := by
    decide +kernel
  rw [List.getLast?_map] at hends
  obtain ⟨e, hlast, hwhat⟩ := Option.map_eq_some_iff.mp hends
  obtain ⟨pre, hlog⟩ := List.getLast?_eq_some_iff.mp hlast
  have hpre : pre ++ [e] <+: logOf 9 mishap () := hlog ▸ List.prefix_refl _
  obtain ⟨-, -, -, hsettled⟩ := (no_task_is_lost_or_started_twice 9 mishap ()).2 pre e hpre
  exact ⟨pre, e, hpre, hwhat, hsettled 25 hwhat⟩

section

variable {τ σ : Type} [AddCommGroup τ] [LinearOrder τ] [IsOrderedAddMonoid τ]

/-! ## The clock -/

/-- Tasks start when they are due, and what the clock shows never decreases if no advance is given a
negative time and none is made in another one with a later deadline. -/
theorem the_clock_goes_forwards_unless_an_advance_hurries (n : Nat)
    (p : Program (interface τ) σ) (host : σ) :
    plain (Chronicle.run n p { session := ⟨.empty, host⟩ }) = Session.run n p ⟨.empty, host⟩ ∧
    (times ⟨.empty, []⟩ (logOf n p host)).getLast? =
      some (Run.ending (Session.run n p ⟨.empty, host⟩)).scheduler.now ∧
    (∀ e ∈ logOf n p host, ∀ serial due, e.what = .started serial due →
      e.after.scheduler.now = due) ∧
    (Unhurried (logOf n p host) → (times ⟨.empty, []⟩ (logOf n p host)).Pairwise (· ≤ ·)) := by
  obtain ⟨running, hpath⟩ := logOf_path n p host
  have hnew : Sane (Scheduler.empty : Scheduler τ (Program (interface τ) σ)) := .of_empty rfl
  refine ⟨logs_run n p _, hpath.getLast?_times, fun e he serial due hwhat => ?_, fun hu => ?_⟩
  · obtain ⟨pre, post, hlog⟩ := List.append_of_mem he
    have hpre : pre ++ [e] <+: logOf n p host :=
      ⟨post, by rw [hlog]; exact (List.append_cons pre e post).symm⟩
    obtain ⟨v, hv⟩ := hpath.upTo hpre
    obtain ⟨-, u, -, hs⟩ := hv.last
    exact hs.now_of_started hwhat
  · exact (Forward.path (List.pairwise_singleton _ _) hnew hpath hu).times

end

/-- An advance in a task that is made in another advance, with a task of its own to come, -/
def rush (ms : ℤ) : Program (interface ℤ) (List ℤ) :=
  .ask (.later 5)
    (fun _ => .ask (.later 3) (fun _ => .done .null) fun _ =>
      .ask (.advance ms) nofun fun _ => .done .null)
    fun _ => .ask (.advance 10) nofun fun _ => .done .null

/-- turns no clock back if it stays within the other one. -/
theorem an_advance_within_another_keeps_the_clock :
    Unhurried (logOf 9 (rush 4) []) ∧
    (times ⟨.empty, []⟩ (logOf 9 (rush 4) [])).Pairwise (· ≤ ·) := by
  have hu : Unhurried (logOf 9 (rush 4) []) := by decide +kernel
  exact ⟨hu, (the_clock_goes_forwards_unless_an_advance_hurries 9 (rush 4) []).2.2.2 hu⟩

/-- Is an advance, if this is the beginning of one, given no negative time? -/
def Entry.isAhead {ψ : Type} (e : Entry ℤ ψ) : Bool :=
  match e.what with
  | .began deadline => decide (e.after.scheduler.now ≤ deadline)
  | _ => true

/-- If it does not, the other one turns the clock back in the end. -/
theorem an_advance_beyond_another_turns_the_clock_back :
    ¬ ∀ (n : Nat) (p : Program (interface ℤ) (List ℤ)) (host : List ℤ),
      (∀ e ∈ logOf n p host, ∀ deadline, e.what = .began deadline →
        e.after.scheduler.now ≤ deadline) →
      (times ⟨.empty, []⟩ (logOf n p host)).Pairwise (· ≤ ·) := by
  intro h
  have hahead : (logOf 9 (rush 95) []).all (·.isAhead) = true := by decide +kernel
  have hback : ¬ (times ⟨.empty, []⟩ (logOf 9 (rush 95) [])).Pairwise (· ≤ ·) := by decide +kernel
  refine hback (h 9 (rush 95) [] fun e he deadline hwhat => ?_)
  have hgiven := List.all_eq_true.mp hahead e he
  unfold Entry.isAhead at hgiven
  rw [hwhat] at hgiven
  exact of_decide_eq_true hgiven

end Switchboard.Scheduler
