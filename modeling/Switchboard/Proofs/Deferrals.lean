-- What becomes of deferred assignments. A manager notes each of them and hands it to its clock, and
-- the two are told apart: the note is struck out when the assignment starts, the queue of the clock
-- lets it go when it is due, and what is disposed of is only marked in the queue. An account of all
-- deferrals says for each what became of it, and the notes are what waits in the queue.
import Switchboard.Manager.Create
import Switchboard.Proofs.Activity
import Switchboard.Proofs.Queue
namespace Switchboard

namespace Manager

open World

variable {σ : Type}

/-! ## Steps of the clock -/

/-- The note of a task. -/
def Pending.ofTask (t : Task Binary64 Deferral) : Pending := ⟨t.payload, t.serial⟩

/-- The task that comes next is let go. -/
def World.dropped (w : World σ) : World σ :=
  let s := w.clock.scheduler
  schedulerPart.replace { s with queue := s.rest } w

/-- The task that comes next is let go, and its deferral starts when it is due. -/
def World.launched (w : World σ) (t : Task Binary64 Deferral) : World σ :=
  let s := w.clock.scheduler
  (schedulerPart.replace { s with now := t.due, queue := s.rest } w).start t.payload

/-- Time goes by. -/
def World.passed (w : World σ) (now : Binary64) : World σ :=
  schedulerPart.replace { w.clock.scheduler with now := now } w

/-- Are the clock and what waits for it as they were? -/
structure World.Timeless (w w' : World σ) : Prop where
  clock : w'.clock = w.clock
  pending : w'.pending = w.pending
  nextDeferral : w'.nextDeferral = w.nextDeferral

/-! ## The account of deferrals -/

/-- All deferrals there were, in order, with those that started and those that were cancelled. -/
structure Fates where
  deferred : List Deferral := []
  started : List Deferral := []
  cancelled : List Deferral := []

/-- The worlds that a manager comes to whose virtual clock serves no one else, with the account of
its deferrals. Tasks are let go by the clock, live ones to start, and disposing of the manager
cancels what is pending. -/
inductive Recorded : World σ → Fates → Prop
  | new {setup : Setup} {generator : Generator} {host : σ} {s : Scheduler Binary64 Deferral} :
    setup.clock = .virtual s → s.queue = .empty → Recorded (setup.world generator host) {}
  | aside {w w' : World σ} {fates : Fates} : Recorded w fates → w.Timeless w' →
    Recorded w' fates
  | deferred {w : World σ} {fates : Fates} (a : Assignment) (delay : Binary64) : Recorded w fates →
    Recorded (w.deferred a delay) { fates with deferred := fates.deferred ++ [⟨w.nextDeferral, a⟩] }
  | passed {w : World σ} {fates : Fates} (now : Binary64) : Recorded w fates →
    Recorded (w.passed now) fates
  | dropped {w : World σ} {fates : Fates} {t : Task Binary64 Deferral} : Recorded w fates →
    w.clock.scheduler.queue.top? = some t → t.cancelled = true → Recorded w.dropped fates
  | launched {w : World σ} {fates : Fates} {t : Task Binary64 Deferral} : Recorded w fates →
    w.clock.scheduler.queue.top? = some t → t.cancelled = false →
    Recorded (w.launched t) { fates with started := fates.started ++ [t.payload] }
  | disposed {w : World σ} {fates : Fates} : Recorded w fates →
    Recorded w.dispose { fates with cancelled := fates.cancelled ++ w.pending.map (·.deferral) }

/-- Do the notes of a manager, its clock and the account of its deferrals agree? -/
structure InStep (w : World σ) (fates : Fates) : Prop where
  /-- The notes are of the tasks in the queue that are not cancelled, -/
  waiting : w.pending.Perm (w.clock.scheduler.waiting.map Pending.ofTask)
  /-- in the order in which these were submitted, -/
  ordered : w.pending.Pairwise (·.handle < ·.handle)
  /-- which is that in which they were deferred, -/
  listed : (w.pending.map (·.deferral)).Sublist fates.deferred
  /-- and there are as many. -/
  counted : w.pending.length = w.clock.scheduler.pending
  /-- Each deferral that was made, -/
  numbered : fates.deferred.map (·.serial) = List.range w.nextDeferral
  /-- is pending, has started or was cancelled, -/
  conditions : fates.deferred.Perm (w.pending.map (·.deferral) ++ fates.started ++ fates.cancelled)
  /-- only one of them, and once. -/
  once : ((w.pending.map (·.deferral) ++ fates.started ++ fates.cancelled).map (·.serial)).Nodup

/-- What each step keeps. -/
structure Booked (w : World σ) (fates : Fates) : Prop where
  virtual : ∃ s, w.clock = .virtual s
  waiting : w.pending.Perm (w.clock.scheduler.waiting.map Pending.ofTask)
  ordered : w.pending.Pairwise (·.handle < ·.handle)
  submitted : ∀ p ∈ w.pending, p.handle < w.clock.scheduler.nextSerial
  listed : (w.pending.map (·.deferral)).Sublist fates.deferred
  conditions : fates.deferred.Perm (w.pending.map (·.deferral) ++ fates.started ++ fates.cancelled)
  numbered : fates.deferred.map (·.serial) = List.range w.nextDeferral

/-- Without the only entry of its number, a list is short of that entry and no other. -/
theorem perm_cons_others {notes others : List Pending} {p : Pending} (h : notes.Perm (p :: others))
    (hn : (notes.map (·.deferral.serial)).Nodup) :
    notes.Perm (p :: notes.filter fun q => q.deferral.serial ≠ p.deferral.serial) := by
  have hnumbers := (h.map (·.deferral.serial)).nodup_iff.mp hn
  rw [List.map_cons, List.nodup_cons] at hnumbers
  have hothers : others.filter (fun q => q.deferral.serial ≠ p.deferral.serial) = others := by
    refine List.filter_eq_self.mpr fun q hq => decide_eq_true fun hsame => hnumbers.1 ?_
    rw [← hsame]
    exact List.mem_map_of_mem hq
  have hleft := h.filter fun q => decide (q.deferral.serial ≠ p.deferral.serial)
  rw [List.filter_cons_of_neg (by simp), hothers] at hleft
  exact h.trans (hleft.symm.cons p)

/-- What was cancelled does not wait any more. -/
theorem cancel_all (notes : List Pending) (s : Scheduler Binary64 Deferral) :
    ∃ s', notes.foldl (fun clock p => clock.cancel p.handle) (.virtual s) = Clock.virtual s' ∧
      ∀ t ∈ s'.waiting, t ∈ s.waiting ∧ ∀ p ∈ notes, t.serial ≠ p.handle := by
  induction notes generalizing s with
  | nil => exact ⟨s, rfl, fun t ht => ⟨ht, fun _ hp => (List.not_mem_nil hp).elim⟩⟩
  | cons p rest ih =>
    obtain ⟨s', hs', hleft⟩ := ih (s.cancel p.handle)
    refine ⟨s', hs', fun t ht => ?_⟩
    obtain ⟨hwaits, hrest⟩ := hleft t ht
    obtain ⟨hwas, hserial⟩ := Scheduler.mem_waiting_cancel hwaits
    exact ⟨hwas, List.forall_mem_cons.mpr ⟨hserial, hrest⟩⟩

namespace Booked

variable {w w' : World σ} {fates : Fates}

theorem nodup_deferred (h : Booked w fates) : (fates.deferred.map (·.serial)).Nodup :=
  h.numbered ▸ List.nodup_range

theorem inStep (h : Booked w fates) : InStep w fates where
  waiting := h.waiting
  ordered := h.ordered
  listed := h.listed
  counted := by rw [h.waiting.length_eq, List.length_map, Scheduler.length_waiting]
  numbered := h.numbered
  conditions := h.conditions
  once := (h.conditions.map _).nodup_iff.mp h.nodup_deferred

theorem aside (h : Booked w fates) (hw : w.Timeless w') : Booked w' fates where
  virtual := by rw [hw.clock]; exact h.virtual
  waiting := by rw [hw.clock, hw.pending]; exact h.waiting
  ordered := by rw [hw.pending]; exact h.ordered
  submitted := by rw [hw.clock, hw.pending]; exact h.submitted
  listed := by rw [hw.pending]; exact h.listed
  conditions := by rw [hw.pending]; exact h.conditions
  numbered := by rw [hw.nextDeferral]; exact h.numbered

theorem new {setup : Setup} {s : Scheduler Binary64 Deferral} (hclock : setup.clock = .virtual s)
    (hqueue : s.queue = .empty) (generator : Generator) (host : σ) :
    Booked (setup.world generator host) {} where
  virtual := ⟨s, hclock⟩
  waiting := by
    change List.Perm [] (setup.clock.scheduler.waiting.map Pending.ofTask)
    rw [hclock]
    change List.Perm [] ((s.queue.toList.filter _).map _)
    rw [hqueue]
    exact List.Perm.refl _
  ordered := List.Pairwise.nil
  submitted _ hp := by cases hp
  listed := List.Sublist.refl _
  conditions := List.Perm.refl _
  numbered := rfl

theorem deferred (h : Booked w fates) (a : Assignment) (delay : Binary64) :
    Booked (w.deferred a delay)
      { fates with deferred := fates.deferred ++ [⟨w.nextDeferral, a⟩] } := by
  obtain ⟨s, hs⟩ := h.virtual
  obtain ⟨-, hwaiting, hordered, hsubmitted, hlisted, hconditions, hnumbered⟩ := h
  have hclock : (w.deferred a delay).clock =
      .virtual (s.later delay ⟨w.nextDeferral, a⟩).2 := by
    unfold World.deferred
    rw [hs]
    rfl
  have hpending : (w.deferred a delay).pending =
      w.pending ++ [⟨⟨w.nextDeferral, a⟩, s.nextSerial⟩] := by
    unfold World.deferred
    rw [hs]
    rfl
  rw [hs] at hwaiting hsubmitted
  refine ⟨⟨_, hclock⟩, ?_, ?_, ?_, ?_, ?_, ?_⟩
  · rw [hclock, hpending]
    refine List.perm_append_comm.trans ((hwaiting.cons _).trans ?_)
    exact ((Scheduler.waiting_later s delay ⟨w.nextDeferral, a⟩).map Pending.ofTask).symm
  · rw [hpending]
    refine List.pairwise_append.mpr ⟨hordered, List.pairwise_singleton _ _, fun p hp q hq => ?_⟩
    cases List.mem_singleton.mp hq
    exact hsubmitted p hp
  · rw [hclock, hpending]
    intro p hp
    change p.handle < s.nextSerial + 1
    rcases List.mem_append.mp hp with hp | hp
    · exact Nat.lt_succ_of_lt (hsubmitted p hp)
    · cases List.mem_singleton.mp hp
      exact Nat.lt_succ_self _
  · rw [hpending, List.map_append]
    exact hlisted.append (List.Sublist.refl _)
  · rw [hpending, List.map_append, List.append_assoc, List.append_assoc]
    refine (hconditions.append_right _).trans ?_
    rw [List.append_assoc, List.append_assoc]
    refine List.Perm.append_left _ ?_
    rw [← List.append_assoc]
    exact List.perm_append_comm
  · rw [List.map_append, hnumbered]
    exact List.range_succ.symm

/-- Only what waits, and the numbers of what waits, matter of the clock. -/
theorem ticked (h : Booked w fates) {s : Scheduler Binary64 Deferral}
    (hwaiting : s.waiting.Perm w.clock.scheduler.waiting)
    (hserial : s.nextSerial = w.clock.scheduler.nextSerial) :
    Booked (schedulerPart.replace s w) fates := by
  obtain ⟨s₀, hs⟩ := h.virtual
  have hclock : (schedulerPart.replace s w).clock = .virtual s := by
    change w.clock.setScheduler s = _
    rw [hs]
    rfl
  refine ⟨⟨s, hclock⟩, ?_, h.ordered, ?_, h.listed, h.conditions, h.numbered⟩
  · rw [hclock]
    exact h.waiting.trans (hwaiting.map _).symm
  · rw [hclock]
    intro p hp
    change p.handle < s.nextSerial
    rw [hserial]
    exact h.submitted p hp

theorem launched (h : Booked w fates) {t : Task Binary64 Deferral}
    (ht : w.clock.scheduler.queue.top? = some t) (hc : t.cancelled = false) :
    Booked (w.launched t) { fates with started := fates.started ++ [t.payload] } := by
  obtain ⟨s, hs⟩ := h.virtual
  have honce := h.inStep.once
  obtain ⟨-, hwaiting, hordered, hsubmitted, hlisted, hconditions, hnumbered⟩ := h
  have hclock : (w.launched t).clock = .virtual { s with now := t.due, queue := s.rest } := by
    change w.clock.setScheduler _ = _
    rw [hs]
    rfl
  rw [hs] at hwaiting hsubmitted ht
  have hwaited : w.pending.Perm ((t :: Scheduler.waiting
      { s with now := t.due, queue := s.rest }).map Pending.ofTask) :=
    hwaiting.trans ((Scheduler.waiting_rest_of_live ht hc rfl).map Pending.ofTask).symm
  -- What is struck out is the note of the task, since no other is of a deferral of its number.
  have hnotes : w.pending.Perm (Pending.ofTask t :: (w.launched t).pending) := by
    have hnodup : (w.pending.map (·.deferral.serial)).Nodup := by
      rw [List.map_append, List.map_append, List.append_assoc, List.map_map] at honce
      exact (List.nodup_append.mp honce).1
    exact perm_cons_others hwaited hnodup
  have hdeferrals := hnotes.map (·.deferral)
  refine ⟨⟨_, hclock⟩, ?_, hordered.filter _, ?_, ?_, ?_, hnumbered⟩
  · rw [hclock]
    exact (List.perm_cons _).mp (hnotes.symm.trans hwaited)
  · rw [hclock]
    exact fun p hp => hsubmitted p (List.mem_filter.mp hp).1
  · exact (List.filter_sublist.map _).trans hlisted
  · refine hconditions.trans ?_
    refine List.Perm.append_right _ ?_
    refine (hdeferrals.append_right _).trans ?_
    rw [← List.append_assoc]
    exact (List.perm_append_singleton t.payload _).symm

theorem disposed (h : Booked w fates) :
    Booked w.dispose { fates with cancelled := fates.cancelled ++ w.pending.map (·.deferral) } := by
  obtain ⟨s, hs⟩ := h.virtual
  obtain ⟨-, hwaiting, -, -, -, hconditions, hnumbered⟩ := h
  obtain ⟨s', hs', hleft⟩ := cancel_all w.pending s
  have hclock : w.dispose.clock = .virtual s' := by
    change w.pending.foldl (fun clock p => clock.cancel p.handle) w.clock = _
    rw [hs]
    exact hs'
  have hnone : s'.waiting = [] := by
    refine List.eq_nil_iff_forall_not_mem.mpr fun t ht => ?_
    obtain ⟨hwas, hspared⟩ := hleft t ht
    rw [hs] at hwaiting
    exact hspared _ (hwaiting.mem_iff.mpr (List.mem_map_of_mem hwas)) rfl
  refine ⟨⟨s', hclock⟩, ?_, List.Pairwise.nil, fun p hp => (List.not_mem_nil hp).elim,
    List.nil_sublist _, ?_, hnumbered⟩
  · rw [hclock]
    change List.Perm [] (s'.waiting.map Pending.ofTask)
    rw [hnone]
    exact List.Perm.refl _
  · refine hconditions.trans ?_
    rw [List.append_assoc]
    refine List.perm_append_comm.trans ?_
    rw [List.append_assoc]
    exact List.Perm.refl _

end Booked

/-- Whatever a manager has come to, the account of its deferrals is in order. -/
theorem Recorded.booked {w : World σ} {fates : Fates} (h : Recorded w fates) : Booked w fates := by
  induction h with
  | new hclock hqueue => exact Booked.new hclock hqueue _ _
  | aside _ hw ih => exact ih.aside hw
  | deferred a delay _ ih => exact ih.deferred a delay
  | passed now _ ih => exact ih.ticked (List.Perm.refl _) rfl
  | dropped _ ht hc ih => exact ih.ticked (Scheduler.waiting_rest_of_cancelled ht hc rfl) rfl
  | launched _ ht hc ih => exact ih.launched ht hc
  | disposed _ ih => exact ih.disposed

end Manager
end Switchboard
