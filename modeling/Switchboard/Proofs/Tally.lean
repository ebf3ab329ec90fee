-- What becomes of the tasks of a scheduler. The tally of a run has each task that was submitted,
-- and says of each whether it started or was cancelled before it could. No step loses a task or
-- starts one twice, and tasks start in the order of their due times and submissions as long as no
-- advance turns the clock back.
import Switchboard.Proofs.Happenings
namespace Switchboard.Scheduler

section

variable {τ ψ : Type} [LinearOrder τ]

/-- The submission number that a place in the order of tasks ends with. -/
def serialOf (r : τ ×ₗ ℕ) : ℕ := (ofLex r).2

/-- The due time that it begins with. -/
def dueOf (r : τ ×ₗ ℕ) : τ := (ofLex r).1

/-- The places of all tasks that were submitted, of those that started, and of those that were
cancelled before. -/
structure Tally (τ : Type) where
  submitted : List (τ ×ₗ ℕ)
  started : List (τ ×ₗ ℕ) := []
  cancelled : List (τ ×ₗ ℕ) := []

namespace Tally

/-- A tally begins with the tasks that wait. -/
def of (s : Scheduler τ ψ) : Tally τ := { submitted := s.waiting.map Task.rank }

/-- The tally when something more has happened. To cancel what has started, or was cancelled,
makes no difference. -/
def enter (a : Tally τ) : Happening τ → Tally τ
  | .submitted serial due => { a with submitted := a.submitted ++ [toLex (due, serial)] }
  | .started serial due => { a with started := a.started ++ [toLex (due, serial)] }
  | .cancelled serial =>
    { a with
      cancelled := a.cancelled ++ a.submitted.filter fun r =>
        serialOf r = serial ∧ r ∉ a.started ∧ r ∉ a.cancelled }
  | _ => a

def after (a : Tally τ) (log : List (Entry τ ψ)) : Tally τ :=
  log.foldl (fun a e => a.enter e.what) a

theorem after_concat (a : Tally τ) (log : List (Entry τ ψ)) (e : Entry τ ψ) :
    a.after (log ++ [e]) = (a.after log).enter e.what := by
  unfold after
  rw [List.foldl_append]
  rfl

end Tally

/-! ## Conservation -/

/-- Is each task that was submitted in exactly one condition? -/
structure Conserved (a : Tally τ) (s : Scheduler τ ψ) : Prop where
  /-- It waits, has started, or was cancelled before it did, -/
  conditions : a.submitted.Perm (s.waiting.map Task.rank ++ a.started ++ a.cancelled)
  /-- and only one of them, and once. -/
  once : ((s.waiting.map Task.rank ++ a.started ++ a.cancelled).map serialOf).Nodup
  /-- The next submission has another number. -/
  numbered : ∀ r ∈ a.submitted, serialOf r < s.nextSerial

namespace Conserved

variable {a : Tally τ} {s : Scheduler τ ψ}

theorem of_sane (h : Sane s) : Conserved (Tally.of s) s where
  conditions := by
    change List.Perm _ (s.waiting.map Task.rank ++ [] ++ [])
    rw [List.append_nil, List.append_nil]
    exact .refl _
  once := by
    change ((s.waiting.map Task.rank ++ [] ++ []).map serialOf).Nodup
    rw [List.append_nil, List.append_nil, List.map_map]
    exact h.distinct.sublist (List.filter_sublist.map _)
  numbered r hr := by
    obtain ⟨t, ht, rfl⟩ := List.mem_map.mp hr
    exact h.numbered t (List.mem_filter.mp ht).1

omit [LinearOrder τ] in
/-- Only what waits, and the number of the next submission, matter of the scheduler. -/
theorem congr (h : Conserved a s) {s' : Scheduler τ ψ} (hw : s'.waiting.Perm s.waiting)
    (hn : s'.nextSerial = s.nextSerial) : Conserved a s' := by
  have hperm := ((hw.map Task.rank).append_right a.started).append_right a.cancelled
  refine ⟨h.conditions.trans hperm.symm, (hperm.map serialOf).nodup_iff.mpr h.once, ?_⟩
  rw [hn]
  exact h.numbered

theorem submitted [AddCommGroup τ] (h : Conserved a s) (delay : τ) (payload : ψ) :
    Conserved (a.enter (.submitted s.nextSerial (s.now + max delay 0)))
      (s.later delay payload).2 := by
  have hperm := (((waiting_later s delay payload).map Task.rank).append_right
    a.started).append_right a.cancelled
  have hnew := (h.conditions.cons (toLex (s.now + max delay 0, s.nextSerial))).trans hperm.symm
  have hall : (a.submitted ++ [toLex (s.now + max delay 0, s.nextSerial)]).Perm _ :=
    (List.perm_append_singleton _ _).trans hnew
  refine ⟨hall, ?_, fun r hr => ?_⟩
  · refine (hperm.map serialOf).nodup_iff.mpr (List.nodup_cons.mpr ⟨fun hm => ?_, h.once⟩)
    obtain ⟨r, hr, hserial⟩ := List.mem_map.mp hm
    have hlt := h.numbered r (h.conditions.symm.subset hr)
    rw [hserial] at hlt
    exact Nat.lt_irrefl _ hlt
  · change serialOf r < s.nextSerial + 1
    rcases List.mem_append.mp hr with hr | hr
    · exact Nat.lt_succ_of_lt (h.numbered r hr)
    · cases List.mem_singleton.mp hr
      exact Nat.lt_succ_self _

theorem started (h : Conserved a s) {t : Task τ ψ} (ht : s.queue.top? = some t)
    (hc : t.cancelled = false) (now : τ) :
    Conserved (a.enter (.started t.serial t.due)) { s with now := now, queue := s.rest } := by
  have hwaits : (t :: Scheduler.waiting { s with now := now, queue := s.rest }).Perm s.waiting :=
    waiting_rest_of_live ht hc rfl
  have hlive := hwaits.map Task.rank
  have hmoved : (s.waiting.map Task.rank ++ a.started ++ a.cancelled).Perm
      ((Scheduler.waiting { s with now := now, queue := s.rest }).map Task.rank ++
        (a.started ++ [t.rank]) ++ a.cancelled) := by
    refine List.Perm.append_right _ ?_
    refine (hlive.symm.append_right _).trans ?_
    rw [← List.append_assoc]
    exact (List.perm_append_singleton t.rank _).symm
  exact ⟨h.conditions.trans hmoved, (hmoved.map serialOf).nodup_iff.mp h.once, h.numbered⟩

omit [LinearOrder τ] in
/-- What waits was submitted, and neither has started nor was cancelled. -/
theorem waits (h : Conserved a s) {r : τ ×ₗ ℕ} (hr : r ∈ s.waiting.map Task.rank) :
    r ∈ a.submitted ∧ r ∉ a.started ∧ r ∉ a.cancelled := by
  have honce := h.once
  rw [List.map_append, List.map_append, List.append_assoc] at honce
  have happart := (List.nodup_append.mp honce).2.2 _ (List.mem_map_of_mem hr)
  refine ⟨h.conditions.symm.subset ?_, fun hs => ?_, fun hc => ?_⟩
  · exact List.mem_append_left _ (List.mem_append_left _ hr)
  · exact happart _ (List.mem_append_left _ (List.mem_map_of_mem hs)) rfl
  · exact happart _ (List.mem_append_right _ (List.mem_map_of_mem hc)) rfl

omit [LinearOrder τ] in
/-- What has started was submitted, and was not cancelled before. -/
theorem begun (h : Conserved a s) {r : τ ×ₗ ℕ} (hr : r ∈ a.started) :
    r ∈ a.submitted ∧ r ∉ a.cancelled := by
  have honce := h.once
  rw [List.map_append] at honce
  have hmem := List.mem_append_right (s.waiting.map Task.rank) hr
  refine ⟨h.conditions.symm.subset (List.mem_append_left _ hmem), fun hc => ?_⟩
  exact (List.nodup_append.mp honce).2.2 _ (List.mem_map_of_mem hmem) _ (List.mem_map_of_mem hc) rfl

/-- What is cancelled is the task of that number, if it waits. -/
theorem cancelled (h : Conserved a s) (serial : Nat) :
    Conserved (a.enter (.cancelled serial)) (s.cancel serial) := by
  have happart : ∀ r ∈ s.waiting.map Task.rank, r ∉ a.started ∧ r ∉ a.cancelled :=
    fun r hr => (h.waits hr).2
  have hhits : (a.submitted.filter fun r =>
      serialOf r = serial ∧ r ∉ a.started ∧ r ∉ a.cancelled).Perm
        ((s.waiting.map Task.rank).filter fun r => serialOf r = serial) := by
    refine (h.conditions.filter _).trans ?_
    rw [List.filter_append, List.filter_append]
    have hstarted : (a.started.filter fun r =>
        serialOf r = serial ∧ r ∉ a.started ∧ r ∉ a.cancelled) = [] :=
      List.filter_eq_nil_iff.mpr fun r hr hp => (of_decide_eq_true hp).2.1 hr
    have hcancelled : (a.cancelled.filter fun r =>
        serialOf r = serial ∧ r ∉ a.started ∧ r ∉ a.cancelled) = [] :=
      List.filter_eq_nil_iff.mpr fun r hr hp => (of_decide_eq_true hp).2.2 hr
    rw [hstarted, hcancelled, List.append_nil, List.append_nil]
    exact List.Perm.of_eq (List.filter_congr fun r hr => by simp [happart r hr])
  have hleft : (s.cancel serial).waiting.map Task.rank =
      (s.waiting.map Task.rank).filter fun r => !decide (serialOf r = serial) := by
    rw [waiting_cancel, List.filter_map]
    refine congrArg _ (List.filter_congr fun t _ => ?_)
    exact decide_not
  have hmoved : (s.waiting.map Task.rank ++ a.started ++ a.cancelled).Perm
      ((s.cancel serial).waiting.map Task.rank ++ a.started ++
        (a.cancelled ++ a.submitted.filter fun r =>
          serialOf r = serial ∧ r ∉ a.started ∧ r ∉ a.cancelled)) := by
    refine List.perm_iff_count.mpr fun r => ?_
    have hsplit := (List.filter_append_perm (fun r => decide (serialOf r = serial))
      (s.waiting.map Task.rank)).count_eq r
    rw [List.count_append] at hsplit
    simp only [List.count_append, hleft, hhits.count_eq]
    omega
  exact ⟨h.conditions.trans hmoved, (hmoved.map serialOf).nodup_iff.mp h.once, h.numbered⟩

omit [LinearOrder τ] in
/-- All that was submitted waits, has started or was cancelled, so what does not wait is counted. -/
theorem pending_eq (h : Conserved a s) :
    s.pending + a.started.length + a.cancelled.length = a.submitted.length := by
  have hlength := h.conditions.length_eq
  rw [List.length_append, List.length_append, List.length_map, length_waiting] at hlength
  exact hlength.symm

end Conserved

end

section

variable {τ ψ : Type} [LinearOrder τ]

theorem Conserved.step [AddCommGroup τ] {a : Tally τ} {u v : Stage τ ψ} {what : Happening τ}
    (h : Conserved a u.scheduler) (hs : Step u what v) :
    Conserved (a.enter what) v.scheduler := by
  cases hs with
  | submitted delay payload => exact h.submitted delay payload
  | cancelled serial => exact h.cancelled serial
  | looked => exact h
  | began deadline => exact h
  | dropped ht hd hc => exact h.congr (waiting_rest_of_cancelled ht hc rfl) rfl
  | started ht hd hc => exact h.started ht hc _
  | arrived hnext => exact h.congr (.refl _) rfl
  | broken => exact h

/-- No run of steps loses a task or starts one twice. -/
theorem Conserved.path [AddCommGroup τ] {a : Tally τ} {s v : Stage τ ψ}
    {log : List (Entry τ ψ)} (h : Conserved a s.scheduler) (hp : Path s log v) :
    Conserved (a.after log) v.scheduler := by
  induction hp with
  | nil => exact h
  | snoc _ hs ih =>
    rw [Tally.after_concat]
    exact ih.step hs

/-- What starts was submitted, and neither has started before nor was cancelled. -/
theorem Conserved.startable [AddCommGroup τ] {a : Tally τ} {u v : Stage τ ψ} {serial : ℕ} {due : τ}
    (h : Conserved a u.scheduler) (hs : Step u (.started serial due) v) :
    toLex (due, serial) ∈ a.submitted ∧ toLex (due, serial) ∉ a.started ∧
      toLex (due, serial) ∉ a.cancelled := by
  cases hs with
  | @started s deadline outer t ht hd hc =>
    have hperm : (t :: Scheduler.waiting { s with queue := s.rest }).Perm s.waiting :=
      waiting_rest_of_live ht hc rfl
    exact h.waits (List.mem_map_of_mem (hperm.subset List.mem_cons_self))

/-- When an advance arrives, what was due by its deadline has started or was cancelled. -/
theorem Conserved.settled [AddCommGroup τ] {a : Tally τ} {u v : Stage τ ψ}
    {deadline : τ} (h : Conserved a u.scheduler) (hu : Sane u.scheduler)
    (hs : Step u (.arrived deadline) v) :
    ∀ r ∈ a.submitted, dueOf r ≤ deadline → r ∈ a.started ∨ r ∈ a.cancelled := by
  intro r hr hdue
  have hcondition := h.conditions.subset hr
  rw [List.append_assoc] at hcondition
  rcases List.mem_append.mp hcondition with hwaits | hdone
  · exfalso
    obtain ⟨t, ht, rfl⟩ := List.mem_map.mp hwaits
    have hlate := hu.none_due hs.of_arrived.1 t (List.mem_filter.mp ht).1
    exact absurd hdue (not_le_of_gt hlate)
  · exact List.mem_append.mp hdone

/-! ## The clock -/

/-- If an advance begins, is its time not negative, and its deadline no later than that of an advance
it is made in? -/
def Entry.Unhurried (e : Entry τ ψ) : Prop :=
  match e.what with
  | .began deadline =>
    e.after.scheduler.now ≤ deadline ∧ ∀ outer ∈ e.after.running.tail, deadline ≤ outer
  | _ => True

instance : DecidablePred (Entry.Unhurried : Entry τ ψ → Prop)
  | ⟨.began _, _⟩ => inferInstanceAs (Decidable (_ ∧ _))
  | ⟨.submitted .., _⟩ | ⟨.cancelled _, _⟩ | ⟨.looked, _⟩ | ⟨.dropped _, _⟩ | ⟨.started .., _⟩
  | ⟨.arrived _, _⟩ | ⟨.broken _, _⟩ => inferInstanceAs (Decidable True)

/-- Does no advance hurry on further than the one it is made in? -/
def Unhurried (log : List (Entry τ ψ)) : Prop := ∀ e ∈ log, e.Unhurried

instance (log : List (Entry τ ψ)) : Decidable (Unhurried log) :=
  inferInstanceAs (Decidable (∀ e ∈ log, e.Unhurried))

/-- What the clock showed at the start of a run and after each step. -/
def times (s : Stage τ ψ) (log : List (Entry τ ψ)) : List τ :=
  s.scheduler.now :: log.map (·.after.scheduler.now)

omit [LinearOrder τ] in
theorem times_concat (s : Stage τ ψ) (log : List (Entry τ ψ)) (e : Entry τ ψ) :
    times s (log ++ [e]) = times s log ++ [e.after.scheduler.now] := by
  unfold times
  rw [List.map_append]
  rfl

/-- The last time that was shown is the one shown now. -/
theorem Path.getLast?_times [AddCommGroup τ] {s v : Stage τ ψ} {log : List (Entry τ ψ)}
    (h : Path s log v) : (times s log).getLast? = some v.scheduler.now := by
  cases h with
  | nil => rfl
  | snoc h hs => rw [times_concat, List.getLast?_concat]

/-- A task that starts sees the time it is due. -/
theorem Step.now_of_started [AddCommGroup τ] {u v : Stage τ ψ} {what : Happening τ}
    (h : Step u what v) {serial : ℕ} {due : τ} (hwhat : what = .started serial due) :
    v.scheduler.now = due := by
  cases h with
  | started ht hd hc =>
    cases hwhat
    rfl
  | _ => cases hwhat

/-- Have the clock and the starts of tasks gone forwards only? -/
structure Forward (s : Stage τ ψ) (log : List (Entry τ ψ)) (v : Stage τ ψ) : Prop where
  times : (times s log).Pairwise (· ≤ ·)
  latest : ∀ now ∈ Scheduler.times s log, now ≤ v.scheduler.now
  /-- The deadlines under way are ahead, the innermost first. -/
  running : (v.scheduler.now :: v.running).Pairwise (· ≤ ·)
  starts : ((Tally.of s.scheduler).after log).started.Pairwise (· < ·)
  /-- What has started comes before all that is left, and all that is still to be submitted. -/
  passed : ∀ r ∈ ((Tally.of s.scheduler).after log).started, dueOf r ≤ v.scheduler.now ∧
    serialOf r < v.scheduler.nextSerial ∧ ∀ t ∈ v.scheduler.queue.toList, r < t.rank

theorem Forward.nil {s : Stage τ ψ} (h : (s.scheduler.now :: s.running).Pairwise (· ≤ ·)) :
    Forward s [] s where
  times := List.pairwise_singleton _ _
  latest now hn := by
    cases List.mem_singleton.mp hn
    exact le_refl _
  running := h
  starts := List.Pairwise.nil
  passed _ hr := (List.not_mem_nil hr).elim

namespace Forward

variable {s u v : Stage τ ψ} {log : List (Entry τ ψ)} {what : Happening τ}

/-- One more time is shown. -/
theorem concat (h : Forward s log u) (hnow : u.scheduler.now ≤ v.scheduler.now)
    (hrunning : (v.scheduler.now :: v.running).Pairwise (· ≤ ·))
    (hstarts : ((Tally.of s.scheduler).after (log ++ [⟨what, v⟩])).started.Pairwise (· < ·))
    (hpassed : ∀ r ∈ ((Tally.of s.scheduler).after (log ++ [⟨what, v⟩])).started,
      dueOf r ≤ v.scheduler.now ∧ serialOf r < v.scheduler.nextSerial ∧
        ∀ t ∈ v.scheduler.queue.toList, r < t.rank) :
    Forward s (log ++ [⟨what, v⟩]) v where
  times := by
    rw [times_concat]
    refine List.pairwise_append.mpr ⟨h.times, List.pairwise_singleton _ _, fun now hn last hl => ?_⟩
    cases List.mem_singleton.mp hl
    exact (h.latest now hn).trans hnow
  latest now hn := by
    rw [times_concat] at hn
    rcases List.mem_append.mp hn with hn | hn
    · exact (h.latest now hn).trans hnow
    · cases List.mem_singleton.mp hn
      exact le_refl _
  running := hrunning
  starts := hstarts
  passed := hpassed

/-- A step that is no start goes forwards if it does not turn the clock back, nor makes place for a
task before those that have started. -/
theorem idle (h : Forward s log u) (hnow : u.scheduler.now ≤ v.scheduler.now)
    (hrunning : (v.scheduler.now :: v.running).Pairwise (· ≤ ·))
    (hserial : u.scheduler.nextSerial ≤ v.scheduler.nextSerial)
    (hstarted : (((Tally.of s.scheduler).after log).enter what).started =
      ((Tally.of s.scheduler).after log).started)
    (hleft : ∀ t ∈ v.scheduler.queue.toList,
      (∃ t' ∈ u.scheduler.queue.toList, t.rank = t'.rank) ∨
        u.scheduler.now ≤ t.due ∧ u.scheduler.nextSerial ≤ t.serial) :
    Forward s (log ++ [⟨what, v⟩]) v := by
  have hsame : ((Tally.of s.scheduler).after (log ++ [⟨what, v⟩])).started =
      ((Tally.of s.scheduler).after log).started := by
    rw [Tally.after_concat, hstarted]
  refine h.concat hnow hrunning (hsame ▸ h.starts) fun r hr => ?_
  rw [hsame] at hr
  obtain ⟨hdue, hnumber, hbefore⟩ := h.passed r hr
  refine ⟨hdue.trans hnow, hnumber.trans_le hserial, fun t ht => ?_⟩
  rcases hleft t ht with ⟨t', ht', hrank⟩ | ⟨hlate, hnew⟩
  · rw [hrank]
    exact hbefore t' ht'
  · refine Prod.Lex.toLex_lt_toLex.mpr ?_
    rcases (hdue.trans hlate).lt_or_eq with hlt | heq
    · exact .inl hlt
    · exact .inr ⟨heq, hnumber.trans_le hnew⟩

/-- A task that starts comes after all that started before. -/
theorem start (h : Forward s log u) (hu : Sane u.scheduler) {deadline : τ} {outer : List τ}
    (hrunning : u.running = deadline :: outer) {t : Task τ ψ}
    (ht : u.scheduler.queue.top? = some t) (hd : t.due ≤ deadline) :
    Forward s (log ++ [⟨.started t.serial t.due,
        ⟨{ u.scheduler with now := t.due, queue := u.scheduler.rest }, deadline :: outer⟩⟩])
      ⟨{ u.scheduler with now := t.due, queue := u.scheduler.rest }, deadline :: outer⟩ := by
  have hpop := Heap.toList_pop Task.before ht
  have htop : t ∈ u.scheduler.queue.toList := hpop.subset List.mem_cons_self
  have hahead := h.running
  rw [hrunning, List.pairwise_cons] at hahead
  have hstarted : ∀ v : Stage τ ψ,
      ((Tally.of s.scheduler).after (log ++ [⟨.started t.serial t.due, v⟩])).started =
        ((Tally.of s.scheduler).after log).started ++ [t.rank] := by
    intro v
    rw [Tally.after_concat]
    rfl
  refine h.concat (hu.due t htop) (List.pairwise_cons.mpr ⟨fun d hdm => ?_, hahead.2⟩) ?_
    fun r hr => ?_
  · rcases List.mem_cons.mp hdm with rfl | hdm
    · exact hd
    · exact hd.trans ((List.pairwise_cons.mp hahead.2).1 d hdm)
  · rw [hstarted]
    refine List.pairwise_append.mpr ⟨h.starts, List.pairwise_singleton _ _, fun r hr r' hr' => ?_⟩
    cases List.mem_singleton.mp hr'
    exact (h.passed r hr).2.2 t htop
  · rw [hstarted] at hr
    have hrest := hu.rest_after ht
    rcases List.mem_append.mp hr with hr | hr
    · obtain ⟨hdue, hnumber, hbefore⟩ := h.passed r hr
      exact ⟨hdue.trans (hu.due t htop), hnumber, fun t' ht' =>
        (hbefore t htop).trans (hrest t' ht')⟩
    · cases List.mem_singleton.mp hr
      exact ⟨le_refl _, hu.numbered t htop, hrest⟩

theorem step [AddCommGroup τ] [IsOrderedAddMonoid τ] (h : Forward s log u) (hu : Sane u.scheduler)
    (hs : Step u what v) (hunhurried : Entry.Unhurried ⟨what, v⟩) :
    Forward s (log ++ [⟨what, v⟩]) v := by
  have hrunning := h.running
  cases hs with
  | @submitted s₁ running delay payload =>
    refine h.idle (le_refl _) hrunning (Nat.le_succ _) rfl fun t ht => ?_
    rcases List.mem_cons.mp ((Heap.toList_push Task.before _ s₁.queue).subset ht) with rfl | ht
    · exact .inr ⟨le_add_of_nonneg_right (le_max_right delay 0), le_refl _⟩
    · exact .inl ⟨t, ht, rfl⟩
  | @cancelled s₁ running serial =>
    refine h.idle (le_refl _) hrunning (le_refl _) rfl fun t ht => .inl ?_
    change t ∈ (s₁.queue.map _).toList at ht
    rw [Heap.toList_map] at ht
    obtain ⟨t', ht', rfl⟩ := List.mem_map.mp ht
    refine ⟨t', ht', ?_⟩
    split <;> rfl
  | looked => exact h.idle (le_refl _) hrunning (le_refl _) rfl fun t ht => .inl ⟨t, ht, rfl⟩
  | began deadline =>
    obtain ⟨hnow, houter⟩ := hunhurried
    refine h.idle (le_refl _) ?_ (le_refl _) rfl fun t ht => .inl ⟨t, ht, rfl⟩
    obtain ⟨hahead, hnested⟩ := List.pairwise_cons.mp hrunning
    exact List.pairwise_cons.mpr ⟨List.forall_mem_cons.mpr ⟨hnow, hahead⟩,
      List.pairwise_cons.mpr ⟨houter, hnested⟩⟩
  | dropped ht hd hc =>
    refine h.idle (le_refl _) hrunning (le_refl _) rfl fun t' ht' => .inl ⟨t', ?_, rfl⟩
    exact (Heap.toList_pop Task.before ht).subset (List.mem_cons_of_mem _ ht')
  | started ht hd hc => exact h.start hu rfl ht hd
  | arrived hnext =>
    obtain ⟨hahead, hnested⟩ := List.pairwise_cons.mp hrunning
    exact h.idle (hahead _ List.mem_cons_self) hnested (le_refl _) rfl fun t ht => .inl ⟨t, ht, rfl⟩
  | broken =>
    obtain ⟨hahead, hnested⟩ := List.pairwise_cons.mp hrunning
    refine h.idle (le_refl _) (List.pairwise_cons.mpr ⟨fun d hd => ?_, ?_⟩) (le_refl _) rfl
      fun t ht => .inl ⟨t, ht, rfl⟩
    · exact hahead d (List.mem_cons_of_mem _ hd)
    · exact (List.pairwise_cons.mp hnested).2

/-- In a run in which no advance hurries, the clock and the starts of tasks go forwards only. -/
theorem path [AddCommGroup τ] [IsOrderedAddMonoid τ]
    (hrunning : (s.scheduler.now :: s.running).Pairwise (· ≤ ·))
    (hsane : Sane s.scheduler) (hp : Path s log v) (hunhurried : Unhurried log) :
    Forward s log v := by
  induction hp with
  | nil => exact .nil hrunning
  | @snoc log u v what hp hs ih =>
    refine (ih fun e he => hunhurried e (List.mem_append_left _ he)).step (hsane.path hp) hs ?_
    exact hunhurried ⟨what, v⟩ (List.mem_append_right _ List.mem_cons_self)

end Forward
end
end Switchboard.Scheduler
