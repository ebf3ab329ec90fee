-- A host program from which one task is left out: what submits the task is deleted, and so is what
-- cancels it. The tasks submitted later have lower numbers then, and the host is handed those that
-- they had. The queue is what the other one is without the task, as long as the same things are
-- done to both, and the loops of the clock meet the same tasks in the same order.
import Mathlib.Data.List.Nodup
import Switchboard.Proofs.Chronicle
namespace Switchboard.Scheduler

/-! ## Numbers with one left out -/

/-- The number of a task when the one of number `k` is left out. -/
def lowered (k serial : Nat) : Nat := if k < serial then serial - 1 else serial

/-- The number that it had before. -/
def raised (k serial : Nat) : Nat := if k ≤ serial then serial + 1 else serial

theorem raised_lowered {k i : Nat} (h : i ≠ k) : raised k (lowered k i) = i := by
  unfold raised lowered
  split <;> split <;> omega

theorem lowered_le_lowered {k i j : Nat} (h : i ≤ j) : lowered k i ≤ lowered k j := by
  unfold lowered
  split <;> split <;> omega

theorem lowered_inj {k i j : Nat} (hi : i ≠ k) (hj : j ≠ k) (h : lowered k i = lowered k j) :
    i = j := by
  rw [← raised_lowered hi, h, raised_lowered hj]

theorem lowered_succ {k i : Nat} (h : i ≠ k) : lowered k (i + 1) = lowered k i + 1 := by
  unfold lowered
  split <;> split <;> omega

/-! ## Programs with a task left out -/

/-- The state of a host whose task is left out, and what would have become of the task. -/
structure Omitting (σ : Type) where
  host : σ
  /-- The number of tasks that were submitted or left out. -/
  submissions : Nat := 0
  /-- Was the task that is left out cancelled after it was? -/
  withdrawn : Bool := false
deriving DecidableEq

namespace Omitting

variable {σ : Type}

/-- Another task is submitted or left out. -/
def submit (o : Omitting σ) : Omitting σ := { o with submissions := o.submissions + 1 }

/-- The task of number `k` is cancelled, if it has been left out yet. -/
def withdraw (k : Nat) (o : Omitting σ) : Omitting σ :=
  { o with withdrawn := o.withdrawn || decide (k < o.submissions) }

/-- Would the task of this number wait, if nothing had started it? -/
def waits (k : Nat) (o : Omitting σ) : Bool := decide (k < o.submissions) && !o.withdrawn

end Omitting

section

variable {τ σ : Type}

/-- A program that does not submit the task of number `k`, nor cancel it. The host is handed the
numbers that all others would have, and one is added to those that wait while the task would. -/
def without (k : Nat) : Program (interface τ) σ → Program (interface τ) (Omitting σ)
  | .done result => .done result
  | .fail f => .fail f
  | .note change next =>
    .note (fun o => { o with host := change o.host }) fun o => without k (next o.host)
  | .perform (.later delay) task next =>
    .note Omitting.submit fun o =>
      if o.submissions = k + 1 then without k (next (.ok k))
      else .perform (.later delay) (fun i => without k (task i))
        fun r => without k (next (r.map (raised k)))
  | .perform (.cancel serial) _ next =>
    if serial = k then .note (Omitting.withdraw k) fun _ => without k (next (.ok ()))
    else .perform (.cancel (lowered k serial)) nofun fun r => without k (next r)
  | .perform (.advance ms) _ next => .perform (.advance ms) nofun fun r => without k (next r)
  | .perform .runAll _ next => .perform .runAll nofun fun r => without k (next r)
  | .perform .look _ next =>
    .perform .look nofun fun r => .note id fun o =>
      without k (next (r.map fun seen => (seen.1, seen.2 + if o.waits k then 1 else 0)))

end
end Scheduler

/-- A task of a host that leaves another one out. -/
def Task.without {τ σ : Type} (k : Nat) (t : Task τ (Program (Scheduler.interface τ) σ)) :
    Task τ (Program (Scheduler.interface τ) (Scheduler.Omitting σ)) :=
  ⟨t.due, Scheduler.lowered k t.serial, Scheduler.without k t.payload, t.cancelled⟩

theorem Task.rank_without {τ σ : Type} [LinearOrder τ] (k : Nat)
    {t u : Task τ (Program (Scheduler.interface τ) σ)} (h : t.rank ≤ u.rank) :
    (t.without k).rank ≤ (u.without k).rank := by
  rcases Prod.Lex.toLex_le_toLex.mp h with hlt | ⟨heq, hserial⟩
  · exact Prod.Lex.toLex_le_toLex.mpr (.inl hlt)
  · exact Prod.Lex.toLex_le_toLex.mpr (.inr ⟨heq, Scheduler.lowered_le_lowered hserial⟩)

namespace Scheduler

/-! ## Schedulers that lack a task -/

section

variable {τ σ : Type}

/-- The tasks of a queue but for the one of number `k`, as a host has them that leaves it out. -/
def others (k : Nat) (s : Scheduler τ (Program (interface τ) σ)) :
    List (Task τ (Program (interface τ) (Omitting σ))) :=
  (s.queue.toList.filter (·.serial ≠ k)).map (Task.without k)

theorem mem_others {k : Nat} {s : Scheduler τ (Program (interface τ) σ)}
    {t : Task τ (Program (interface τ) (Omitting σ))} :
    t ∈ others k s ↔ ∃ u ∈ s.queue.toList, u.serial ≠ k ∧ u.without k = t := by
  simp [others, and_assoc]

/-- Does the task of number `k` wait? -/
def holds (k : Nat) (s : Scheduler τ (Program (interface τ) σ)) : Bool :=
  s.queue.toList.any fun t => t.serial = k && !t.cancelled

section

variable [LinearOrder τ] {k : Nat} {s : Scheduler τ (Program (interface τ) σ)}
  {t : Task τ (Program (interface τ) σ)}

/-- Whether it waits does not change when another task is let go, or a cancelled one. -/
theorem holds_rest (ht : s.queue.top? = some t) (h : t.serial ≠ k ∨ t.cancelled = true) (now : τ) :
    holds k { s with now := now, queue := s.rest } = holds k s := by
  have hnot : (decide (t.serial = k) && !t.cancelled) = false := by
    rcases h with h | h <;> simp [h]
  have hpop : (t :: s.rest.toList).Perm s.queue.toList := Heap.toList_pop Task.before ht
  unfold holds
  rw [← hpop.any_eq, List.any_cons, hnot, Bool.false_or]

theorem holds_later [AddCommGroup τ] (delay : τ) (task : Program (interface τ) σ) :
    holds k (s.later delay task).2 = (decide (s.nextSerial = k) || holds k s) := by
  have hpush := Heap.toList_push Task.before
    ⟨s.now + max delay 0, s.nextSerial, task, false⟩ s.queue
  unfold holds Scheduler.later
  rw [hpush.any_eq, List.any_cons]
  simp

omit [LinearOrder τ] in
theorem holds_cancel (i : Nat) : holds k (s.cancel i) = (decide (i ≠ k) && holds k s) := by
  unfold holds Scheduler.cancel
  rw [Heap.toList_map, List.any_map]
  by_cases hi : i = k
  · subst hi
    rw [List.any_eq_false.mpr]
    · simp
    · intro t _
      by_cases ht : t.serial = i <;> simp [ht]
  · rw [decide_eq_true hi, Bool.true_and]
    congr 1
    funext t
    by_cases ht : t.serial = i
    · simp [ht, hi]
    · simp [ht]

end

/-- Is the second scheduler the first one without the task of number `k`? The clocks may differ. -/
structure Lacks [LinearOrder τ] (k : Nat) (s : Scheduler τ (Program (interface τ) σ))
    (s' : Scheduler τ (Program (interface τ) (Omitting σ))) : Prop where
  sane : Sane s
  sane' : Sane s'
  queue : s'.queue.toList.Perm (others k s)
  next : s'.nextSerial = lowered k s.nextSerial

end

namespace Lacks

section

variable {τ σ : Type} [LinearOrder τ] {k : Nat} {s : Scheduler τ (Program (interface τ) σ)}
  {s' : Scheduler τ (Program (interface τ) (Omitting σ))} {t : Task τ (Program (interface τ) σ)}

/-- Where another task than `k` comes next, it comes next in both. -/
theorem top (h : Lacks k s s') (ht : s.queue.top? = some t) (hk : t.serial ≠ k) :
    s'.queue.top? = some (t.without k) := by
  have hmem : t ∈ s.queue.toList := (Heap.toList_pop Task.before ht).subset List.mem_cons_self
  have hother : t.without k ∈ s'.queue.toList :=
    h.queue.mem_iff.mpr (mem_others.mpr ⟨t, hmem, hk, rfl⟩)
  cases ht' : s'.queue.top? with
  | none =>
    rw [Heap.toList_of_no_top ht'] at hother
    cases hother
  | some t' =>
    have hmem' : t' ∈ s'.queue.toList :=
      (Heap.toList_pop Task.before ht').subset List.mem_cons_self
    obtain ⟨u, hu, huk, rfl⟩ := mem_others.mp (h.queue.subset hmem')
    -- Each is the first of all, so both have the same number.
    have hrank : (u.without k).rank = (t.without k).rank :=
      le_antisymm (h.sane'.top_first ht' _ hother)
        (Task.rank_without k (h.sane.top_first ht u hu))
    have hserial : u.serial = t.serial :=
      lowered_inj huk hk (congrArg (fun r => (ofLex r).2) hrank)
    rw [List.inj_on_of_nodup_map h.sane.distinct hu hmem hserial]

/-- What is not due is not due without `k`. -/
theorem idle (h : Lacks k s s') {deadline : τ}
    (hnext : ∀ t, s.queue.top? = some t → ¬ t.due ≤ deadline) :
    ∀ t', s'.queue.top? = some t' → ¬ t'.due ≤ deadline := by
  intro t' ht'
  have hmem' := (Heap.toList_pop Task.before ht').subset List.mem_cons_self
  obtain ⟨u, hu, -, rfl⟩ := mem_others.mp (h.queue.subset hmem')
  exact not_le_of_gt (h.sane.none_due hnext u hu)

/-- The clocks may be set to any time that no task has missed. -/
theorem set (h : Lacks k s s') {now now' : τ} (hnow : ∀ t ∈ s.queue.toList, now ≤ t.due)
    (hnow' : ∀ t ∈ s'.queue.toList, now' ≤ t.due) :
    Lacks k { s with now := now } { s' with now := now' } :=
  ⟨⟨h.sane.ordered, h.sane.numbered, h.sane.distinct, hnow⟩,
    ⟨h.sane'.ordered, h.sane'.numbered, h.sane'.distinct, hnow'⟩, h.queue, h.next⟩

/-- An advance that finds nothing due reaches its deadline in both. -/
theorem arrived (h : Lacks k s s') {deadline : τ}
    (hnext : ∀ t, s.queue.top? = some t → ¬ t.due ≤ deadline) :
    Lacks k { s with now := deadline } { s' with now := deadline } :=
  h.set (fun u hu => (h.sane.none_due hnext u hu).le)
    fun u hu => (h.sane'.none_due (h.idle hnext) u hu).le

theorem others_rest (ht : s.queue.top? = some t) (hk : t.serial ≠ k) (now : τ) :
    (t.without k :: others k { s with now := now, queue := s.rest }).Perm (others k s) := by
  have hpop := ((Heap.toList_pop Task.before ht).filter (·.serial ≠ k)).map (Task.without k)
  rw [List.filter_cons_of_pos (by simpa using hk), List.map_cons] at hpop
  exact hpop

/-- Another task than `k` is let go in both. -/
theorem popped (h : Lacks k s s') (ht : s.queue.top? = some t) (hk : t.serial ≠ k) {now now' : τ}
    (hnow : ∀ u ∈ s.rest.toList, now ≤ u.due) (hnow' : ∀ u ∈ s'.rest.toList, now' ≤ u.due) :
    Lacks k { s with now := now, queue := s.rest } { s' with now := now', queue := s'.rest } := by
  have ht' := h.top ht hk
  have hpop' : (t.without k :: s'.rest.toList).Perm s'.queue.toList :=
    Heap.toList_pop Task.before ht'
  exact ⟨h.sane.pop ht hnow, h.sane'.pop ht' hnow',
    (hpop'.trans (h.queue.trans (others_rest ht hk now).symm)).cons_inv, h.next⟩

/-- Task `k` is let go where it waits. -/
theorem passed (h : Lacks k s s') (ht : s.queue.top? = some t) (hk : t.serial = k) {now : τ}
    (hnow : ∀ u ∈ s.rest.toList, now ≤ u.due) :
    Lacks k { s with now := now, queue := s.rest } s' := by
  have hpop := ((Heap.toList_pop Task.before ht).filter (·.serial ≠ k)).map (Task.without k)
  rw [List.filter_cons_of_neg (by simpa using hk)] at hpop
  exact ⟨h.sane.pop ht hnow, h.sane', h.queue.trans hpop.symm, h.next⟩

/-- No other task has the number of one that was let go. -/
theorem gone (h : Lacks k s s') (ht : s.queue.top? = some t) :
    ∀ u ∈ s.rest.toList, u.serial ≠ t.serial := by
  intro u hu hserial
  have hpop : (t :: s.rest.toList).Perm s.queue.toList := Heap.toList_pop Task.before ht
  have hnumbers := (hpop.map (·.serial)).nodup_iff.mpr h.sane.distinct
  rw [List.map_cons, List.nodup_cons] at hnumbers
  exact hnumbers.1 (hserial ▸ List.mem_map_of_mem hu)

/-- Those that wait are those that wait without `k`, and `k` if it does. -/
theorem pending (h : Lacks k s s') : s.pending = s'.pending + if holds k s then 1 else 0 := by
  have hothers : s'.pending =
      s.queue.toList.countP fun t => t.serial ≠ k && !t.cancelled := by
    unfold Scheduler.pending
    rw [h.queue.countP_eq, others, List.countP_map, List.countP_filter]
    exact List.countP_congr fun t _ => by simp [Task.without, and_comm]
  have hsplit : s.pending = (s.queue.toList.countP fun t => t.serial ≠ k && !t.cancelled) +
      s.queue.toList.countP fun t => t.serial = k && !t.cancelled := by
    unfold Scheduler.pending
    generalize s.queue.toList = tasks
    induction tasks with
    | nil => rfl
    | cons t rest ih =>
      simp only [List.countP_cons, ih]
      by_cases hk : t.serial = k <;> cases t.cancelled <;> simp [hk] <;> omega
  have hone : (s.queue.toList.countP fun t => t.serial = k && !t.cancelled) =
      if holds k s then 1 else 0 := by
    have hnumbers := h.sane.distinct
    unfold holds
    generalize s.queue.toList = tasks at hnumbers
    induction tasks with
    | nil => rfl
    | cons t rest ih =>
      rw [List.map_cons, List.nodup_cons] at hnumbers
      rw [List.countP_cons, ih hnumbers.2, List.any_cons]
      by_cases hk : t.serial = k
      · have hrest : (rest.any fun t => t.serial = k && !t.cancelled) = false := by
          rw [List.any_eq_false]
          intro u hu
          have hother : u.serial ≠ k := fun hu' =>
            hnumbers.1 (hk.trans hu'.symm ▸ List.mem_map_of_mem hu)
          simp [hother]
        cases t.cancelled <;> simp [hk, hrest]
      · simp [hk]
  rw [hsplit, hothers, hone]

/-- A task is cancelled in both. -/
theorem cancel (h : Lacks k s s') {i : Nat} (hi : i ≠ k) :
    Lacks k (s.cancel i) (s'.cancel (lowered k i)) := by
  refine ⟨h.sane.cancel i, h.sane'.cancel _, ?_, h.next⟩
  have hmap := h.queue.map fun t : Task τ (Program (interface τ) (Omitting σ)) =>
    if t.serial = lowered k i then { t with cancelled := true } else t
  unfold others Scheduler.cancel at *
  dsimp only
  rw [Heap.toList_map, Heap.toList_map]
  refine hmap.trans (.of_eq ?_)
  rw [List.map_map, List.filter_map, List.map_map]
  have hsame : ((fun t : Task τ (Program (interface τ) σ) => decide (t.serial ≠ k)) ∘ fun t =>
      if t.serial = i then { t with cancelled := true } else t) = fun t =>
        decide (t.serial ≠ k) := by
    funext t
    simp only [Function.comp]
    split <;> rfl
  rw [hsame]
  refine List.map_congr_left fun t ht => ?_
  have hk : t.serial ≠ k := by simpa using (List.mem_filter.mp ht).2
  by_cases hti : t.serial = i
  · simp [Task.without, hti]
  · have hlow : lowered k t.serial ≠ lowered k i := fun heq => hti (lowered_inj hk hi heq)
    simp [Task.without, hti, hlow]

/-- Task `k` is cancelled where it waits. -/
theorem cancelled (h : Lacks k s s') : Lacks k (s.cancel k) s' := by
  refine ⟨h.sane.cancel k, h.sane', h.queue.trans (.of_eq ?_), h.next⟩
  unfold others Scheduler.cancel
  dsimp only
  rw [Heap.toList_map]
  generalize s.queue.toList = tasks
  induction tasks with
  | nil => rfl
  | cons t rest ih =>
    by_cases hk : t.serial = k
    · simpa [hk] using ih
    · simpa [hk] using ih

end

section

variable {τ σ : Type} [AddCommGroup τ] [LinearOrder τ] [IsOrderedAddMonoid τ] {k : Nat}
  {s : Scheduler τ (Program (interface τ) σ)}
  {s' : Scheduler τ (Program (interface τ) (Omitting σ))}

/-- Another task than `k` is submitted to both. -/
theorem later (h : Lacks k s s') (hnow : s'.now = s.now) (hk : s.nextSerial ≠ k) (delay : τ)
    (task : Program (interface τ) σ) :
    Lacks k (s.later delay task).2 (s'.later delay (Scheduler.without k task)).2 := by
  have hpush := (Heap.toList_push Task.before
    ⟨s.now + max delay 0, s.nextSerial, task, false⟩ s.queue).filter (·.serial ≠ k)
  rw [List.filter_cons_of_pos (by simpa using hk)] at hpush
  have hpush' : (s'.later delay (Scheduler.without k task)).2.queue.toList.Perm
      (Task.without k ⟨s.now + max delay 0, s.nextSerial, task, false⟩ :: s'.queue.toList) := by
    unfold Task.without
    rw [← hnow, ← h.next]
    exact Heap.toList_push Task.before _ s'.queue
  refine ⟨h.sane.later delay task, h.sane'.later delay _, ?_, ?_⟩
  · exact (hpush'.trans (h.queue.cons _)).trans (hpush.map (Task.without k)).symm
  · exact (congrArg (· + 1) h.next).trans (lowered_succ hk).symm

/-- Task `k` is submitted where it is not left out. -/
theorem submitted (h : Lacks k s s') (hk : s.nextSerial = k) (delay : τ)
    (task : Program (interface τ) σ) : Lacks k (s.later delay task).2 s' := by
  have hpush := (Heap.toList_push Task.before
    ⟨s.now + max delay 0, s.nextSerial, task, false⟩ s.queue).filter (·.serial ≠ k)
  rw [List.filter_cons_of_neg (by simpa using hk)] at hpush
  refine ⟨h.sane.later delay task, h.sane', h.queue.trans (hpush.map (Task.without k)).symm, ?_⟩
  rw [h.next, hk]
  change lowered k k = lowered k (s.nextSerial + 1)
  simp [lowered, hk]

end

end Lacks
end Switchboard.Scheduler
