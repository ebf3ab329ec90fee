-- What happens to a scheduler on a virtual clock, step by step: tasks are submitted and cancelled,
-- advances begin, run tasks or let them go, and arrive or break off. Advances nest, for a task that
-- runs may advance the clock itself. What each step keeps holds after every run of steps: the queue
-- is in order, no task is lost or runs twice, and the clock is never turned back by an advance that
-- stays within the one it is made in.
import Mathlib.Algebra.Order.Group.Defs
import Mathlib.Data.Prod.Lex
import Switchboard.Proofs.Queue
namespace Switchboard

/-! ## The order of tasks -/

/-- The place of a task in the order of all: its due time, and then the order of submission. -/
def Task.rank {τ ψ : Type} (t : Task τ ψ) : τ ×ₗ ℕ := toLex (t.due, t.serial)

section

variable {τ ψ : Type} [LinearOrder τ]

theorem Task.before_iff (a b : Task τ ψ) : a.before b = true ↔ a.rank < b.rank := by
  unfold Task.before Task.rank
  rw [Prod.Lex.toLex_lt_toLex]
  simp only [Bool.or_eq_true, Bool.and_eq_true, decide_eq_true_eq]
  constructor
  · rintro (hlt | ⟨⟨hle, hge⟩, hserial⟩)
    · exact .inl hlt
    · exact .inr ⟨le_antisymm hle hge, hserial⟩
  · rintro (hlt | ⟨heq, hserial⟩)
    · exact .inl hlt
    · exact .inr ⟨⟨heq.le, heq.ge⟩, hserial⟩

theorem Task.before_eq_false_iff (a b : Task τ ψ) : a.before b = false ↔ b.rank ≤ a.rank := by
  rw [← Bool.not_eq_true, Task.before_iff, not_lt]

/-- Tasks can all be compared. -/
theorem Task.ranks : Heap.Ranks (Task.before : Task τ ψ → Task τ ψ → Bool) where
  asymm h := (Task.before_eq_false_iff _ _).mpr ((Task.before_iff _ _).mp h).le
  trans h h' := (Task.before_eq_false_iff _ _).mpr
    (((Task.before_eq_false_iff _ _).mp h).trans ((Task.before_eq_false_iff _ _).mp h'))

end

namespace Scheduler

section

variable {τ ψ : Type} [LinearOrder τ]

/-! ## The queue -/

/-- What every step keeps of a scheduler. -/
structure Sane (s : Scheduler τ ψ) : Prop where
  ordered : s.queue.Ordered Task.before
  numbered : ∀ t ∈ s.queue.toList, t.serial < s.nextSerial
  distinct : (s.queue.toList.map (·.serial)).Nodup
  /-- Nothing was missed. -/
  due : ∀ t ∈ s.queue.toList, s.now ≤ t.due

namespace Sane

variable {s : Scheduler τ ψ} {t : Task τ ψ}

theorem of_empty (hq : s.queue = .empty) : Sane s := by
  refine ⟨?_, ?_, ?_, ?_⟩ <;> rw [hq]
  · trivial
  · exact fun t ht => (List.not_mem_nil ht).elim
  · exact List.nodup_nil
  · exact fun t ht => (List.not_mem_nil ht).elim

theorem later [AddCommGroup τ] [IsOrderedAddMonoid τ] (h : Sane s) (delay : τ) (payload : ψ) :
    Sane (s.later delay payload).2 := by
  have hpush : (s.later delay payload).2.queue.toList.Perm
      (⟨s.now + max delay 0, s.nextSerial, payload, false⟩ :: s.queue.toList) :=
    Heap.toList_push Task.before _ s.queue
  refine ⟨h.ordered.push Task.ranks _, fun t ht => ?_, ?_, fun t ht => ?_⟩
  · change t.serial < s.nextSerial + 1
    rcases List.mem_cons.mp (hpush.subset ht) with rfl | ht
    · exact Nat.lt_succ_self _
    · exact Nat.lt_succ_of_lt (h.numbered t ht)
  · refine (hpush.map (·.serial)).nodup_iff.mpr (List.nodup_cons.mpr ⟨fun hm => ?_, h.distinct⟩)
    obtain ⟨t, ht, hserial⟩ := List.mem_map.mp hm
    exact absurd (h.numbered t ht) (hserial ▸ Nat.lt_irrefl _)
  · rcases List.mem_cons.mp (hpush.subset ht) with rfl | ht
    · exact le_add_of_nonneg_right (le_max_right delay 0)
    · exact h.due t ht

theorem cancel (h : Sane s) (serial : Nat) : Sane (s.cancel serial) := by
  -- Only the marks change.
  have hsame : ∀ t ∈ (s.cancel serial).queue.toList, ∃ u ∈ s.queue.toList,
      t.serial = u.serial ∧ t.due = u.due := by
    intro t ht
    change t ∈ (s.queue.map _).toList at ht
    rw [Heap.toList_map] at ht
    obtain ⟨u, hu, rfl⟩ := List.mem_map.mp ht
    refine ⟨u, hu, ?_⟩
    split <;> exact ⟨rfl, rfl⟩
  refine ⟨h.ordered.map fun x y => ?_, fun t ht => ?_, ?_, fun t ht => ?_⟩
  · split <;> split <;> rfl
  · obtain ⟨u, hu, hserial, -⟩ := hsame t ht
    rw [hserial]
    exact h.numbered u hu
  · change ((s.queue.map _).toList.map _).Nodup
    rw [Heap.toList_map, List.map_map]
    have hserials : s.queue.toList.map (Task.serial ∘ fun t : Task τ ψ =>
        if t.serial = serial then { t with cancelled := true } else t) =
          s.queue.toList.map Task.serial :=
      List.map_congr_left fun t _ => by
        change (if t.serial = serial then { t with cancelled := true } else t).serial = t.serial
        split <;> rfl
    rw [hserials]
    exact h.distinct
  · obtain ⟨u, hu, -, hdue⟩ := hsame t ht
    rw [hdue]
    exact h.due u hu

/-- The task that comes next is the first of all, -/
theorem top_first (h : Sane s) (ht : s.queue.top? = some t) :
    ∀ u ∈ s.queue.toList, t.rank ≤ u.rank := fun u hu =>
  (Task.before_eq_false_iff u t).mp (h.ordered.top_first Task.ranks ht u hu)

/-- and the others come after it. -/
theorem rest_after (h : Sane s) (ht : s.queue.top? = some t) :
    ∀ u ∈ s.rest.toList, t.rank < u.rank := by
  have hpop : (t :: s.rest.toList).Perm s.queue.toList := Heap.toList_pop Task.before ht
  have hnumbers := (hpop.map (·.serial)).nodup_iff.mpr h.distinct
  rw [List.map_cons, List.nodup_cons] at hnumbers
  intro u hu
  refine lt_of_le_of_ne (h.top_first ht u (hpop.subset (List.mem_cons_of_mem t hu))) fun hrank => ?_
  have hserial : t.serial = u.serial := congrArg (fun r => (ofLex r).2) hrank
  exact hnumbers.1 (hserial ▸ List.mem_map_of_mem hu)

/-- When the task that comes next is let go, the clock may be set to any time up to those that are
left. -/
theorem pop (h : Sane s) (ht : s.queue.top? = some t) {now : τ}
    (hnow : ∀ u ∈ s.rest.toList, now ≤ u.due) : Sane { s with now := now, queue := s.rest } := by
  have hpop : (t :: s.rest.toList).Perm s.queue.toList := Heap.toList_pop Task.before ht
  have hleft : ∀ u ∈ s.rest.toList, u ∈ s.queue.toList :=
    fun u hu => hpop.subset (List.mem_cons_of_mem t hu)
  refine ⟨h.ordered.pop Task.ranks, fun u hu => h.numbered u (hleft u hu), ?_, hnow⟩
  have hnumbers := (hpop.map (·.serial)).nodup_iff.mpr h.distinct
  exact (List.nodup_cons.mp hnumbers).2

theorem due_of_rank {u v : Task τ ψ} (h : u.rank ≤ v.rank) : u.due ≤ v.due := by
  rcases Prod.Lex.toLex_le_toLex.mp h with hlt | ⟨heq, -⟩
  · exact hlt.le
  · exact heq.le

/-- If what comes next is not due by a deadline, nothing is. -/
theorem none_due (h : Sane s) {deadline : τ}
    (hnext : ∀ t, s.queue.top? = some t → ¬ t.due ≤ deadline) :
    ∀ u ∈ s.queue.toList, deadline < u.due := by
  intro u hu
  cases ht : s.queue.top? with
  | none =>
    rw [Heap.toList_of_no_top ht] at hu
    cases hu
  | some t =>
    exact (lt_of_not_ge (hnext t ht)).trans_le (due_of_rank (h.top_first ht u hu))

end Sane

end

/-! ## Steps -/

inductive Happening (τ : Type)
  | submitted (serial : Nat) (due : τ)
  | cancelled (serial : Nat)
  | looked
  | began (deadline : τ)
  /-- A cancelled task is let go. -/
  | dropped (serial : Nat)
  | started (serial : Nat) (due : τ)
  /-- An advance is over, and its deadline is reached. -/
  | arrived (deadline : τ)
  /-- An advance ends in a fault. -/
  | broken (deadline : τ)
deriving DecidableEq

/-- A scheduler with the deadlines of the advances that are under way, the innermost first. -/
structure Stage (τ ψ : Type) where
  scheduler : Scheduler τ ψ
  running : List τ

/-- Something that happened, and what it led to. -/
structure Entry (τ ψ : Type) where
  what : Happening τ
  after : Stage τ ψ

variable {τ ψ : Type} [AddCommGroup τ] [LinearOrder τ]

inductive Step : Stage τ ψ → Happening τ → Stage τ ψ → Prop
  | submitted {s : Scheduler τ ψ} {running : List τ} (delay : τ) (payload : ψ) :
    Step ⟨s, running⟩ (.submitted s.nextSerial (s.now + max delay 0))
      ⟨(s.later delay payload).2, running⟩
  | cancelled {s : Scheduler τ ψ} {running : List τ} (serial : Nat) :
    Step ⟨s, running⟩ (.cancelled serial) ⟨s.cancel serial, running⟩
  | looked {s : Scheduler τ ψ} {running : List τ} : Step ⟨s, running⟩ .looked ⟨s, running⟩
  | began {s : Scheduler τ ψ} {running : List τ} (deadline : τ) :
    Step ⟨s, running⟩ (.began deadline) ⟨s, deadline :: running⟩
  | dropped {s : Scheduler τ ψ} {deadline : τ} {outer : List τ} {t : Task τ ψ} :
    s.queue.top? = some t → t.due ≤ deadline → t.cancelled = true →
    Step ⟨s, deadline :: outer⟩ (.dropped t.serial)
      ⟨{ s with queue := s.rest }, deadline :: outer⟩
  | started {s : Scheduler τ ψ} {deadline : τ} {outer : List τ} {t : Task τ ψ} :
    s.queue.top? = some t → t.due ≤ deadline → t.cancelled = false →
    Step ⟨s, deadline :: outer⟩ (.started t.serial t.due)
      ⟨{ s with now := t.due, queue := s.rest }, deadline :: outer⟩
  | arrived {s : Scheduler τ ψ} {deadline : τ} {outer : List τ} :
    (∀ t, s.queue.top? = some t → ¬ t.due ≤ deadline) →
    Step ⟨s, deadline :: outer⟩ (.arrived deadline) ⟨{ s with now := deadline }, outer⟩
  | broken {s : Scheduler τ ψ} {deadline : τ} {outer : List τ} :
    Step ⟨s, deadline :: outer⟩ (.broken deadline) ⟨s, outer⟩

/-- When an advance arrives, nothing is left that is due by its deadline. -/
theorem Step.of_arrived {u v : Stage τ ψ} {deadline : τ} (h : Step u (.arrived deadline) v) :
    (∀ t, u.scheduler.queue.top? = some t → ¬ t.due ≤ deadline) ∧
      v.scheduler = { u.scheduler with now := deadline } ∧ u.running = deadline :: v.running := by
  cases h with
  | arrived hnext => exact ⟨hnext, rfl, rfl⟩

/-- Steps one after the other, with a log of what happened. -/
inductive Path (s : Stage τ ψ) : List (Entry τ ψ) → Stage τ ψ → Prop
  | nil : Path s [] s
  | snoc {log : List (Entry τ ψ)} {u v : Stage τ ψ} {what : Happening τ} :
    Path s log u → Step u what v → Path s (log ++ [⟨what, v⟩]) v

theorem Path.single {s v : Stage τ ψ} {what : Happening τ} (h : Step s what v) :
    Path s [⟨what, v⟩] v := .snoc .nil h

theorem Path.append {s u v : Stage τ ψ} {log more : List (Entry τ ψ)} (h : Path s log u)
    (h' : Path u more v) : Path s (log ++ more) v := by
  induction h' with
  | nil => rwa [List.append_nil]
  | snoc _ hs ih =>
    rw [← List.append_assoc]
    exact ih.snoc hs

/-- At each moment of a run there was a run so far. -/
theorem Path.upTo {s v : Stage τ ψ} {log pre : List (Entry τ ψ)} (h : Path s log v)
    (hpre : pre <+: log) : ∃ u, Path s pre u := by
  induction h with
  | nil =>
    cases List.prefix_nil.mp hpre
    exact ⟨s, .nil⟩
  | snoc h hs ih =>
    rcases List.prefix_concat_iff.mp hpre with rfl | hpre
    · exact ⟨_, h.snoc hs⟩
    · exact ih hpre

theorem Path.last {s v : Stage τ ψ} {pre : List (Entry τ ψ)} {e : Entry τ ψ}
    (h : Path s (pre ++ [e]) v) : v = e.after ∧ ∃ u, Path s pre u ∧ Step u e.what e.after := by
  generalize hlog : pre ++ [e] = log at h
  cases h with
  | nil => simp at hlog
  | snoc h hs =>
    obtain ⟨rfl, he⟩ := List.append_inj' hlog rfl
    cases he
    exact ⟨rfl, _, h, hs⟩

section

variable [IsOrderedAddMonoid τ]

namespace Sane

theorem step {u v : Stage τ ψ} {what : Happening τ} (h : Sane u.scheduler)
    (hs : Step u what v) : Sane v.scheduler := by
  cases hs with
  | submitted delay payload => exact h.later delay payload
  | cancelled serial => exact h.cancel serial
  | looked => exact h
  | began deadline => exact h
  | dropped ht hd hc =>
    have hpop := Heap.toList_pop Task.before ht
    exact h.pop ht fun u hu => h.due u (hpop.subset (List.mem_cons_of_mem _ hu))
  | started ht hd hc => exact h.pop ht fun u hu => due_of_rank (h.rest_after ht u hu).le
  | arrived hnext =>
    exact ⟨h.ordered, h.numbered, h.distinct, fun u hu => (h.none_due hnext u hu).le⟩
  | broken => exact h

theorem path {u v : Stage τ ψ} {log : List (Entry τ ψ)}
    (h : Sane u.scheduler) (hp : Path u log v) : Sane v.scheduler := by
  induction hp with
  | nil => exact h
  | snoc _ hs ih => exact ih.step hs

end Sane

end
end Scheduler
end Switchboard
