-- The queue of a scheduler, and the single turns that its loops take. A turn looks at the task that
-- comes next: if it is due it is let go, to run unless it was cancelled, and else time goes by.
import Switchboard.Proofs.Conduct
import Switchboard.Proofs.Heaps
namespace Switchboard.Scheduler

open Conduct

variable {τ ψ : Type} [LE τ] [LT τ] [DecidableLE τ] [DecidableLT τ]

/-- The tasks that wait and are not cancelled. -/
def waiting (s : Scheduler τ ψ) : List (Task τ ψ) := s.queue.toList.filter (!·.cancelled)

/-- The queue without the task that comes next. -/
def rest (s : Scheduler τ ψ) : Heap (Task τ ψ) := s.queue.pop Task.before

omit [LE τ] [LT τ] [DecidableLE τ] [DecidableLT τ] in
theorem length_waiting (s : Scheduler τ ψ) : s.waiting.length = s.pending :=
  List.countP_eq_length_filter.symm

theorem waiting_later [Add τ] [Zero τ] [Max τ] (s : Scheduler τ ψ) (delay : τ) (payload : ψ) :
    (s.later delay payload).2.waiting.Perm
      (⟨s.now + max delay 0, s.nextSerial, payload, false⟩ :: s.waiting) :=
  (Heap.toList_push Task.before _ s.queue).filter _

/-- A cancelled task that is let go was not waiting. -/
theorem waiting_rest_of_cancelled {s s' : Scheduler τ ψ} {t : Task τ ψ} (ht : s.queue.top? = some t)
    (hc : t.cancelled = true) (hs : s'.queue = s.rest) : s'.waiting.Perm s.waiting := by
  have hpop := (Heap.toList_pop Task.before ht).filter (!·.cancelled)
  rw [List.filter_cons_of_neg (by simp [hc])] at hpop
  unfold waiting
  rw [hs]
  exact hpop

/-- Any other was, and the rest still are. -/
theorem waiting_rest_of_live {s s' : Scheduler τ ψ} {t : Task τ ψ} (ht : s.queue.top? = some t)
    (hc : t.cancelled = false) (hs : s'.queue = s.rest) : (t :: s'.waiting).Perm s.waiting := by
  have hpop := (Heap.toList_pop Task.before ht).filter (!·.cancelled)
  rw [List.filter_cons_of_pos (by simp [hc])] at hpop
  unfold waiting
  rw [hs]
  exact hpop

omit [LE τ] [LT τ] [DecidableLE τ] [DecidableLT τ] in
/-- Cancelling a task takes it from those that wait. -/
theorem waiting_cancel (s : Scheduler τ ψ) (serial : Nat) :
    (s.cancel serial).waiting = s.waiting.filter fun t => t.serial ≠ serial := by
  unfold waiting cancel
  dsimp only
  rw [Heap.toList_map]
  generalize s.queue.toList = tasks
  induction tasks with
  | nil => rfl
  | cons t rest ih =>
    rw [List.map_cons]
    by_cases hserial : t.serial = serial
    · rw [if_pos hserial, List.filter_cons_of_neg (by simp), ih]
      by_cases hc : t.cancelled = true
      · rw [List.filter_cons_of_neg (by simp [hc])]
      · rw [List.filter_cons_of_pos (by simp [hc]), List.filter_cons_of_neg (by simp [hserial])]
    · rw [if_neg hserial]
      by_cases hc : t.cancelled = true
      · rw [List.filter_cons_of_neg (by simp [hc]), List.filter_cons_of_neg (by simp [hc]), ih]
      · rw [List.filter_cons_of_pos (by simp [hc]), List.filter_cons_of_pos (by simp [hc]),
          List.filter_cons_of_pos (by simp [hserial]), ih]

omit [LE τ] [LT τ] [DecidableLE τ] [DecidableLT τ] in
theorem mem_waiting_cancel {s : Scheduler τ ψ} {serial : Nat} {t : Task τ ψ}
    (h : t ∈ (s.cancel serial).waiting) : t ∈ s.waiting ∧ t.serial ≠ serial := by
  rw [waiting_cancel] at h
  obtain ⟨hwaits, hserial⟩ := List.mem_filter.mp h
  exact ⟨hwaits, of_decide_eq_true hserial⟩

/-! ## Turns -/

omit [LT τ] [DecidableLT τ] in
/-- The next task is due and was cancelled, or is due and live, or none is due. -/
theorem turn_cases (s : Scheduler τ ψ) (deadline : τ) :
    (∃ t, s.queue.top? = some t ∧ t.due ≤ deadline ∧ t.cancelled = true) ∨
    (∃ t, s.queue.top? = some t ∧ t.due ≤ deadline ∧ t.cancelled = false) ∨
    ∀ t, s.queue.top? = some t → ¬ t.due ≤ deadline := by
  by_cases hnext : ∃ t, s.queue.top? = some t ∧ t.due ≤ deadline
  · obtain ⟨t, ht, hd⟩ := hnext
    cases hc : t.cancelled with
    | true => exact .inl ⟨t, ht, hd, hc⟩
    | false => exact .inr (.inl ⟨t, ht, hd, hc⟩)
  · exact .inr (.inr fun t ht hd => hnext ⟨t, ht, hd⟩)

section

variable {ω : Type} {part : Part ω (Scheduler τ ψ)} {fire : ψ → Run ω Unit} {deadline : τ} {w : ω}

/-- When nothing waits, or nothing that is due, the loop ends and the deadline is reached. -/
theorem advanceTo_arrived (n : Nat)
    (h : ∀ t, (part.view w).queue.top? = some t → ¬ t.due ≤ deadline) :
    advanceTo part fire deadline (n + 1) w =
      .ok 0 (part.replace { part.view w with now := deadline } w) := by
  have hread : (part.read : Run ω (Scheduler τ ψ)) w = .ok (part.view w) w := rfl
  unfold advanceTo
  rw [bind_ok hread]
  cases ht : (part.view w).queue.top? with
  | none => rfl
  | some t =>
    dsimp only
    rw [if_neg (h t ht)]
    rfl

/-- A cancelled task is let go. -/
theorem advanceTo_dropped (n : Nat) {t : Task τ ψ} (ht : (part.view w).queue.top? = some t)
    (hd : t.due ≤ deadline) (hc : t.cancelled = true) :
    advanceTo part fire deadline (n + 1) w = advanceTo part fire deadline n
      (part.replace { part.view w with queue := (part.view w).rest } w) := by
  have hread : (part.read : Run ω (Scheduler τ ψ)) w = .ok (part.view w) w := rfl
  conv => lhs; unfold advanceTo
  rw [bind_ok hread, ht]
  dsimp only
  rw [if_pos hd, if_pos hc]
  rfl

/-- Any other runs, at its due time. -/
theorem advanceTo_started (n : Nat) {t : Task τ ψ} (ht : (part.view w).queue.top? = some t)
    (hd : t.due ≤ deadline) (hc : t.cancelled = false) :
    advanceTo part fire deadline (n + 1) w = (do
      fire t.payload
      return (← advanceTo part fire deadline n) + 1)
      (part.replace { part.view w with now := t.due, queue := (part.view w).rest } w) := by
  have hread : (part.read : Run ω (Scheduler τ ψ)) w = .ok (part.view w) w := rfl
  conv => lhs; unfold advanceTo
  rw [bind_ok hread, ht]
  dsimp only
  rw [if_pos hd, if_neg (by rw [hc]; decide)]
  rfl

variable [Add τ] [Sub τ] [Zero τ] [Max τ]

theorem runAll_idle (bound n : Nat) (h : (part.view w).queue.top? = none) :
    runAll part fire bound (n + 1) w = .ok 0 w := by
  have hread : (part.read : Run ω (Scheduler τ ψ)) w = .ok (part.view w) w := rfl
  unfold runAll
  rw [bind_ok hread, h]
  rfl

theorem runAll_next (bound n : Nat) {t : Task τ ψ} (h : (part.view w).queue.top? = some t) :
    runAll part fire bound (n + 1) w = (do
      let ran ← advance part fire bound (max (t.due - (part.view w).now) 0)
      return ran + (← runAll part fire bound n)) w := by
  have hread : (part.read : Run ω (Scheduler τ ψ)) w = .ok (part.view w) w := rfl
  conv => lhs; unfold runAll
  rw [bind_ok hread, h]

end

end Switchboard.Scheduler
