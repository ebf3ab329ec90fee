-- A task that is cancelled before it starts leaves no trace. The run of a host is compared with the
-- run of the host from which the task is left out: the same other tasks start in the same order and
-- at the same times, the host sees the same, and the clock shows the same in the end. A cancelled
-- task stays in the queue until its due time, and the loops of the clock pass over it. Only where
-- it is all that is left, to run what waits takes the clock to its due time for nothing.
import Mathlib.Algebra.Order.Group.Int
import Mathlib.Data.Int.ConditionallyCompleteOrder
import Switchboard.Proofs.Lockstep
namespace Switchboard.Scheduler

open Conduct Chronicle

/-! ## Programs -/

section

variable {τ σ : Type} [AddCommGroup τ] [LinearOrder τ] [IsOrderedAddMonoid τ] {k : Nat}
  {w : Chronicle τ σ} {w' : Chronicle τ (Omitting σ)}

section

variable {n : Nat}

end

end

/-! ## Examples -/

/-- Commands one after the other, and what the clock shows after each. -/
def script : List (Command ℤ) → Program (interface ℤ) (List (ℤ × ℕ))
  | [] => .done .null
  | c :: rest => .ask c (fun _ => .done .null) fun _ =>
    .ask .look nofun fun (seen : ℤ × ℕ) => .note (· ++ [seen]) fun _ => script rest

/-- What a host sees of the clock. -/
def seenBy (commands : List (Command ℤ)) : List (ℤ × ℕ) :=
  (Run.ending (Session.run 9 (script commands) ⟨.empty, []⟩)).host

/-- A cancelled task that is left alone takes the clock to its due time for nothing. -/
theorem a_cancelled_task_that_is_stranded_takes_the_clock_along :
    startsOf (logOf 9 (script [.later 100, .cancel 0, .runAll]) []) = [] ∧
    seenBy [.later 100, .cancel 0, .runAll] = [(0, 1), (0, 0), (100, 0)] ∧
    seenBy [.runAll] = [(0, 0)] := by
  refine ⟨?_, ?_, ?_⟩ <;> decide +kernel

end Switchboard.Scheduler
