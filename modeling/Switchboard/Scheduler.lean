-- A scheduler on a virtual clock. Tasks run in the order of their due times, those due together
-- in the order of submission. Nothing runs until the clock is advanced; it then stops at the due
-- time of each task that runs. Times are of any type with an order and a difference. A task whose
-- due time is not comparable with the clock never runs, and holds up those it stands above.
import Switchboard.Heap
import Switchboard.Run
namespace Switchboard

structure Task (τ ψ : Type) where
  due : τ
  /-- The submission number. -/
  serial : Nat
  payload : ψ
  cancelled : Bool

/-- Is a task due earlier than another, or at the same time and submitted earlier? -/
def Task.before {τ ψ : Type} [LE τ] [LT τ] [DecidableLE τ] [DecidableLT τ] (a b : Task τ ψ) :
    Bool :=
  a.due < b.due || (a.due ≤ b.due && b.due ≤ a.due && a.serial < b.serial)

structure Scheduler (τ ψ : Type) where
  now : τ
  queue : Heap (Task τ ψ)
  nextSerial : Nat

namespace Scheduler

variable {τ ψ ω : Type} [Add τ] [Sub τ] [Zero τ] [Max τ] [LE τ] [LT τ] [DecidableLE τ]
  [DecidableLT τ]

def empty : Scheduler τ ψ := ⟨0, .empty, 0⟩

/-- The number of tasks that wait and are not cancelled. -/
def pending (s : Scheduler τ ψ) : Nat := s.queue.toList.countP (!·.cancelled)

/-- Submit a task that is due after a delay. A negative delay is none. -/
def later (s : Scheduler τ ψ) (delay : τ) (payload : ψ) : Nat × Scheduler τ ψ :=
  let task := ⟨s.now + max delay 0, s.nextSerial, payload, false⟩
  (s.nextSerial,
    { s with queue := s.queue.push Task.before task, nextSerial := s.nextSerial + 1 })

/-- Cancel a task. It keeps its place in the queue, and nothing happens if it has run. -/
def cancel (s : Scheduler τ ψ) (serial : Nat) : Scheduler τ ψ :=
  let mark (t : Task τ ψ) := if t.serial = serial then { t with cancelled := true } else t
  { s with queue := s.queue.map mark }

/-! ## Moving the clock -/

section

variable (part : Part ω (Scheduler τ ψ)) (fire : ψ → Run ω Unit)

/-- Run what is due up to a deadline, also what is submitted on the way, and set the clock to the
deadline. The number of tasks run. The loop is bounded. -/
def advanceTo (deadline : τ) : Nat → Run ω Nat
  | 0 => throw .exhausted
  | n + 1 => do
    let s ← part.read
    match s.queue.top? with
    | some t =>
      if t.due ≤ deadline then
        let rest := s.queue.pop Task.before
        if t.cancelled then
          part.write { s with queue := rest }
          advanceTo deadline n
        else
          part.write { s with now := t.due, queue := rest }
          fire t.payload
          return (← advanceTo deadline n) + 1
      else
        part.write { s with now := deadline }
        return 0
    | none =>
      part.write { s with now := deadline }
      return 0

/-- Move the clock forward. -/
def advance (bound : Nat) (ms : τ) : Run ω Nat := do
  advanceTo part fire ((← part.read).now + ms) bound

/-- Move the clock to one due time after the other until no task waits. -/
def runAll (bound : Nat) : Nat → Run ω Nat
  | 0 => throw .exhausted
  | n + 1 => do
    let s ← part.read
    match s.queue.top? with
    | none => return 0
    | some t =>
      let ran ← advance part fire bound (max (t.due - s.now) 0)
      return ran + (← runAll bound n)

end
end Scheduler
end Switchboard
