-- Computations on a state. A computation can end in a fault, and the state it leaves then is the
-- one it had reached: nothing is rolled back.
import Switchboard.Fault
namespace Switchboard

/-- A computation on a state that can end in a fault. -/
abbrev Run (ω α : Type) := EStateM Fault ω α

namespace Run

variable {ω α : Type}

/-- A computation that leaves the state as it is. -/
def ofExcept : Except Fault α → Run ω α
  | .ok a => pure a
  | .error f => throw f

/-- Change the state at the end of a computation, whether it ended in a fault or not. -/
def ensuring (act : Run ω α) (change : ω → ω) : Run ω α := fun w =>
  match act w with
  | .ok a w => .ok a (change w)
  | .error f w => .error f (change w)

/-- The outcome of a computation as a value. Only running out of the bound is passed on. -/
def outcome (act : Run ω α) : Run ω (Except Fault α) := fun w =>
  match act w with
  | .ok a w => .ok (.ok a) w
  | .error .exhausted w => .error .exhausted w
  | .error f w => .ok (.error f) w

end Run

/-- A part of a state that can be read and replaced. -/
structure Part (ω α : Type) where
  view : ω → α
  replace : α → ω → ω

namespace Part

variable {ω α : Type}

def read (part : Part ω α) : Run ω α := do return part.view (← get)

def write (part : Part ω α) (value : α) : Run ω Unit := modify (part.replace value)

def update (part : Part ω α) (change : α → α) : Run ω Unit :=
  modify fun w => part.replace (change (part.view w)) w

end Part
end Switchboard
