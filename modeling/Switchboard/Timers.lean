-- Timers of an event loop that is not this library's: each is given to the loop with a delay in
-- seconds, and can be cancelled. When the loop runs one is the loop's affair.
import Switchboard.Binary64
namespace Switchboard

structure Timer (ψ : Type) where
  seconds : Binary64
  cancelled : Bool
  payload : ψ

/-- All timers given to the loop, in order. -/
abbrev Timers (ψ : Type) := List (Timer ψ)

namespace Timers

variable {ψ : Type}

/-- A delay in milliseconds as seconds. -/
def seconds (milliseconds : Binary64) : Binary64 := milliseconds.div (.ofRatio false 1000 1)

/-- Give a timer to the loop. Its number is its place. -/
def later (timers : Timers ψ) (milliseconds : Binary64) (payload : ψ) : Nat × Timers ψ :=
  (timers.length, timers ++ [⟨seconds milliseconds, false, payload⟩])

def cancel (timers : Timers ψ) (number : Nat) : Timers ψ :=
  timers.modify number fun t => { t with cancelled := true }

/-- What a loop runs at once: the timers without delay that are not cancelled. -/
def immediate (timers : Timers ψ) : List ψ :=
  (timers.filter fun t => t.seconds.isZero && !t.cancelled).map (·.payload)

end Timers
end Switchboard
