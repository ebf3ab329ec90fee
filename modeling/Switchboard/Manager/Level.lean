-- What an activity of a manager rests on. Activities nest: a write sets off assignments, which call
-- functions of the host, which may give commands and write in turn. Each definition takes the level
-- below it, which runs whatever is nested in it, and the levels are tied together at the end by
-- counting down a bound.
import Switchboard.Evaluation
import Switchboard.Manager.World
namespace Switchboard.Manager

open World

/-- The functions of a host: the program of a call, by name, with an identity for a container it
may make, and the arguments. -/
abbrev Functions (σ : Type) := String → Nat → List Value → Act σ

/-- What is nested in an activity: host programs, and writes with the cascades they set off. -/
structure Level (σ : Type) where
  act : Act σ → Run (World σ) Value
  write : Scalar → Value → Run (World σ) Unit

section

variable {σ : Type} (functions : Functions σ) (below : Level σ)

/-! ## Evaluation -/

/-- Call a function from an expression. -/
def callFunction : Function → List Value → Run (World σ) Value
  | .randomInt, args => do
    let (n, generator) ← .ofExcept (Generator.roll args (← get).generator)
    modify fun w => { w with generator := generator }
    return .int n
  | .now, [] => return .int (← get).timeOfDay
  | .now, _ => throw .wrongType
  | .host name, args => do below.act (functions name (← fresh) args)

def evaluationHost : Host (World σ) := ⟨callFunction functions below, fresh⟩

/-- Evaluate an expression against the context and the state. -/
def evaluateNow (e : Expr) : Run (World σ) Value := do
  let context ← contextNow
  e.evaluate (evaluationHost functions below) context

end
end Switchboard.Manager
