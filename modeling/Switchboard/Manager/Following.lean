-- How signals follow a manager. The cells of a bridge take the new values of each event, and
-- expressions over them are evaluated by the manager itself.
import Switchboard.Manager.Level
namespace Switchboard.Manager

open World

section

variable {σ : Type} (functions : Functions σ) (below : Level σ)

/-! ## Derived values -/

/-- Compute a derived value, which must not be under way already. -/
def compute (number : Nat) (d : Derived) : Run (World σ) Value := do
  let outer := (← get).computing
  if outer.contains number then throw .impure
  modify fun w => { w with computing := number :: outer }
  (evaluateNow functions below d.expression).ensuring fun w => { w with computing := outer }

/-- Read a derived value, computed again if a cell has changed or there is none yet. -/
def readComputed (number : Nat) : Run (World σ) Value := do
  let signals ← signalsPart.read
  match signals.derived[number]? with
  | none => throw .badValue
  | some d =>
    match signals.fresh? d with
    | some v => return v
    | none =>
      let v ← compute functions below number d
      signalsPart.update (·.remember number (signals.memoOf d v))
      return v

/-! ## Effects -/

/-- Hand an effect its value. A fault on the way is nobody's concern. -/
def perform (number : Nat) : Run (World σ) Unit := do
  match (← signalsPart.read).effects[number]? with
  | none => return ()
  | some effect =>
    signalsPart.update (·.see number 0)
    let act : Run (World σ) Value := do
      let v ← readComputed functions below effect.derived
      signalsPart.update fun s => s.see number (s.versionOf effect.derived)
      below.act (effect.callback v)
    let _ ← act.outcome

/-- Has an effect not been handed the present value? A computation that fails counts as that. -/
def isDue (effect : Effect (Value → Act σ)) : Run (World σ) Bool := do
  if effect.seen ≠ (← signalsPart.read).versionOf effect.derived then return true
  match ← (readComputed functions below effect.derived).outcome with
  | .error _ => return true
  | .ok _ => return effect.seen ≠ (← signalsPart.read).versionOf effect.derived

/-- Run an effect that depends on a changed cell, if it is due. -/
def refresh (number : Nat) : Run (World σ) Unit := do
  match (← signalsPart.read).effects[number]? with
  | none => return ()
  | some effect => if ← isDue functions below effect then perform functions below number

/-- Set the cell of a key, and run the effects that depend on it if it is another value. -/
def followKey (bridge : Nat) (key : Scalar) (value : Value) : Run (World σ) Unit := do
  let signals ← signalsPart.read
  match (signals.bridge bridge).cells.get? key with
  | none => return ()
  | some number =>
    match signals.setCell? number value with
    | none => return ()
    | some signals =>
      if !(← get).computing.isEmpty then throw .impure
      signalsPart.write signals
      (signals.followers number).forM (refresh functions below)

/-! ## Making -/

/-- The cells of a derived value, one for each variable. -/
def cellsFor (bridge : Nat) (names : List Scalar) : Run (World σ) (List Nat) :=
  names.mapM fun key => do
    let w ← get
    let (number, signals) := w.signals.cellOf bridge key (w.store.read key)
    signalsPart.write signals
    return number

/-- A new derived value of an expression. -/
def derive (bridge : Nat) (expression : Value) : Run (World σ) Nat := do
  let e ← .ofExcept (Expr.ofValue expression)
  let cells ← cellsFor bridge (← .ofExcept e.freeVariables)
  let (number, signals) := (← signalsPart.read).addDerived e cells
  signalsPart.write signals
  return number

/-- A new effect, which runs at once. -/
def addEffect (bridge : Nat) (expression : Value) (callback : Value → Act σ) :
    Run (World σ) Unit := do
  let derived ← derive bridge expression
  let (number, signals) := (← signalsPart.read).addEffect bridge derived callback
  signalsPart.write signals
  perform functions below number

end
end Switchboard.Manager
