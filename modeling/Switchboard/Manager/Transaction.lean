-- Transactions. Every write from outside is one: the write, with the cascade it sets off. What has
-- changed in the end is told to the listeners as a single event, when the cascade is over. A write
-- that comes from within joins the transaction that is running.
import Switchboard.Manager.Cascade
import Switchboard.Manager.Following
namespace Switchboard.Manager

open World

section

variable {σ : Type} (functions : Functions σ) (below : Level σ)

/-- Tell one listener of an event. -/
def deliver (listener : Listener σ) (event : Event) : Run (World σ) Unit :=
  match listener with
  | .host program => do
    let _ ← below.act (program event)
  | .bridge number => event.new.forM fun e => followKey functions below number e.1 e.2

/-- Tell all listeners of an event, as they are subscribed when the dispatch begins. -/
def dispatch (event : Event) : Run (World σ) Unit := do
  modify fun w => { w with events := w.events ++ [event] }
  (← get).listeners.values.forM fun listener => deliver functions below listener event

/-- Run the writes of a transaction to the end of their cascades. The event of what has changed,
if anything has. -/
def gather (delayed : Bool) (writes : Run (World σ) Unit) : Run (World σ) (Option Event) := do
  modify fun w => { w with changes := {}, inTransaction := true }
  writes.ensuring fun w => { w with inTransaction := false }
  let changes := (← get).changes
  return if changes.isEmpty then none else some (changes.toEvent delayed)

/-- Run writes as one transaction, or as a part of the one that is running. -/
def transaction (delayed : Bool) (writes : Run (World σ) Unit) : Run (World σ) Unit := do
  if (← get).inTransaction then writes
  else
    match ← gather delayed writes with
    | none => return ()
    | some event => dispatch functions below event

/-- Run a deferral that is due. -/
def fire (deferral : Deferral) : Run (World σ) Unit := do
  modify (·.start deferral)
  transaction functions below true (applyAssignment functions below deferral.assignment)

end
end Switchboard.Manager
