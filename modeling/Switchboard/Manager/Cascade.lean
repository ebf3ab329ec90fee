-- Cascades. A change of a variable is followed up before the write that made it is over: the
-- assignments that listen to it are applied in order, each of which may write again, then the
-- controls it concerns are noted, and then the assignments that wait are handed to the clock.
import Switchboard.Manager.Level
namespace Switchboard.Manager

open World

section

variable {σ : Type} (functions : Functions σ) (below : Level σ)

/-- Does the condition of an assignment hold? -/
def conditionHolds (a : Assignment) : Run (World σ) Bool :=
  match a.condition with
  | none => pure true
  | some e => do
    let v ← evaluateNow functions below e
    .ofExcept v.isTruthy

/-- Write the value of an assignment to its storage. -/
def applyAssignment (a : Assignment) : Run (World σ) Unit := do
  if ← conditionHolds functions below a then
    let v ← evaluateNow functions below a.expression
    below.write a.storage v

/-- Merge control ids into the change set. -/
def addTargets (ids : List Value) : Run (World σ) Unit := do
  let (changes, r) := (← get).changes.addTargets ids
  modify fun w => { w with changes := changes }
  .ofExcept r

/-- Fail if changes nest deeper than the limit. -/
def checkDepth (key : Scalar) : Run (World σ) Unit := do
  let w ← get
  match w.config.maxDepth with
  | none => return ()
  | some limit => if limit < w.depth then throw (.cascade key limit)

/-- Follow up a change: note it, apply the assignments that listen to it, name the controls it
concerns, and defer the assignments that wait. -/
def followUp (change : Change) : Run (World σ) Unit := do
  checkDepth change.key
  modify fun w => { w with changes := w.changes.record change }
  let assignments := (← get).listeningTo change.key
  (assignments.filter (!·.isDeferred)).forM (applyAssignment functions below)
  addTargets ((← get).affected change.key assignments)
  (assignments.filter (·.isDeferred)).forM defer

/-- Follow up a change one level deeper. -/
def onChange (change : Change) : Run (World σ) Unit := do
  modify fun w => { w with depth := w.depth + 1 }
  (followUp functions below change).ensuring fun w => { w with depth := w.depth - 1 }

/-- Write one key, with the cascade that follows. -/
def writeKey (key : Scalar) (value : Value) : Run (World σ) Unit :=
  Store.write storePart (fun _ change => onChange functions below change) key value

/-- Write the keys of a patch one after the other. -/
def writePatch (patch : List (Scalar × Value)) : Run (World σ) Unit :=
  patch.forM fun e => writeKey functions below e.1 e.2

end
end Switchboard.Manager
