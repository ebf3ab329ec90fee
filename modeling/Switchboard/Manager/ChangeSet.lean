-- What one transaction has changed so far, and the event that tells of it.
import Switchboard.Store
namespace Switchboard

/-- The net effect of a transaction. -/
structure Event where
  /-- The ids of the controls to refresh. -/
  targets : List Value
  new : Dict Scalar Value
  old : Dict Scalar Value
  /-- Was it a deferred assignment? -/
  delayed : Bool

structure ChangeSet where
  targets : List Value := []
  new : Dict Scalar Value := []
  old : Dict Scalar Value := []

namespace ChangeSet

/-- Note one change. A key that changes twice keeps the value it had before the transaction. -/
def record (changes : ChangeSet) (change : Change) : ChangeSet :=
  { changes with
    new := changes.new.put change.key change.new
    old := changes.old.putNew change.key change.old }

/-- Add a control id at its first place. An id that can change cannot be told from others. -/
def addTarget (changes : ChangeSet) (id : Value) : Except Fault ChangeSet :=
  if !id.isHashable then .error .wrongType
  else if changes.targets.any (·.sameKey id) then .ok changes
  else .ok { changes with targets := changes.targets ++ [id] }

/-- Add control ids, with the fault that stops it. -/
def addTargets (changes : ChangeSet) : List Value → ChangeSet × Except Fault Unit
  | [] => (changes, .ok ())
  | id :: rest =>
    match changes.addTarget id with
    | .ok changes => addTargets changes rest
    | .error f => (changes, .error f)

def isEmpty (changes : ChangeSet) : Bool := changes.new.isEmpty

def toEvent (changes : ChangeSet) (delayed : Bool) : Event :=
  ⟨changes.targets, changes.new, changes.old, delayed⟩

end ChangeSet
end Switchboard
