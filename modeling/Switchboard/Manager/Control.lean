-- Controls: units of a host's surface with named slots. The storage slot names the state key that
-- a control reads and writes, every other slot holds an expression.
import Switchboard.Expr.Parser
import Switchboard.Expr.Variables
namespace Switchboard

structure Control where
  /-- The registration number, which tells controls with the same id apart. -/
  serial : Nat
  id : Value
  runtime : Dict Scalar Value
  /-- The expressions of the slots that hold one. -/
  slots : Dict Scalar Expr

namespace Control

def storageSlot : Scalar := .text "storage"

/-- The expressions of the slots, those left empty passed over. -/
def parseSlots (runtime : Dict Scalar Value) : Except Fault (Dict Scalar Expr) :=
  (runtime.filter fun e => !(e.1 == storageSlot) && e.2.isGiven).mapM fun e => do
    return (e.1, ← Expr.ofValue e.2)

/-- A control of the given slots, all of whose expressions must be readable. -/
def make (serial : Nat) (id : Value) (runtime : Dict Scalar Value) : Except Fault Control := do
  return ⟨serial, id, runtime, ← parseSlots runtime⟩

/-- What the storage slot holds, or null. -/
def storage (control : Control) : Value :=
  match control.runtime.get? storageSlot with
  | some v => if v.isGiven then v else .null
  | none => .null

def isWritable (control : Control) : Bool := control.storage.isGiven

/-- The state keys read by one slot. -/
def slotVariables (control : Control) (slot : Scalar) (value : Value) :
    Except Fault (List Scalar) := do
  if slot == storageSlot then
    if value.isGiven then return [← value.asKey] else return []
  else
    match control.slots.get? slot with
    | some e => e.freeVariables
    | none => return []

/-- The state keys a control reads, in the order of its slots. -/
def reads (control : Control) : Except Fault (List Scalar) := do
  let names ← control.runtime.mapM fun e => control.slotVariables e.1 e.2
  return distinct names.flatten

/-- A control as it stands in a message. -/
def written (control : Control) : Except Fault String := do
  let runtime := Value.map 0 control.runtime
  return "Control(id=" ++ (← control.id.written) ++ ", runtime=" ++ (← runtime.written) ++ ")"

end Control
end Switchboard
