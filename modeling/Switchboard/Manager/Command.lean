-- What a host can ask of a manager.
import Switchboard.Manager.ChangeSet
import Switchboard.Manager.Clock
import Switchboard.Manager.Control
import Switchboard.Program
namespace Switchboard.Manager

/-- A manager as a host sees it. -/
structure Snapshot where
  state : Dict Scalar Value
  controls : List Control
  /-- The deferred assignments that have not started. -/
  pending : List Assignment
  clock : Clock

inductive Command
  | addControl (id : Value) (runtime : Dict Scalar Value)
  | assign (draft : Draft)
  /-- Register an assignment that is ready-made. -/
  | register (assignment : Prepared)
  | setState (patch : Value)
  | setValue (control : Control) (value : Value)
  | evaluateSlot (control : Control) (slot : Value)
  | evaluateText (expression : Value)
  | subscribe
  | unsubscribe (id : Value)
  | advance (ms : Value)
  | runAll
  /-- Run a timer of the event loop. -/
  | runTimer (number : Nat)
  | dispose
  | look
  | connect
  | signal (bridge : Nat) (key : Value)
  | readSignal (cell : Nat)
  | compute (bridge : Nat) (expression : Value)
  | readComputed (derived : Nat)
  | effect (bridge : Nat) (expression : Value)
  | disconnect (bridge : Nat)

namespace Command

/-- A registered assignment is answered with the names it listens to; cells, derived values and
bridges with their numbers. -/
def Answer : Command → Type
  | addControl .. => Control
  | assign _ | register _ => List Scalar
  | evaluateSlot .. | evaluateText _ | readSignal _ | readComputed _ => Value
  | unsubscribe _ => Bool
  | look => Snapshot
  | subscribe | advance _ | runAll | connect | signal .. | compute .. => Nat
  | setState _ | setValue .. | runTimer _ | dispose | effect .. | disconnect _ => Unit

/-- A listener is handed events, an effect the values of its expression. -/
def Input : Command → Type
  | subscribe => Event
  | effect .. => Value
  | _ => Empty

end Command

def interface : Interface := ⟨Command, Command.Answer, Command.Input⟩

end Switchboard.Manager
