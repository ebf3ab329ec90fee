-- A store in the hands of a host whose listeners are programs. They may do to the store whatever
-- the host itself may do, from within the delivery of a change.
import Switchboard.Store
import Switchboard.Program
namespace Switchboard.Store

inductive Command
  | set (patch : Value)
  | get (key default : Value)
  | subscribe (key : Value)
  | unsubscribe (id key : Value)
  | dispose

def Command.Answer : Command → Type
  | set _ => Unit
  | get .. => Value
  | subscribe _ => Subscription
  | unsubscribe .. => Bool
  | dispose => Unit

/-- A listener is handed the changes it hears of. -/
def Command.Input : Command → Type
  | subscribe _ => Change
  | _ => Empty

def interface : Interface := ⟨Command, Command.Answer, Command.Input⟩

/-- A listener's program for each change. -/
abbrev Listener (σ : Type) := Change → Program interface σ

structure Session (σ : Type) where
  store : Store (Listener σ)
  host : σ

namespace Session

variable {σ : Type}

def storePart : Part (Session σ) (Store (Listener σ)) :=
  ⟨store, fun s w => { w with store := s }⟩

def hostPart : Part (Session σ) σ := ⟨host, fun s w => { w with host := s }⟩

/-- What a command does, given how the programs it calls back are run. -/
def exec (call : Program interface σ → Run (Session σ) Value) :
    (c : Command) → (c.Input → Program interface σ) → Run (Session σ) c.Answer
  | .set patch, _ => do
    let patch ← .ofExcept (patchOf patch)
    apply storePart (fun listener change => do let _ ← call (listener change)) patch
  | .get key default, _ => do
    let key ← .ofExcept key.asKey
    return ((← storePart.read).state.get? key).getD default
  | .subscribe key, listener => do
    let (answer, store) := (← storePart.read).subscribe listener key
    storePart.write store
    .ofExcept answer
  | .unsubscribe id key, _ => do
    let (there, store) ← .ofExcept ((← storePart.read).unsubscribe id key)
    storePart.write store
    return there
  | .dispose, _ => storePart.update dispose

/-- Run a program, with call-backs nested at most so deep. -/
def run : Nat → Program interface σ → Run (Session σ) Value
  | 0, _ => throw .exhausted
  | n + 1, p => p.run hostPart (exec (run n))

end Session
end Switchboard.Store
