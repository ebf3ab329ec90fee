-- What the host of a facility does: its listeners, tasks and functions. A host program keeps a
-- state of its own and gives commands to the facility. With a command it can hand over a program
-- to be called back, and it sees how the command ended, so it may go on after a fault.
import Switchboard.Run
import Switchboard.Value
namespace Switchboard

/-- The commands a facility takes, what each answers, and what it hands to the program that is
given with it. -/
structure Interface where
  Command : Type
  Answer : Command → Type
  Input : Command → Type

/-- A host program over an interface, with a host state of type `σ`. -/
inductive Program (I : Interface) (σ : Type) : Type
  | done (result : Value)
  | fail (fault : Fault)
  /-- Change the host state and go on with it. -/
  | note (change : σ → σ) (next : σ → Program I σ)
  | perform (command : I.Command) (callback : I.Input command → Program I σ)
      (next : Except Fault (I.Answer command) → Program I σ)

namespace Program

variable {I : Interface} {σ ω : Type}

instance : Inhabited (Program I σ) := ⟨done .null⟩

/-- Give a command, and pass on the fault it ends in. -/
def ask (command : I.Command) (callback : I.Input command → Program I σ)
    (next : I.Answer command → Program I σ) : Program I σ :=
  perform command callback fun
    | .ok a => next a
    | .error f => fail f

/-- Do one program after the other, the result of the first dropped. -/
def andThen : Program I σ → Program I σ → Program I σ
  | done _, next => next
  | fail f, _ => fail f
  | note change rest, next => note change fun s => andThen (rest s) next
  | perform command callback rest, next =>
    perform command callback fun a => andThen (rest a) next

/-- Run a program, given what its commands do. -/
def run (host : Part ω σ)
    (exec : (c : I.Command) → (I.Input c → Program I σ) → Run ω (I.Answer c)) :
    Program I σ → Run ω Value
  | done result => pure result
  | fail f => throw f
  | note change next => do
    host.update change
    run host exec (next (← host.read))
  | perform command callback next => do
    let r ← (exec command callback).outcome
    run host exec (next r)

end Program
end Switchboard
