-- A scheduler in the hands of a host whose tasks are programs. A running task may do to the
-- scheduler whatever the host itself may do.
import Switchboard.Scheduler
import Switchboard.Program
namespace Switchboard.Scheduler

inductive Command (τ : Type)
  | later (delay : τ)
  | cancel (serial : Nat)
  | advance (ms : τ)
  | runAll
  /-- Ask for the time and the number of tasks that wait. -/
  | look

namespace Command

variable {τ : Type}

def Answer : Command τ → Type
  | later _ => Nat
  | cancel _ => Unit
  | advance _ => Nat
  | runAll => Nat
  | look => τ × Nat

/-- A task is handed nothing. -/
def Input : Command τ → Type
  | later _ => Unit
  | _ => Empty

end Command

def interface (τ : Type) : Interface := ⟨Command τ, Command.Answer, Command.Input⟩

structure Session (τ σ : Type) where
  scheduler : Scheduler τ (Program (interface τ) σ)
  host : σ

namespace Session

variable {τ σ : Type}

def schedulerPart : Part (Session τ σ) (Scheduler τ (Program (interface τ) σ)) :=
  ⟨scheduler, fun s w => { w with scheduler := s }⟩

def hostPart : Part (Session τ σ) σ := ⟨host, fun s w => { w with host := s }⟩

variable [Add τ] [Sub τ] [Zero τ] [Max τ] [LE τ] [LT τ] [DecidableLE τ] [DecidableLT τ]

/-- What a command does, given how tasks are run and a bound on the loops. -/
def exec (call : Program (interface τ) σ → Run (Session τ σ) Value) (bound : Nat) :
    (c : Command τ) → (c.Input → Program (interface τ) σ) → Run (Session τ σ) c.Answer
  | .later delay, task => do
    let (serial, s) := (← schedulerPart.read).later delay (task ())
    schedulerPart.write s
    return serial
  | .cancel serial, _ => schedulerPart.update (·.cancel serial)
  | .advance ms, _ => advance schedulerPart (fun task => do let _ ← call task) bound ms
  | .runAll, _ => runAll schedulerPart (fun task => do let _ ← call task) bound bound
  | .look, _ => do
    let s ← schedulerPart.read
    return (s.now, s.pending)

/-- Run a program, with tasks nested at most so deep and loops at most so long. -/
def run : Nat → Program (interface τ) σ → Run (Session τ σ) Value
  | 0, _ => throw .exhausted
  | n + 1, p => p.run hostPart (exec (run n) n)

end Session
end Switchboard.Scheduler
