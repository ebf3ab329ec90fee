-- Where deferred assignments wait: on a virtual clock, or with an event loop.
import Switchboard.Manager.Assignment
import Switchboard.Scheduler
import Switchboard.Timers
namespace Switchboard

/-- An assignment that was handed to the clock. -/
structure Deferral where
  /-- The number of the deferral, which tells those of one assignment apart. -/
  serial : Nat
  assignment : Assignment

inductive Clock
  | virtual (scheduler : Scheduler Binary64 Deferral)
  | loop (timers : Timers Deferral)

namespace Clock

/-- The delay that a timeout means. An event loop decides itself what a negative one is. -/
def delayOf (clock : Clock) (timeout : Value) : Except Fault Binary64 :=
  match clock with
  | virtual _ => timeout.toDelay
  | loop _ => timeout.toSpan

/-- Hand over a deferral. The answer is what cancels it. -/
def later (clock : Clock) (delay : Binary64) (deferral : Deferral) : Nat × Clock :=
  match clock with
  | virtual s =>
    let (handle, s) := s.later delay deferral
    (handle, virtual s)
  | loop t =>
    let (handle, t) := t.later delay deferral
    (handle, loop t)

def cancel (clock : Clock) (handle : Nat) : Clock :=
  match clock with
  | virtual s => virtual (s.cancel handle)
  | loop t => loop (t.cancel handle)

/-- The virtual clock. One of an event loop has nothing to wait for. -/
def scheduler : Clock → Scheduler Binary64 Deferral
  | virtual s => s
  | loop _ => .empty

/-- Replace the virtual clock, if it is one. -/
def setScheduler (s : Scheduler Binary64 Deferral) : Clock → Clock
  | virtual _ => virtual s
  | loop t => loop t

/-- What a timer of the event loop holds. -/
def timer? (clock : Clock) (number : Nat) : Option Deferral :=
  match clock with
  | virtual _ => none
  | loop t => t[number]?.map (·.payload)

end Clock
end Switchboard
