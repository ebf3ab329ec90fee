-- A manager with everything around it: the state, what is registered, the transaction that is
-- running, the clock, the signals, and the host.
import Switchboard.Config
import Switchboard.Generator
import Switchboard.Manager.Command
import Switchboard.Signals
namespace Switchboard.Manager

/-- A program of the host over a manager. -/
abbrev Act (σ : Type) := Program interface σ

/-- Who hears of events. -/
inductive Listener (σ : Type)
  | host (program : Event → Act σ)
  | bridge (number : Nat)

/-- A deferral that has not started, with what cancels it. -/
structure Pending where
  deferral : Deferral
  handle : Nat

structure World (σ : Type) where
  config : Config
  /-- The functions and values that expressions see besides the state. -/
  context : Dict Scalar Value
  /-- The state. Its one listener is the manager itself, until it is disposed of. -/
  store : Store Unit
  controls : List Control
  /-- The controls that read each variable. -/
  readLinks : Dict Scalar (List Control)
  /-- The assignments that listen to each variable, by their storage. -/
  assignments : Dict Scalar (Dict Scalar Assignment)
  listeners : Dict Nat (Listener σ)
  nextSubscription : Nat
  pending : List Pending
  changes : ChangeSet
  /-- All events dispatched so far, in order. As with the history of the state, nothing reads it. -/
  events : List Event
  inTransaction : Bool
  /-- How many changes are being followed up, one inside the other. -/
  depth : Nat
  clock : Clock
  generator : Generator
  /-- The time of day in milliseconds. -/
  timeOfDay : Int
  nextIdentity : Nat
  nextControl : Nat
  nextDeferral : Nat
  signals : Signals (Value → Act σ)
  /-- The numbers of the derived values that are being computed, the innermost first. -/
  computing : List Nat
  host : σ

namespace World

variable {σ : Type}

def storePart : Part (World σ) (Store Unit) := ⟨store, fun s w => { w with store := s }⟩

def schedulerPart : Part (World σ) (Scheduler Binary64 Deferral) :=
  ⟨fun w => w.clock.scheduler, fun s w => { w with clock := w.clock.setScheduler s }⟩

def signalsPart : Part (World σ) (Signals (Value → Act σ)) :=
  ⟨signals, fun s w => { w with signals := s }⟩

def hostPart : Part (World σ) σ := ⟨host, fun s w => { w with host := s }⟩

/-- The functions every expression can call, unless the host's context overrides them. -/
def defaults : Dict Scalar Value :=
  [(.text "getRandomInt", .function .randomInt), (.text "now", .function .now)]

/-- An identity that no container carries yet. -/
def fresh : Run (World σ) Nat :=
  modifyGet fun w => (w.nextIdentity, { w with nextIdentity := w.nextIdentity + 1 })

/-- The table that an expression is evaluated against: the context, and over it the state. -/
def contextNow : Run (World σ) Value := do
  let identity ← fresh
  let w ← get
  return .map identity (w.context.merge w.store.state)

/-! ## Indices -/

/-- Register a control under every variable it reads. -/
def linkControl (w : World σ) (control : Control) (reads : List Scalar) : World σ :=
  { w with
    controls := w.controls ++ [control]
    readLinks := reads.foldl
      (fun links v => links.put v (((links.get? v).getD []) ++ [control])) w.readLinks }

/-- Register an assignment under every variable it listens to. It replaces one with the same
storage. -/
def linkAssignment (w : World σ) (a : Assignment) (names : List Scalar) : World σ :=
  { w with
    assignments := names.foldl
      (fun table v => table.put v (((table.get? v).getD []).put a.storage a)) w.assignments }

/-- The assignments that listen to a variable. -/
def listeningTo (w : World σ) (key : Scalar) : List Assignment :=
  ((w.assignments.get? key).getD []).values

/-- The ids of the controls that read a variable. -/
def readersOf (w : World σ) (key : Scalar) : List Value :=
  ((w.readLinks.get? key).getD []).map (·.id)

/-- The ids of the controls that a change of a variable concerns: those that read it, and those
that read what the listening assignments write. -/
def affected (w : World σ) (key : Scalar) (assignments : List Assignment) : List Value :=
  w.readersOf key ++ assignments.flatMap fun a => w.readersOf a.storage

/-! ## Deferrals -/

/-- Hand an assignment to the clock. -/
def defer (a : Assignment) : Run (World σ) Unit := do
  let delay ← .ofExcept ((← get).clock.delayOf a.timeout)
  modify fun w =>
    let deferral : Deferral := ⟨w.nextDeferral, a⟩
    let (handle, clock) := w.clock.later delay deferral
    { w with
      clock := clock
      nextDeferral := w.nextDeferral + 1
      pending := w.pending ++ [⟨deferral, handle⟩] }

/-- A deferral is no longer pending. -/
def start (w : World σ) (deferral : Deferral) : World σ :=
  { w with pending := w.pending.filter fun p => p.deferral.serial ≠ deferral.serial }

/-- Cancel what is pending and drop all registrations. The state stays. -/
def dispose (w : World σ) : World σ :=
  { w with
    clock := w.pending.foldl (fun clock p => clock.cancel p.handle) w.clock
    pending := []
    listeners := []
    readLinks := []
    assignments := []
    controls := []
    store := w.store.dispose }

def snapshot (w : World σ) : Snapshot :=
  ⟨w.store.state, w.controls, w.pending.map (·.deferral.assignment), w.clock⟩

end World
end Switchboard.Manager
