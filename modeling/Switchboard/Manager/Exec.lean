-- What the commands of a host do, and how host programs run.
import Switchboard.Manager.Transaction
namespace Switchboard.Manager

open World

section

variable {σ : Type} (functions : Functions σ) (below : Level σ)

/-! ## Commands -/

/-- The value of a slot. Without a slot, or by the storage slot, it is what the storage holds. -/
def evaluateSlot (control : Control) (slot : Value) : Run (World σ) Value := do
  if !slot.isGiven || slot.sameKey (.scalar Control.storageSlot) then
    match control.storage with
    | .null => return .null
    | storage => return (← get).store.read (← .ofExcept storage.asKey)
  else
    let key ← .ofExcept slot.asKey
    match control.slots.get? key with
    | some e => evaluateNow functions below e
    | none => .ofExcept (do .error (.noSlot (← slot.shown) (← control.id.written)))

/-- Remove a listener by its number, which may be made up. Tell whether it was there. -/
def unsubscribe (id : Value) : Run (World σ) Bool := do
  let w ← get
  if w.listeners.isEmpty then return false
  else if !id.isHashable then throw .wrongType
  else
    set { w with listeners := w.listeners.filter fun e => !Store.isId id e.1 }
    return w.listeners.any fun e => Store.isId id e.1

/-- Add a listener under a new number. -/
def subscribe (listener : Listener σ) : Run (World σ) Nat := do
  let w ← get
  set { w with
    listeners := w.listeners.put w.nextSubscription listener
    nextSubscription := w.nextSubscription + 1 }
  return w.nextSubscription

/-- Register an assignment. The names it listens to. -/
def register (prepared : Prepared) : Run (World σ) (List Scalar) := do
  match ← .ofExcept prepared.registration with
  | (names, none) => return names
  | (names, some a) =>
    modify (·.linkAssignment a names)
    return names

/-- What a command does. The number bounds the loops of the clock. -/
def exec (bound : Nat) : (c : Command) → (c.Input → Act σ) → Run (World σ) c.Answer
  | .addControl id runtime, _ => do
    let w ← get
    let control ← .ofExcept (Control.make w.nextControl id runtime)
    let reads ← .ofExcept control.reads
    set { w.linkControl control reads with nextControl := w.nextControl + 1 }
    return control
  | .assign draft, _ => do register (← .ofExcept draft.prepareGiven)
  | .register prepared, _ => register prepared
  | .setState patch, _ =>
    transaction functions below false do
      writePatch functions below (← .ofExcept (Store.patchOf patch))
  | .setValue control value, _ => do
    if control.isWritable then
      transaction functions below false do
        writeKey functions below (← .ofExcept control.storage.asKey) value
    else .ofExcept (do .error (.notWritable (← control.id.written)))
  | .evaluateSlot control slot, _ => evaluateSlot functions below control slot
  | .evaluateText expression, _ => do
    evaluateNow functions below (← .ofExcept (Expr.ofValue expression))
  | .subscribe, program => subscribe (.host program)
  | .unsubscribe id, _ => unsubscribe id
  | .advance ms, _ => do
    let ms ← .ofExcept ms.toSpan
    Scheduler.advance schedulerPart (fire functions below) bound ms
  | .runAll, _ => Scheduler.runAll schedulerPart (fire functions below) bound bound
  | .runTimer number, _ => do
    match (← get).clock.timer? number with
    | some deferral => fire functions below deferral
    | none => throw .badValue
  | .dispose, _ => modify World.dispose
  | .look, _ => do return (← get).snapshot
  | .connect, _ => do
    let (number, signals) := (← signalsPart.read).addBridge (← get).nextSubscription
    signalsPart.write signals
    let _ ← subscribe (.bridge number)
    return number
  | .signal bridge key, _ => do
    match ← cellsFor bridge [← .ofExcept key.asKey] with
    | number :: _ => return number
    | [] => throw .badValue
  | .readSignal cell, _ => do return (← signalsPart.read).cellValue cell
  | .compute bridge expression, _ => derive bridge expression
  | .readComputed number, _ => readComputed functions below number
  | .effect bridge expression, callback => addEffect functions below bridge expression callback
  | .disconnect bridge, _ => do
    let subscription := ((← signalsPart.read).bridge bridge).subscription
    let _ ← unsubscribe (.int subscription)
    signalsPart.update (·.closeBridge bridge)

end

/-! ## Levels -/

/-- What is nested in an activity that may nest so deep. -/
def level {σ : Type} (functions : Functions σ) : Nat → Level σ
  | 0 => ⟨fun _ => throw .exhausted, fun _ _ => throw .exhausted⟩
  | n + 1 =>
    let below := level functions n
    ⟨Program.run hostPart (exec functions below n), writeKey functions below⟩

/-- Run a program of the host, with activities nested and loops at most so long. -/
def run {σ : Type} (functions : Functions σ) (bound : Nat) (program : Act σ) :
    Run (World σ) Value :=
  (level functions bound).act program

end Switchboard.Manager
