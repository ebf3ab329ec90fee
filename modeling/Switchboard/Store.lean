-- The state: a table of values whose changes are told to listeners. A write that brings nothing
-- new tells no one. A change is told to the listeners of its key and then to those of all keys,
-- in the order in which they subscribed, as they stood when the value was stored.
import Switchboard.Equality
import Switchboard.Run
namespace Switchboard

structure Change where
  key : Scalar
  old : Value
  new : Value

/-- The handle of a listener. A null key means all keys. -/
structure Subscription where
  id : Nat
  key : Scalar

/-- A state with its listeners, which are of any type. -/
structure Store (κ : Type) where
  state : Dict Scalar Value
  /-- The listeners of each key, those of all keys under null. -/
  listeners : Dict Scalar (Dict Nat κ)
  nextId : Nat
  /-- All changes so far, in order. Nothing reads it: it is what statements about runs speak of. -/
  history : List Change

namespace Store

variable {κ ω : Type}

def ofState (state : Dict Scalar Value) : Store κ := ⟨state, [], 1, []⟩

/-- The value under a key, or null. -/
def read (store : Store κ) (key : Scalar) : Value := (store.state.get? key).getD .null

/-! ## Subscriptions -/

/-- The listeners under one key. -/
def under (store : Store κ) (key : Scalar) : Dict Nat κ := (store.listeners.get? key).getD []

/-- The listeners that hear of a change of a key, in order. -/
def hearers (store : Store κ) (key : Scalar) : List κ :=
  (store.under key).values ++ if key == .null then [] else (store.under .null).values

/-- Add a listener. A handle is used up even if the key cannot be one. -/
def subscribe (store : Store κ) (listener : κ) (key : Value) :
    Except Fault Subscription × Store κ :=
  let id := store.nextId
  match key.asKey with
  | .error f => (.error f, { store with nextId := id + 1 })
  | .ok key =>
    (.ok ⟨id, key⟩,
      { store with
        listeners := store.listeners.put key ((store.under key).put id listener)
        nextId := id + 1 })

/-- Does a value name a listener's number? It need not be an integer, only the same key. -/
def isId (given : Value) (id : Nat) : Bool := given.sameKey (.int id)

/-- Remove a listener by number and key, both of which may be made up. Tell whether it was there.
-/
def unsubscribe (store : Store κ) (id key : Value) : Except Fault (Bool × Store κ) := do
  let key ← key.asKey
  let there := store.under key
  if there.isEmpty then return (false, store)
  else if !id.isHashable then .error .wrongType
  else if there.any fun e => isId id e.1 then
    let left := there.filter fun e => !isId id e.1
    return (true, { store with listeners := store.listeners.put key left })
  else return (false, store)

/-- Drop all listeners. -/
def dispose (store : Store κ) : Store κ := { store with listeners := [] }

/-! ## Writing -/

/-- Store a value: the change with those who hear of it, unless it is strictly the old value. -/
def assign (store : Store κ) (key : Scalar) (value : Value) :
    Option (Store κ × Change × List κ) :=
  let change := ⟨key, store.read key, value⟩
  if change.old.strictEquals value then none
  else some ({ store with
    state := store.state.put key value
    history := store.history ++ [change] }, change, store.hearers key)

/-- Store a value and tell the change. -/
def write (part : Part ω (Store κ)) (deliver : κ → Change → Run ω Unit) (key : Scalar)
    (value : Value) : Run ω Unit := do
  match (← part.read).assign key value with
  | none => return ()
  | some (store, change, hearers) =>
    part.write store
    hearers.forM fun listener => deliver listener change

/-- Store the values of a patch one after the other. -/
def apply (part : Part ω (Store κ)) (deliver : κ → Change → Run ω Unit)
    (patch : List (Scalar × Value)) : Run ω Unit :=
  patch.forM fun e => write part deliver e.1 e.2

/-! ## Patches -/

/-- The two parts of an item of a patch that is given as a list: of a list its two items, of a
table its two keys, of a text its two characters. -/
def pairOf (item : Value) : Except Fault (Scalar × Value) := do
  let parts ←
    match item with
    | .list _ items => .ok items
    | .map _ entries => .ok (entries.map fun e => .scalar e.1)
    | .text s => .ok (s.toList.map fun c => .text (String.singleton c))
    | _ => .error .wrongType
  match parts with
  | [key, value] => return (← key.asKey, value)
  | _ => .error .badValue

/-- The patch that a value is: a table, or what holds pairs. -/
def patchOf : Value → Except Fault (Dict Scalar Value)
  | .map _ entries => .ok entries
  | .list _ items => do return Dict.ofList (← items.mapM pairOf)
  | .text s => do
    return Dict.ofList (← s.toList.mapM fun c => pairOf (.text (String.singleton c)))
  | _ => .error .wrongType

end Store
end Switchboard
