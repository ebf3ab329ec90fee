-- Runs of a store with a log of what is done. Listeners subscribe and unsubscribe, values are
-- stored, and each listener that is told of a change is entered with the change before it runs. To
-- forget the log gives the run back. Who listens to a key can be read from the log alone, and it is
-- who stands in the table of listeners.
import Switchboard.Proofs.Histories
import Switchboard.Proofs.Projection
import Switchboard.Store.Session
namespace Switchboard.Store

open Conduct

variable {κ σ : Type}

/-- The listeners that hear of a change of a key, with their numbers. -/
def audience (store : Store κ) (key : Scalar) : Dict Nat κ :=
  store.under key ++ if key == .null then [] else store.under .null

theorem values_audience (store : Store κ) (key : Scalar) :
    (store.audience key).values = store.hearers key := by
  unfold audience hearers Dict.values
  rw [List.map_append]
  split <;> rfl

/-- The store when the value of a key has changed. -/
def stored (store : Store κ) (change : Change) : Store κ :=
  { store with
    state := store.state.put change.key change.new
    history := store.history ++ [change] }

/-- What is strictly the old value is not stored, and anything else is told. -/
theorem assign_eq (store : Store κ) (key : Scalar) (value : Value) :
    store.assign key value = if (store.read key).strictEquals value then none
      else some (store.stored ⟨key, store.read key, value⟩, ⟨key, store.read key, value⟩,
        store.hearers key) := rfl

/-! ## What is done -/

inductive Deed (σ : Type)
  | subscribed (id : Nat) (key : Scalar) (listener : Listener σ)
  /-- A listener leaves. The number may be given as any value that is the same key. -/
  | unsubscribed (id : Value) (key : Scalar)
  | disposed
  | stored (change : Change)
  /-- A listener is handed the change of this number, counted from the first that was stored. -/
  | told (number : Nat) (listener : Nat × Listener σ) (change : Change)
  /-- A listener that was told ends in a fault. -/
  | raised (id : Nat)

/-- What is entered of a subscription, given how it was answered. -/
def Deed.arrival (listener : Listener σ) : Except Fault Subscription → List (Deed σ)
  | .ok subscription => [subscribed subscription.id subscription.key listener]
  | .error _ => []

/-- What is entered when a listener may leave, given its key and whether it was there. -/
def Deed.departure (id : Value) : Except Fault Scalar → Bool → List (Deed σ)
  | .ok key, true => [unsubscribed id key]
  | _, _ => []

def Deed.isRaised : Deed σ → Bool
  | raised _ => true
  | _ => false

/-- Those who listen to a key, after something was done. -/
def Deed.attend (key : Scalar) (listeners : Dict Nat (Listener σ)) :
    Deed σ → Dict Nat (Listener σ)
  | subscribed id k listener => if k == key then listeners ++ [(id, listener)] else listeners
  | unsubscribed id k =>
    if k == key then listeners.filter fun e => !isId id e.1 else listeners
  | disposed => []
  | _ => listeners

/-- Those who have subscribed to a key and not left since, in the order in which they came. -/
def attending (log : List (Deed σ)) (key : Scalar) : Dict Nat (Listener σ) :=
  log.foldl (Deed.attend key) []

/-- Those who listen to a key, and then those who listen to all. -/
def audienceOf (log : List (Deed σ)) (key : Scalar) : Dict Nat (Listener σ) :=
  attending log key ++ if key == .null then [] else attending log .null

def Deed.change? : Deed σ → Option Change
  | stored change => some change
  | _ => none

/-- The changes that were stored. -/
def changesOf (log : List (Deed σ)) : List Change := log.filterMap (·.change?)

def Deed.told? (number : Nat) : Deed σ → Option ((Nat × Listener σ) × Change)
  | told n listener change => if n = number then some (listener, change) else none
  | _ => none

/-- Who was told of the change of a number, and what. -/
def toldOf (number : Nat) (log : List (Deed σ)) : List ((Nat × Listener σ) × Change) :=
  log.filterMap (·.told? number)

/-! ## Runs with a log -/

structure Ledger (σ : Type) where
  session : Session σ
  log : List (Deed σ) := []

namespace Ledger

def hostPart : Part (Ledger σ) σ :=
  ⟨fun w => w.session.host, fun s w => { w with session := { w.session with host := s } }⟩

/-- The ledger when something has been done. -/
def carried (w : Ledger σ) (store : Store (Listener σ)) (deeds : List (Deed σ)) : Ledger σ where
  session := { w.session with store := store }
  log := w.log ++ deeds

def enter (store : Store (Listener σ)) (deeds : List (Deed σ)) : Run (Ledger σ) Unit :=
  modify (·.carried store deeds)

/-- Tell a listener of a change. -/
def deliver (call : Program interface σ → Run (Ledger σ) Value) (number : Nat) (change : Change)
    (e : Nat × Listener σ) : Run (Ledger σ) Unit := fun w =>
  match call (e.2 change) (w.carried w.session.store [.told number e change]) with
  | .ok _ w => .ok () w
  | .error f w => .error f (w.carried w.session.store [.raised e.1])

/-- Store a value and tell the change. -/
def write (call : Program interface σ → Run (Ledger σ) Value) (key : Scalar) (value : Value) :
    Run (Ledger σ) Unit := do
  let w ← get
  match w.session.store.assign key value with
  | none => return ()
  | some (store, change, _) =>
    enter store [.stored change]
    (w.session.store.audience key).forM (deliver call (changesOf w.log).length change)

def exec (call : Program interface σ → Run (Ledger σ) Value) :
    (c : Command) → (c.Input → Program interface σ) → Run (Ledger σ) c.Answer
  | .set patch, _ => do
    let patch ← .ofExcept (patchOf patch)
    patch.forM fun e => write call e.1 e.2
  | .get key default, _ => do
    let key ← .ofExcept key.asKey
    return ((← get).session.store.state.get? key).getD default
  | .subscribe key, listener => do
    let w ← get
    let (answer, store) := w.session.store.subscribe listener key
    enter store (Deed.arrival listener answer)
    .ofExcept answer
  | .unsubscribe id key, _ => do
    let w ← get
    let (there, store) ← .ofExcept (w.session.store.unsubscribe id key)
    enter store (Deed.departure id key.asKey there)
    return there
  | .dispose, _ => modify fun w => w.carried w.session.store.dispose [.disposed]

def run : Nat → Program interface σ → Run (Ledger σ) Value
  | 0, _ => throw .exhausted
  | n + 1, p => p.run hostPart (exec (run n))

/-! ## Forgetting the log -/

section

variable {call : Program interface σ → Run (Ledger σ) Value}
  {call' : Program interface σ → Run (Session σ) Value}
  (hc : ∀ p, Projects session (call p) (call' p))

include hc

theorem projects_deliver (number : Nat) (change : Change) (e : Nat × Listener σ) :
    Projects session (deliver call number change e) (do let _ ← call' (e.2 change)) := by
  intro w
  have hcall := hc (e.2 change) (w.carried w.session.store [.told number e change])
  unfold deliver
  cases hr : call (e.2 change) (w.carried w.session.store [.told number e change]) with
  | ok v u =>
    rw [hr] at hcall
    have hplain : (do let _ ← call' (e.2 change)) w.session = .ok () u.session :=
      bind_ok hcall.symm
    exact hplain.symm
  | error f u =>
    rw [hr] at hcall
    have hplain : (do let _ ← call' (e.2 change)) w.session = .error f u.session :=
      bind_error hcall.symm
    exact hplain.symm

theorem projects_write (key : Scalar) (value : Value) :
    Projects session (write call key value) (Store.write Session.storePart
      (fun listener change => do let _ ← call' (listener change)) key value) := by
  unfold write Store.write
  refine projects_read _ fun w => ?_
  have hview : Session.storePart.view w.session = w.session.store := rfl
  rw [hview, assign_eq]
  by_cases h : (w.session.store.read key).strictEquals value = true
  · rw [if_pos h]
    exact projects_pure ()
  · rw [if_neg h]
    refine projects_bind (fun v => rfl) fun _ => ?_
    have hvalues : ∀ act : Listener σ → Run (Session σ) Unit,
        (w.session.store.hearers key).forM act =
          (w.session.store.audience key).forM fun e => act e.2 := by
      intro act
      rw [← values_audience]
      exact List.forM_map
    rw [hvalues]
    exact projects_forM _ (projects_deliver hc _ _)

theorem projects_exec (c : Command) (callback : c.Input → Program interface σ) :
    Projects session (exec call c callback) (Session.exec call' c callback) := by
  cases c with
  | set patch =>
    exact projects_bind (projects_ofExcept _) fun patch =>
      projects_forM patch fun e => projects_write hc e.1 e.2
  | get key default => exact projects_bind (projects_ofExcept _) fun key w => rfl
  | subscribe key =>
    exact projects_read _ fun w => projects_bind (fun v => rfl) fun _ => projects_ofExcept _
  | unsubscribe id key =>
    exact projects_read _ fun w => projects_bind (projects_ofExcept _) fun r =>
      projects_bind (fun v => rfl) fun _ => projects_pure _
  | dispose => exact fun w => rfl

end

/-- A run with a log is the run of the program. -/
theorem projects_run (n : Nat) (p : Program interface σ) :
    Projects session (run n p) (Session.run n p) := by
  induction n generalizing p with
  | zero => exact projects_throw _
  | succ n ih =>
    exact projects_program (I := interface) (projects_exec ih) (fun _ => rfl) (fun _ _ => rfl) p

end Ledger
end Switchboard.Store
