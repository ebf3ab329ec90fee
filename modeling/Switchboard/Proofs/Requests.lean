-- Runs of a store with a log of what is asked of it: who subscribes and under which number, who
-- asks for the removal of a listener and by which handle, and when all are dropped, each with the
-- store before and after it. To forget the log gives the run back, and the log is a path of such
-- requests.
import Switchboard.Proofs.Attendance
namespace Switchboard.Store

open Conduct

variable {σ : Type}

/-! ## What is asked of a store -/

inductive Request (σ : Type)
  /-- A listener subscribes and is given a handle. -/
  | came (handle : Subscription) (listener : Listener σ)
  /-- A listener gives a key that cannot be one. -/
  | refused (key : Value)
  /-- It is asked to remove a listener, by a handle of whatever origin. -/
  | asked (id key : Value) (answer : Except Fault Bool)
  | disposed

/-- A request, with the store before and after it. -/
structure Visit (σ : Type) where
  request : Request σ
  before : Store (Listener σ)
  after : Store (Listener σ)

/-- The request that a subscription is, given how it is answered. -/
def Request.ofArrival (key : Value) (listener : Listener σ) : Except Fault Subscription → Request σ
  | .ok handle => came handle listener
  | .error _ => refused key

/-! ## Runs with a log of requests -/

structure Journal (σ : Type) where
  session : Session σ
  log : List (Visit σ) := []

namespace Journal

def storePart : Part (Journal σ) (Store (Listener σ)) where
  view w := w.session.store
  replace s w := { w with session := { w.session with store := s } }

def hostPart : Part (Journal σ) σ where
  view w := w.session.host
  replace s w := { w with session := { w.session with host := s } }

/-- Enter a request, with the store it leads to. -/
def enter (request : Request σ) (store : Store (Listener σ)) : Run (Journal σ) Unit :=
  modify fun w =>
    { session := { w.session with store := store }
      log := w.log ++ [⟨request, w.session.store, store⟩] }

def exec (call : Program interface σ → Run (Journal σ) Value) :
    (c : Command) → (c.Input → Program interface σ) → Run (Journal σ) c.Answer
  | .set patch, _ => do
    let patch ← .ofExcept (patchOf patch)
    apply storePart (fun listener change => do let _ ← call (listener change)) patch
  | .get key default, _ => do
    let key ← .ofExcept key.asKey
    return ((← storePart.read).state.get? key).getD default
  | .subscribe key, listener => do
    let (answer, store) := (← storePart.read).subscribe listener key
    enter (.ofArrival key listener answer) store
    .ofExcept answer
  | .unsubscribe id key, _ => do
    let s ← storePart.read
    match s.unsubscribe id key with
    | .ok (there, store) =>
      enter (.asked id key (.ok there)) store
      return there
    | .error f =>
      enter (.asked id key (.error f)) s
      throw f
  | .dispose, _ => do
    let s ← storePart.read
    enter .disposed s.dispose

def run : Nat → Program interface σ → Run (Journal σ) Value
  | 0, _ => throw .exhausted
  | n + 1, p => p.run hostPart (exec (run n))

end Journal

theorem Journal.unsubscribe_eq (call : Program interface σ → Run (Journal σ) Value) (id key : Value)
    (callback : (Command.unsubscribe id key).Input → Program interface σ) (w : Journal σ) :
    Journal.exec call (.unsubscribe id key) callback w =
      match w.session.store.unsubscribe id key with
      | .ok (there, store) => .ok there
        { session := { w.session with store := store }
          log := w.log ++ [⟨.asked id key (.ok there), w.session.store, store⟩] }
      | .error f => .error f
        { w with
          log := w.log ++ [⟨.asked id key (.error f), w.session.store, w.session.store⟩] } := by
  change (match w.session.store.unsubscribe id key with
    | .ok (there, store) => _
    | .error f => _ : Run (Journal σ) Bool) w = _
  cases w.session.store.unsubscribe id key <;> rfl

/-! ## Forgetting the log -/

section

variable {ω ω' κ : Type} {view : ω → ω'} {part : Part ω (Store κ)} {part' : Part ω' (Store κ)}
  {deliver : κ → Change → Run ω Unit} {deliver' : κ → Change → Run ω' Unit}

theorem projects_apply (hread : Projects view part.read part'.read)
    (hwrite : ∀ s, Projects view (part.write s) (part'.write s))
    (hd : ∀ listener c, Projects view (deliver listener c) (deliver' listener c))
    (patch : List (Scalar × Value)) :
    Projects view (apply part deliver patch) (apply part' deliver' patch) := by
  refine projects_forM patch fun e => ?_
  unfold write
  refine projects_bind hread fun s => ?_
  cases s.assign e.1 e.2 with
  | none => exact projects_pure ()
  | some r => exact projects_bind (hwrite _) fun _ => projects_forM _ fun listener => hd listener _

end

namespace Journal

theorem projects_exec {call : Program interface σ → Run (Journal σ) Value}
    {call' : Program interface σ → Run (Session σ) Value}
    (hc : ∀ p, Projects session (call p) (call' p)) (c : Command)
    (callback : c.Input → Program interface σ) :
    Projects session (exec call c callback) (Session.exec call' c callback) := by
  have hread : Projects session (storePart.read : Run (Journal σ) _) Session.storePart.read :=
    fun _ => rfl
  cases c with
  | set patch =>
    exact projects_bind (projects_ofExcept _) fun patch =>
      projects_apply hread (fun _ _ => rfl)
        (fun listener c => projects_bind (hc _) fun _ => projects_pure ()) patch
  | get key default => exact projects_bind (projects_ofExcept _) fun key w => rfl
  | subscribe key =>
    exact projects_bind hread fun s => projects_bind (fun _ => rfl) fun _ => projects_ofExcept _
  | unsubscribe id key =>
    intro w
    refine (congrArg (Run.project session) (unsubscribe_eq call id key callback w)).trans ?_
    change _ = (Run.ofExcept (w.session.store.unsubscribe id key) >>= _ : Run (Session σ) _)
      w.session
    cases w.session.store.unsubscribe id key with
    | ok r => rfl
    | error f => rfl
  | dispose => exact fun _ => rfl

/-- A run with a log is the run of the program. -/
theorem projects_run (n : Nat) (p : Program interface σ) :
    Projects session (run n p) (Session.run n p) := by
  induction n generalizing p with
  | zero => exact projects_throw _
  | succ n ih =>
    exact projects_program (I := interface) (projects_exec ih) (fun _ => rfl) (fun _ _ => rfl) p

end Journal

/-! ## The log is a path -/

/-- What a request does. -/
inductive Step : Store (Listener σ) → Request σ → Store (Listener σ) → Prop
  | subscribed (s : Store (Listener σ)) (key : Value) (listener : Listener σ) :
    Step s (.ofArrival key listener (s.subscribe listener key).1) (s.subscribe listener key).2
  | answered {s s' : Store (Listener σ)} {id key : Value} {there : Bool} :
    s.unsubscribe id key = .ok (there, s') → Step s (.asked id key (.ok there)) s'
  | failed {s : Store (Listener σ)} {id key : Value} {f : Fault} :
    s.unsubscribe id key = .error f → Step s (.asked id key (.error f)) s
  | disposed (s : Store (Listener σ)) : Step s .disposed s.dispose

/-- Requests one after the other. Between them values may be stored. -/
inductive Path (start : Store (Listener σ)) : List (Visit σ) → Store (Listener σ) → Prop
  | nil : Path start [] start
  | stored {log : List (Visit σ)} {s s' : Store (Listener σ)} : Path start log s →
    s'.listeners = s.listeners → s'.nextId = s.nextId → Path start log s'
  | visit {log : List (Visit σ)} {s s' : Store (Listener σ)} {request : Request σ} :
    Path start log s → Step s request s' → Path start (log ++ [⟨request, s, s'⟩]) s'

namespace Path

variable {start s s' : Store (Listener σ)} {log more pre : List (Visit σ)} {v : Visit σ}

theorem append (h : Path start log s) (h' : Path s more s') : Path start (log ++ more) s' := by
  induction h' with
  | nil => rwa [List.append_nil]
  | stored _ hl hn ih => exact ih.stored hl hn
  | visit _ hs ih =>
    rw [← List.append_assoc]
    exact ih.visit hs

/-- Each visit found the store where the path had come to. -/
theorem upTo (h : Path start log s) (hpre : pre ++ [v] <+: log) :
    Path start pre v.before ∧ Step v.before v.request v.after := by
  induction h with
  | nil =>
    have hnone := List.prefix_nil.mp hpre
    exact absurd hnone (List.append_ne_nil_of_right_ne_nil _ (List.cons_ne_nil _ _))
  | stored _ _ _ ih => exact ih hpre
  | visit h hs ih =>
    rcases List.prefix_concat_iff.mp hpre with hall | hpre
    · obtain ⟨rfl, hv⟩ := List.append_inj' hall rfl
      cases hv
      exact ⟨h, hs⟩
    · exact ih hpre

end Path

namespace Journal

/-- To go on by requests. -/
def recording : Conduct (Journal σ) :=
  always (fun w w' => ∃ more, w'.log = w.log ++ more ∧ Path w.session.store more w'.session.store)
    (fun _ => ⟨[], (List.append_nil _).symm, .nil⟩) fun ⟨more, hlog, h⟩ ⟨rest, hlog', h'⟩ =>
      ⟨more ++ rest, by rw [hlog', hlog, List.append_assoc], h.append h'⟩

theorem recording_enter {w : Journal σ} {request : Request σ} {s : Store (Listener σ)}
    (h : Step w.session.store request s) : recording.KeepsAt (enter request s) w :=
  ⟨[⟨request, w.session.store, s⟩], rfl, .visit .nil h⟩

theorem recording_write {deliver : Listener σ → Change → Run (Journal σ) Unit}
    (hd : ∀ listener c, recording.Keeps (deliver listener c)) (key : Scalar) (value : Value) :
    recording.Keeps (write storePart deliver key value) := by
  intro w
  refine keepsAt_bind (keeps_read storePart w) fun s w' hs => ?_
  cases hs
  rw [show storePart.view w = w.session.store from rfl, assign_eq]
  by_cases h : (w.session.store.read key).strictEquals value = true
  · rw [if_pos h]
    exact keeps_pure () w
  · rw [if_neg h]
    have hstored : recording.KeepsAt (storePart.write (w.session.store.stored
        ⟨key, w.session.store.read key, value⟩)) w :=
      ⟨[], (List.append_nil _).symm, .stored .nil rfl rfl⟩
    exact keepsAt_bind hstored fun _ w' _ => keeps_forM _ (fun listener _ => hd listener _) w'

theorem recording_exec {call : Program interface σ → Run (Journal σ) Value}
    (hc : ∀ p, recording.Keeps (call p)) (c : Command) (callback : c.Input → Program interface σ) :
    recording.Keeps (exec call c callback) := by
  cases c with
  | set patch =>
    exact keeps_bind (keeps_ofExcept _) fun patch => keeps_forM _ fun e _ =>
      recording_write (fun _ _ => keeps_bind (hc _) fun _ => keeps_pure ()) e.1 e.2
  | get key default =>
    exact keeps_bind (keeps_ofExcept _) fun key => keeps_bind (keeps_read _) fun _ => keeps_pure _
  | subscribe key =>
    intro w
    refine keepsAt_bind (keeps_read storePart w) fun s w' hs => ?_
    cases hs
    exact keepsAt_bind (recording_enter (.subscribed _ key callback)) fun _ w' _ =>
      keeps_ofExcept _ w'
  | unsubscribe id key =>
    intro w
    have heq := unsubscribe_eq call id key callback w
    cases hr : w.session.store.unsubscribe id key with
    | ok r =>
      obtain ⟨there, store⟩ := r
      rw [hr] at heq
      exact keepsAt_of (fun a w' ha => by
        cases heq.symm.trans ha
        exact ⟨_, rfl, .visit .nil (.answered hr)⟩) fun f w' hf => nomatch heq.symm.trans hf
    | error f =>
      rw [hr] at heq
      exact keepsAt_of (fun a w' ha => nomatch heq.symm.trans ha) fun f' w' hf => by
        cases heq.symm.trans hf
        exact ⟨_, rfl, .visit .nil (.failed hr)⟩
  | dispose =>
    intro w
    refine keepsAt_bind (keeps_read storePart w) fun s w' hs => ?_
    cases hs
    exact recording_enter (.disposed _)

/-- However a run ends, its log is a path. -/
theorem recording_run (n : Nat) (p : Program interface σ) : recording.Keeps (run n p) := by
  induction n generalizing p with
  | zero => exact keeps_throw _
  | succ n ih =>
    have hnote : ∀ change, recording.Keeps (hostPart.update change : Run (Journal σ) Unit) :=
      fun change w => ⟨[], (List.append_nil _).symm, .nil⟩
    exact keeps_run id hnote (recording_exec ih) p

end Journal

end Switchboard.Store
