-- Runs in which no call raises and in which some listeners start no transaction while they are told
-- of an event. They are the runs of a manager with manners, which breaks off where its manners are
-- broken: where it comes to an end it has done what every manager does.
import Switchboard.Proofs.Cascade
import Switchboard.Proofs.Regime
namespace Switchboard.Manager

open World Conduct

variable {ι σ α β : Type}

/-! ## Commands, however transactions are made -/

section

variable (transact : Bool → Run (World σ) Unit → Run (World σ) Unit) (functions : Functions σ)
  (below : Level σ)

/-- Run a deferral that is due. -/
def fireWith (deferral : Deferral) : Run (World σ) Unit := do
  modify (·.start deferral)
  transact true (applyAssignment functions below deferral.assignment)

/-- What a command does if transactions are made so. -/
def execWith (bound : Nat) : (c : Command) → (c.Input → Act σ) → Run (World σ) c.Answer
  | .setState patch, _ =>
    transact false do writePatch functions below (← .ofExcept (Store.patchOf patch))
  | .setValue control value, _ => do
    if control.isWritable then
      transact false do writeKey functions below (← .ofExcept control.storage.asKey) value
    else .ofExcept (do .error (.notWritable (← control.id.written)))
  | .advance ms, _ => do
    let ms ← .ofExcept ms.toSpan
    Scheduler.advance schedulerPart (fireWith transact functions below) bound ms
  | .runAll, _ => Scheduler.runAll schedulerPart (fireWith transact functions below) bound bound
  | .runTimer number, _ => do
    match (← get).clock.timer? number with
    | some deferral => fireWith transact functions below deferral
    | none => throw .badValue
  | c, callback => exec functions below bound c callback

end

theorem execWith_transaction (functions : Functions σ) (below : Level σ) (bound : Nat)
    (c : Command) (callback : c.Input → Act σ) :
    execWith (transaction functions below) functions below bound c callback =
      exec functions below bound c callback := by
  cases c <;> rfl

theorem execWith_of_reading {transact : Bool → Run (World σ) Unit → Run (World σ) Unit}
    {functions : Functions σ} {below : Level σ} {bound : Nat} {c : Command}
    (hc : c.isWrite = false) (callback : c.Input → Act σ) :
    execWith transact functions below bound c callback =
      exec functions below bound c callback := by
  cases c with
  | setState patch => cases hc
  | setValue control value => cases hc
  | advance ms => cases hc
  | runAll => cases hc
  | runTimer number => cases hc
  | _ => rfl

/-- What the commands that write ask of a law, and of the law that holds in a transaction. -/
structure Orderly (L inner : Law ι (World σ)) (functions : Functions σ) (below : ι → Level σ)
    (transact : ι → Bool → Run (World σ) Unit → Run (World σ) Unit) : Prop where
  giveUp : ∀ {α : Type}, L.holds fun _ => (throw .exhausted : Run (World σ) α)
  sees : ∀ {α : Type} {next : ι → World σ → Run (World σ) α},
    (∀ w, L.holds fun i => next i w) → L.holds fun i => get >>= next i
  clock : ∀ s, L.holds fun _ => (schedulerPart.write s : Run (World σ) Unit)
  start : ∀ d, L.holds fun _ => (modify (·.start d) : Run (World σ) Unit)
  transact : ∀ delayed {writes : ι → Run (World σ) Unit}, inner.holds writes →
    L.holds fun i => transact i delayed (writes i)
  write : ∀ key value, inner.holds fun i => writeKey functions (below i) key value
  apply : ∀ a, inner.holds fun i => applyAssignment functions (below i) a

namespace Orderly

variable {L inner : Law ι (World σ)} {functions : Functions σ} {below : ι → Level σ}
  {transact : ι → Bool → Run (World σ) Unit → Run (World σ) Unit}
  (h : Orderly L inner functions below transact)

include h

theorem fire (deferral : Deferral) :
    L.holds fun i => fireWith (transact i) functions (below i) deferral :=
  L.bind (h.start deferral) fun _ => h.transact true (h.apply deferral.assignment)

theorem readClock {next : ι → Scheduler Binary64 Deferral → Run (World σ) α}
    (hn : ∀ s, L.holds fun i => next i s) : L.holds fun i => schedulerPart.read >>= next i := by
  have hsees : L.holds fun i => get >>= fun w : World σ => next i w.clock.scheduler :=
    h.sees fun w => hn w.clock.scheduler
  exact hsees

theorem advanceTo (deadline : Binary64) (bound : Nat) :
    L.holds fun i => Scheduler.advanceTo schedulerPart
      (fireWith (transact i) functions (below i)) deadline bound := by
  induction bound with
  | zero => exact h.giveUp
  | succ n ih =>
    unfold Scheduler.advanceTo
    refine h.readClock fun s => ?_
    cases s.queue.top? with
    | none => exact L.bind (h.clock _) fun _ => L.answer 0
    | some t =>
      dsimp only
      split
      · split
        · exact L.bind (h.clock _) fun _ => ih
        · exact L.bind (h.clock _) fun _ => L.bind (h.fire _) fun _ =>
            L.bind ih fun _ => L.answer _
      · exact L.bind (h.clock _) fun _ => L.answer 0

theorem advance (bound : Nat) (ms : Binary64) :
    L.holds fun i => Scheduler.advance schedulerPart
      (fireWith (transact i) functions (below i)) bound ms :=
  h.readClock fun _ => h.advanceTo _ bound

theorem runAll (bound rounds : Nat) :
    L.holds fun i => Scheduler.runAll schedulerPart
      (fireWith (transact i) functions (below i)) bound rounds := by
  induction rounds with
  | zero => exact h.giveUp
  | succ n ih =>
    unfold Scheduler.runAll
    refine h.readClock fun s => ?_
    cases s.queue.top? with
    | none => exact L.answer 0
    | some t => exact L.bind (h.advance bound _) fun _ => L.bind ih fun _ => L.answer _

/-- A command that writes obeys the law. -/
theorem exec (bound : Nat) {c : Command} (hc : c.isWrite = true) (callback : c.Input → Act σ) :
    L.holds fun i => execWith (transact i) functions (below i) bound c callback := by
  cases c with
  | setState patch =>
    exact h.transact false (inner.bind (inner.ofExcept (Store.ordinary_patchOf patch))
      fun entries => inner.forM entries fun e _ => h.write e.1 e.2)
  | setValue control value =>
    have hset : L.holds fun i => (if control.isWritable then
          transact i false do writeKey functions (below i) (← .ofExcept control.storage.asKey) value
        else .ofExcept (do .error (.notWritable (← control.id.written)))) := by
      split
      · exact h.transact false (inner.bind (inner.ofExcept (Value.ordinary_asKey _)) fun key =>
          h.write key value)
      · exact L.ofExcept (ordinary_bind (Value.limited_written _).ordinary fun _ =>
          ordinary_error (by simp))
    exact hset
  | advance ms => exact L.bind (L.ofExcept (Value.ordinary_toSpan ms)) fun ms => h.advance bound ms
  | runAll => exact h.runAll bound bound
  | runTimer number =>
    refine h.sees fun w => ?_
    cases w.clock.timer? number with
    | none => exact L.fault (by simp)
    | some deferral => exact h.fire deferral
  | _ => cases hc

end Orderly

/-! ## Manners -/

/-- What is expected of those who deal with a manager. -/
structure Manners (σ : Type) where
  /-- Who starts no transaction while being told of an event, by the number of the subscription. -/
  hushed : Nat → Bool
  /-- May a command be given in a world? -/
  allowed : World σ → Command → Bool := fun _ _ => true
  /-- May an event be told in a world? -/
  settled : World σ → Bool := fun _ => true

namespace Manners

variable (m : Manners σ) (functions : Functions σ)

/-- Tell all listeners of an event. What the hushed ones do is nested in a level of its own. -/
def dispatch (below : Bool → Level σ) (event : Event) : Run (World σ) Unit := do
  modify fun w => { w with events := w.events ++ [event] }
  (← get).listeners.forM fun e => deliver functions (below (!m.hushed e.1)) e.2 event

/-- Run writes as one transaction, if one may be started, or as part of the one that is running. -/
def transaction (below : Bool → Level σ) (may delayed : Bool) (writes : Run (World σ) Unit) :
    Run (World σ) Unit := do
  if (← get).inTransaction then writes
  else if may then
    match ← gather delayed writes with
    | none => return ()
    | some event =>
      if m.settled (← get) then m.dispatch functions below event else throw .exhausted
  else throw .exhausted

/-- How a transaction with manners comes to an end: within another one, without a change, or by
telling of its event. -/
inductive Transacted (below : Bool → Level σ) (may delayed : Bool)
    (writes : Run (World σ) Unit) (w w' : World σ) : Prop
  | within : w.inTransaction = true → writes w = .ok () w' →
      Transacted below may delayed writes w w'
  | unchanged {v} : may = true → w.inTransaction = false →
      writes { w with changes := {}, inTransaction := true } = .ok () v →
      v.changes.isEmpty = true → w' = { v with inTransaction := false } →
      Transacted below may delayed writes w w'
  | told {v} : may = true → w.inTransaction = false →
      writes { w with changes := {}, inTransaction := true } = .ok () v →
      m.settled { v with inTransaction := false } = true →
      m.dispatch functions below (v.changes.toEvent delayed) { v with inTransaction := false } =
        .ok () w' →
      Transacted below may delayed writes w w'

theorem transaction_ok {below : Bool → Level σ} {may delayed : Bool}
    {writes : Run (World σ) Unit} {w w' : World σ}
    (hr : m.transaction functions below may delayed writes w = .ok () w') :
    m.Transacted functions below may delayed writes w w' := by
  unfold transaction at hr
  obtain ⟨_, _, hget, hr⟩ := bind_ok_inv hr
  cases hget
  cases hopen : w.inTransaction with
  | true =>
    rw [hopen] at hr
    exact .within hopen hr
  | false =>
    rw [hopen] at hr
    cases may with
    | false => cases hr
    | true =>
      obtain ⟨event?, u, hgather, hr⟩ := bind_ok_inv hr
      obtain ⟨v, hv, rfl, rfl⟩ := gather_ok hgather
      cases hempty : v.changes.isEmpty with
      | true =>
        rw [hempty] at hr
        cases hr
        exact .unchanged rfl hopen hv hempty rfl
      | false =>
        rw [hempty] at hr
        obtain ⟨_, _, hget, hr⟩ := bind_ok_inv hr
        cases hget
        split at hr
        · rename_i hsettled
          exact .told rfl hopen hv hsettled hr
        · cases hr

/-- A command that is given must be allowed, and must not raise. -/
def politely (c : Command) (act : Run (World σ) α) : Run (World σ) α := fun w =>
  if m.allowed w c then
    match act w with
    | .ok a w' => .ok a w'
    | .error _ w' => .error .exhausted w'
  else .error .exhausted w

/-- What a command does that is given with manners. -/
def exec (below : Bool → Level σ) (may : Bool) (bound : Nat) (c : Command)
    (callback : c.Input → Act σ) : Run (World σ) c.Answer :=
  m.politely c
    (execWith (m.transaction functions below may) functions (below may) bound c callback)

/-- The levels of a manager with manners, on which transactions may be started or not. -/
def level : Nat → Bool → Level σ
  | 0, _ => Manager.level functions 0
  | n + 1, may =>
    ⟨Program.run hostPart (exec m functions (level n) may n), writeKey functions (level n may)⟩

/-- Run a program of the host with manners. -/
def run (bound : Nat) (program : Act σ) : Run (World σ) Value :=
  (m.level functions bound true).act program

/-- The levels with manners and those without. -/
def either (n : Nat) (may : Bool) : Bool → Level σ
  | true => m.level functions n may
  | false => Manager.level functions n

end Manners

theorem Manners.politely_ok {m : Manners σ} {c : Command} {act : Run (World σ) α} {w w' : World σ}
    {a : α} (h : m.politely c act w = .ok a w') : m.allowed w c = true ∧ act w = .ok a w' := by
  unfold politely at h
  split at h
  · rename_i hallowed
    split at h
    · rename_i a' v hr
      cases h
      exact ⟨hallowed, hr⟩
    · cases h
  · cases h

theorem Manners.politely_error {m : Manners σ} {c : Command} {act : Run (World σ) α}
    {w w' : World σ} {f : Fault} (h : m.politely c act w = .error f w') : f = .exhausted := by
  unfold politely at h
  split at h
  · split at h <;> cases h
    rfl
  · cases h
    rfl

/-! ## What comes to an end is what every manager does -/

/-- Does a computation do what the other one does, unless it breaks off? -/
def Erases (act plain : Run (World σ) α) : Prop :=
  ∀ w, act w = plain w ∨ ∃ w', act w = .error .exhausted w'

theorem erases_refl (act : Run (World σ) α) : Erases act act := guarded_refl act

theorem erases_bind {act plain : Run (World σ) α} {next plainly : α → Run (World σ) β}
    (h : Erases act plain) (hn : ∀ a, Erases (next a) (plainly a)) :
    Erases (act >>= next) (plain >>= plainly) := guarded_bind h hn

theorem erases_sees {next plainly : World σ → Run (World σ) α}
    (h : ∀ w, Erases (next w) (plainly w)) : Erases (get >>= next) (get >>= plainly) :=
  guarded_get h

theorem erases_ensuring {act plain : Run (World σ) α} {change : World σ → World σ}
    (h : Erases act plain) : Erases (act.ensuring change) (plain.ensuring change) := by
  intro w
  simp only [Run.ensuring_eq]
  rcases h w with h | ⟨w', h⟩
  · exact .inl (congrArg _ h)
  · exact .inr ⟨_, congrArg _ h⟩

/-- To break off or do the same is a law of pairs of computations. -/
def erasing : Law Bool (World σ) where
  holds act := Erases (act true) (act false)
  answer _ := erases_refl _
  fault _ := erases_refl _
  bind := erases_bind

theorem erases_attempt {act : Bool → Run (World σ) α}
    {next : Bool → Except Fault α → Run (World σ) β} (h : erasing.holds act)
    (hn : ∀ r, Ordinary r → erasing.holds fun b => next b r) :
    erasing.holds fun b => (act b).outcome >>= next b := by
  intro w
  rcases h w with h | ⟨w', h⟩
  · cases hr : act false w with
    | ok a v =>
      dsimp only
      rw [bind_ok (outcome_ok (h.trans hr)), bind_ok (outcome_ok hr)]
      exact hn _ (ordinary_ok a) v
    | error f v =>
      by_cases hf : f = .exhausted
      · subst hf
        exact .inr ⟨v, bind_error (outcome_exhausted (h.trans hr))⟩
      · dsimp only
        rw [bind_ok (outcome_error (h.trans hr) hf), bind_ok (outcome_error hr hf)]
        exact hn _ (ordinary_error hf) v
  · exact .inr ⟨w', bind_error (outcome_exhausted h)⟩

theorem erasing_regime : Regime (erasing : Law Bool (World σ)) fun _ => True where
  sees _ hn := erases_sees fun w => hn w fun _ _ _ => trivial
  attempt := erases_attempt
  signals _ := erases_refl _
  computing _ := erases_refl _
  computed _ := erases_ensuring
  subscribed _ := erases_refl _
  connected _ := erases_refl _
  unsubscribed _ := erases_refl _
  control _ _ := erases_refl _
  assignment _ _ _ := erases_refl _
  dispose := erases_refl _

theorem erasing_admits : Regime.Admits (erasing : Law Bool (World σ)) fun _ => True where
  fail _ := erases_refl _
  note _ := erases_refl _
  noted _ _ := trivial
  callback _ _ := trivial
  next _ _ _ := trivial

section

variable {functions : Functions σ} {below : Bool → Level σ}

theorem erasing_serves (hact : ∀ p, erasing.holds fun b => (below b).act p) :
    Serves erasing functions below where
  fresh := erases_refl _
  context := erases_refl _
  call f args := by
    cases f with
    | randomInt =>
      intro w
      simp only [callFunction_randomInt]
      exact .inl trivial
    | now =>
      cases args with
      | nil => exact erases_refl _
      | cons v rest => exact erases_refl _
    | host name => exact erasing.bind (erases_refl _) fun _ => hact _

theorem erases_writeKey (hact : ∀ p, erasing.holds fun b => (below b).act p)
    (hwrite : ∀ key value, erasing.holds fun b => (below b).write key value) (key : Scalar)
    (value : Value) : erasing.holds fun b => writeKey functions (below b) key value := by
  have hfollows : Follows (erasing : Law Bool (World σ)) :=
    ⟨fun _ => erases_refl _, fun _ => erases_refl _, fun _ _ => erases_refl _,
      fun _ => erases_refl _⟩
  have hchange : ∀ change, erasing.holds fun b => onChange functions (below b) change :=
    fun change => erasing.bind (erases_refl _) fun _ => erases_ensuring
      (hfollows.followUp (fun _ => erases_refl _)
        ((erasing_serves hact).applyAssignment hwrite) change)
  intro w
  dsimp only
  rw [writeKey_eq_forM, writeKey_eq_forM]
  cases (w.store.read key).strictEquals value with
  | true => exact .inl rfl
  | false => exact erasing.forM (w.store.hearers key) (fun _ _ => hchange _) _

end

namespace Manners

variable {m : Manners σ} {functions : Functions σ}

/-- At the levels below all computations do the same or break off. -/
structure Erased (m : Manners σ) (functions : Functions σ) (n : Nat) : Prop where
  act : ∀ may p, erasing.holds fun b => (m.either functions n may b).act p
  write : ∀ may key value, erasing.holds fun b => (m.either functions n may b).write key value

namespace Erased

variable {n : Nat} (h : m.Erased functions n)

include h

theorem dispatch (event : Event) :
    Erases (m.dispatch functions (m.level functions n) event)
      (Manager.dispatch functions (Manager.level functions n) event) := by
  have htell : ∀ listeners : List (Nat × Listener σ), erasing.holds fun b => listeners.forM fun e =>
      deliver functions (m.either functions n (!m.hushed e.1) b) e.2 event :=
    fun listeners => erasing.forM _ fun e _ =>
      erasing_regime.deliver (erasing_serves (h.act _)) (fun p _ => h.act _ p)
        (by cases e.2 <;> simp [Listener.Admitted]) event
  refine erases_bind (erases_refl _) fun _ => erases_sees fun w => ?_
  have hvalues : ∀ act : Listener σ → Run (World σ) Unit,
      w.listeners.values.forM act = w.listeners.forM fun e => act e.2 :=
    fun act => List.forM_map
  rw [hvalues]
  exact htell w.listeners

theorem transaction (may delayed : Bool) {writes plainly : Run (World σ) Unit}
    (hw : Erases writes plainly) :
    Erases (m.transaction functions (m.level functions n) may delayed writes)
      (Manager.transaction functions (Manager.level functions n) delayed plainly) := by
  refine erases_sees fun w => ?_
  split
  · exact hw
  · cases may with
    | false => exact fun w => .inr ⟨w, rfl⟩
    | true =>
      refine erases_bind ?_ fun event? => ?_
      · exact erases_bind (erases_refl _) fun _ => erases_bind (erases_ensuring hw) fun _ =>
          erases_refl _
      · cases event? with
        | none => exact erases_refl _
        | some event =>
          intro w
          by_cases hs : m.settled w = true
          · have hget : (get : Run (World σ) (World σ)) w = .ok w w := rfl
            dsimp only
            rw [bind_ok hget, if_pos hs]
            exact h.dispatch event w
          · have hget : (get : Run (World σ) (World σ)) w = .ok w w := rfl
            dsimp only
            rw [bind_ok hget, if_neg hs]
            exact .inr ⟨w, rfl⟩

theorem orderly (may : Bool) : Orderly erasing erasing functions (m.either functions n may) fun
    | true => m.transaction functions (m.level functions n) may
    | false => Manager.transaction functions (Manager.level functions n) where
  giveUp := erases_refl _
  sees := erases_sees
  clock _ := erases_refl _
  start _ := erases_refl _
  transact delayed _ hw := h.transaction may delayed hw
  write := erases_writeKey (h.act may) (h.write may)
  apply := (erasing_serves (h.act may)).applyAssignment (h.write may)

theorem exec (may : Bool) (c : Command) (callback : c.Input → Act σ) :
    Erases (m.exec functions (m.level functions n) may n c callback)
      (Manager.exec functions (Manager.level functions n) n c callback) := by
  have hexec : Erases (execWith (m.transaction functions (m.level functions n) may) functions
        (m.level functions n may) n c callback)
      (Manager.exec functions (Manager.level functions n) n c callback) := by
    cases hc : c.isWrite with
    | true =>
      have horderly := (h.orderly may).exec n hc callback
      rw [← execWith_transaction]
      exact horderly
    | false =>
      rw [execWith_of_reading hc]
      exact erasing_regime.exec (erasing_serves (h.act may)) (fun _ => n) hc (fun _ => trivial)
        fun _ => h.act may _
  intro w
  unfold Manners.exec politely
  split
  · rcases hexec w with hr | ⟨w', hr⟩
    · rw [hr]
      cases Manager.exec functions (Manager.level functions n) n c callback w with
      | ok a w' => exact .inl rfl
      | error f w' => exact .inr ⟨w', rfl⟩
    · rw [hr]
      exact .inr ⟨w', rfl⟩
  · exact .inr ⟨w, rfl⟩

end Erased

theorem erased (m : Manners σ) (functions : Functions σ) (n : Nat) : m.Erased functions n := by
  induction n with
  | zero => exact ⟨fun _ _ => erases_refl _, fun _ _ _ => erases_refl _⟩
  | succ n ih =>
    have hwrite : ∀ may key value, erasing.holds fun b =>
        writeKey functions (m.either functions n may b) key value :=
      fun may => erases_writeKey (ih.act may) (ih.write may)
    refine ⟨fun may p => ?_, hwrite⟩
    let obey : Bool → (c : Command) → (c.Input → Act σ) → Run (World σ) c.Answer
      | true => m.exec functions (m.level functions n) may n
      | false => Manager.exec functions (Manager.level functions n) n
    have hobey : ∀ c callback, erasing.holds fun b => obey b c callback := ih.exec may
    have hprogram : erasing.holds fun b => p.run hostPart (obey b) :=
      erasing_regime.program erasing_admits (fun {c callback _} _ _ hnext =>
        erases_attempt (hobey c callback) hnext) trivial
    exact hprogram

/-- Without nesting nothing is called, so that deeper nesting makes no difference. -/
theorem erases_evaluateNow_unnested (functions : Functions σ) (n : Nat) (e : Expr) :
    Erases (evaluateNow functions (Manager.level functions 0) e)
      (evaluateNow functions (Manager.level functions n) e) := by
  let below : Bool → Level σ := fun nothing => Manager.level functions (if nothing then 0 else n)
  have hact : ∀ p, erasing.holds fun b => (below b).act p := fun p w => .inr ⟨w, rfl⟩
  exact (erasing_serves hact).evaluateNow e

/-- What an expression is evaluated to is what every manager evaluates it to. -/
theorem evaluateNow_ok (m : Manners σ) {functions : Functions σ} {n : Nat} {may : Bool} {e : Expr}
    {w w' : World σ} {v : Value}
    (h : evaluateNow functions (m.level functions n may) e w = .ok v w') :
    ∃ n, evaluateNow functions (Manager.level functions (n + 1)) e w = .ok v w' := by
  cases n with
  | zero =>
    rcases erases_evaluateNow_unnested functions 1 e w with hr | ⟨u, hr⟩
    · exact ⟨0, hr.symm.trans h⟩
    · cases hr.symm.trans h
  | succ n =>
    have hact := (m.erased functions (n + 1)).act may
    rcases (erasing_serves hact).evaluateNow e w with hr | ⟨u, hr⟩
    · exact ⟨n, hr.symm.trans h⟩
    · cases hr.symm.trans h

/-- A run with manners that comes to an end is one of the manager. -/
theorem run_ok {bound : Nat} {p : Act σ} {w w' : World σ} {v : Value}
    (h : m.run functions bound p w = .ok v w') : Manager.run functions bound p w = .ok v w' := by
  rcases (m.erased functions bound).act true p w with hr | ⟨v, hr⟩
  · exact hr.symm.trans h
  · cases hr.symm.trans h

end Manners

end Switchboard.Manager
