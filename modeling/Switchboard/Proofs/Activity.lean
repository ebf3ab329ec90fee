-- What every activity of a manager does to its world. A discipline is a conduct that the single
-- writes, transactions and registrations of a manager keep to; then all that is built of them
-- does: cascades, signals, timers, commands and the programs of a host, however deep they nest.
import Switchboard.Manager.Exec
import Switchboard.Proofs.Conduct
namespace Switchboard.Manager

open World Conduct

variable {σ : Type}

/-- The part of a world that statements about a manager speak of. The rest serves the host, the
clock and the signals. -/
structure Core where
  config : Config
  context : Dict Scalar Value
  store : Store Unit
  controls : List Control
  readLinks : Dict Scalar (List Control)
  assignments : Dict Scalar (Dict Scalar Assignment)
  changes : ChangeSet
  events : List Event
  inTransaction : Bool
  depth : Nat

def World.core (w : World σ) : Core :=
  ⟨w.config, w.context, w.store, w.controls, w.readLinks, w.assignments, w.changes, w.events,
    w.inTransaction, w.depth⟩

/-- Does nothing but what serves the host, the clock and the signals change? Identities may be given
out. -/
def World.Aside (w w' : World σ) : Prop := w'.core = w.core ∧ w.nextIdentity ≤ w'.nextIdentity

/-- Does nothing change but what evaluations and deferrals use up? -/
def World.Spent (w w' : World σ) : Prop :=
  ∃ generator clock pending nextDeferral nextIdentity host,
    w' = { w with
      generator := generator
      clock := clock
      pending := pending
      nextDeferral := nextDeferral
      nextIdentity := nextIdentity
      host := host } ∧ w.nextIdentity ≤ nextIdentity

theorem World.Spent.aside {w w' : World σ} (h : w.Spent w') : w.Aside w' := by
  obtain ⟨_, _, _, _, _, _, rfl, hi⟩ := h
  exact ⟨rfl, hi⟩

theorem World.Spent.refl (w : World σ) : w.Spent w :=
  ⟨_, _, _, _, _, _, rfl, Nat.le_refl _⟩

/-- A manager with another limit of depth. -/
def World.limited (limit : Option Int) (w : World σ) : World σ :=
  { w with config := { w.config with maxDepth := limit } }

/-- A world with an assignment handed to the clock. -/
def World.deferred (w : World σ) (a : Assignment) (delay : Binary64) : World σ :=
  let timer := w.clock.later delay ⟨w.nextDeferral, a⟩
  { w with
    clock := timer.2
    nextDeferral := w.nextDeferral + 1
    pending := w.pending ++ [⟨⟨w.nextDeferral, a⟩, timer.1⟩] }

/-! ## What evaluations and cascades do by themselves -/

/-- Is a computation one that no limit matters for, which does not use up the bound and leaves a
manager in a state so related to the one before? -/
structure Moves (related : World σ → World σ → Prop) {α : Type} (act : Run (World σ) α) :
    Prop where
  finishes : ∀ w, Finishes (act w)
  related : ∀ w, related w (Run.ending (act w))
  same : ∀ limit w, act (w.limited limit) = Run.mapEnd (World.limited limit) (act w)

/-- It is one if it asks for something that no limit matters for, and goes by the answer. -/
theorem moves_by_answer {related : World σ → World σ → Prop} {α β : Type} {act : Run (World σ) α}
    (ask : World σ → Except Fault β) (answer : β → α) (next : β → World σ → World σ)
    (hok : ∀ w b, ask w = .ok b → act w = .ok (answer b) (next b w))
    (herror : ∀ w f, ask w = .error f → act w = .error f w)
    (hask : ∀ w, Ordinary (ask w)) (hrefl : ∀ w, related w w)
    (hnext : ∀ b w, related w (next b w)) (hsame : ∀ limit w, ask (w.limited limit) = ask w)
    (hlimited : ∀ limit b w, next b (w.limited limit) = (next b w).limited limit) :
    Moves related act := by
  refine ⟨fun w => ?_, fun w => ?_, fun limit w => ?_⟩ <;> cases hr : ask w with
  | ok b => _
  | error f => _
  · rw [hok w b hr]
    trivial
  · rw [herror w f hr]
    exact fun hf => hask w (by rw [hr, hf])
  · rw [hok w b hr]
    exact hnext b w
  · rw [herror w f hr]
    exact hrefl w
  · rw [hok w b hr, hok _ b ((hsame limit w).trans hr), hlimited]
    rfl
  · rw [herror w f hr, herror _ f ((hsame limit w).trans hr)]
    rfl

theorem moves_fresh : Moves World.Spent (fresh : Run (World σ) Nat) :=
  ⟨fun _ => trivial, fun w => ⟨_, _, _, _, _, _, rfl, Nat.le_succ w.nextIdentity⟩,
    fun _ _ => rfl⟩

theorem moves_contextNow : Moves World.Spent (contextNow : Run (World σ) Value) :=
  ⟨fun _ => trivial, fun w => ⟨_, _, _, _, _, _, rfl, Nat.le_succ w.nextIdentity⟩,
    fun _ _ => rfl⟩

theorem moves_randomInt (functions : Functions σ) (below : Level σ) (args : List Value) :
    Moves World.Spent (callFunction functions below .randomInt args) := by
  refine moves_by_answer (fun w => Generator.roll args w.generator) (fun r => .int r.1)
    (fun r w => { w with generator := r.2 }) (fun w r hr => ?_) (fun w f hr => ?_)
    (fun w => Generator.ordinary_roll args w.generator) Spent.refl
    (fun _ _ => ⟨_, _, _, _, _, _, rfl, Nat.le_refl _⟩) (fun _ _ => rfl) fun _ _ _ => rfl
  · rw [callFunction_randomInt, hr]
  · rw [callFunction_randomInt, hr]

theorem moves_now (functions : Functions σ) (below : Level σ) :
    Moves World.Spent (callFunction functions below .now []) :=
  ⟨fun _ => trivial, Spent.refl, fun _ _ => rfl⟩

theorem defer_eq (a : Assignment) (w : World σ) :
    defer a w = match w.clock.delayOf a.timeout with
      | .ok delay => .ok () (w.deferred a delay)
      | .error f => .error f w := by
  have hget : (get : Run (World σ) (World σ)) w = .ok w w := rfl
  unfold defer
  rw [bind_ok hget]
  cases w.clock.delayOf a.timeout with
  | ok delay => rfl
  | error f => rfl

theorem moves_defer (a : Assignment) : Moves World.Spent (defer a : Run (World σ) Unit) := by
  refine moves_by_answer (fun w => w.clock.delayOf a.timeout) (fun _ => ())
    (fun delay w => w.deferred a delay) (fun w delay hd => ?_) (fun w f hd => ?_)
    (fun w => Clock.ordinary_delayOf w.clock a.timeout) Spent.refl
    (fun _ _ => ⟨_, _, _, _, _, _, rfl, Nat.le_refl _⟩) (fun _ _ => rfl) fun _ _ _ => rfl
  · rw [defer_eq, hd]
  · rw [defer_eq, hd]

/-- Is nothing but the change set another? -/
def World.Noted (w w' : World σ) : Prop := ∃ changes, w' = { w with changes := changes }

theorem moves_record (change : Change) : Moves World.Noted
    (modify fun w => { w with changes := w.changes.record change } : Run (World σ) Unit) :=
  ⟨fun _ => trivial, fun _ => ⟨_, rfl⟩, fun _ _ => rfl⟩

theorem moves_listening (key : Scalar) : Moves World.Noted
    (do return (← get).listeningTo key : Run (World σ) (List Assignment)) :=
  ⟨fun _ => trivial, fun _ => ⟨_, rfl⟩, fun _ _ => rfl⟩

theorem addTargets_eq (ids : List Value) (w : World σ) :
    addTargets ids w = (Run.ofExcept (w.changes.addTargets ids).2 : Run (World σ) Unit)
      { w with changes := (w.changes.addTargets ids).1 } := rfl

theorem moves_addTargets (key : Scalar) (assignments : List Assignment) : Moves World.Noted
    (do addTargets ((← get).affected key assignments) : Run (World σ) Unit) := by
  have hact : ∀ w : World σ, (do addTargets ((← get).affected key assignments) :
      Run (World σ) Unit) w = addTargets (w.affected key assignments) w := fun _ => rfl
  have hids := fun w : World σ =>
    ChangeSet.ordinary_addTargets w.changes (w.affected key assignments)
  refine ⟨fun w => ?_, fun w => ?_, fun limit w => ?_⟩
  · rw [hact, addTargets_eq]
    cases hr : (w.changes.addTargets (w.affected key assignments)).2 with
    | ok u => trivial
    | error f => exact fun hf => hids w (by rw [hr, hf])
  · rw [hact, addTargets_eq]
    cases (w.changes.addTargets (w.affected key assignments)).2 <;> exact ⟨_, rfl⟩
  · rw [hact, hact, addTargets_eq, addTargets_eq]
    change (Run.ofExcept (w.changes.addTargets (w.affected key assignments)).2 :
      Run (World σ) Unit) _ = _
    cases (w.changes.addTargets (w.affected key assignments)).2 <;> rfl

section

variable {ι : Type} {L : Law ι (World σ)} {functions : Functions σ} {below : ι → Level σ}

/-- Evaluations obey a law that calls of the host obey, if it does not matter what they use up. -/
theorem serves_of_moves
    (hspent : ∀ {α : Type} {act : Run (World σ) α}, Moves World.Spent act → L.holds fun _ => act)
    (hact : ∀ name identity args,
      L.holds fun i => (below i).act (functions name identity args)) :
    Serves L functions below := by
  refine ⟨hspent moves_fresh, hspent moves_contextNow, fun f args => ?_⟩
  cases f with
  | randomInt => exact hspent (moves_randomInt functions (level functions 0) args)
  | now =>
    cases args with
    | nil => exact hspent (moves_now functions (level functions 0))
    | cons a rest => exact L.fault nofun
  | host name => exact L.bind (hspent moves_fresh) fun identity => hact name identity args

theorem follows_of_moves
    (hspent : ∀ {α : Type} {act : Run (World σ) α}, Moves World.Spent act → L.holds fun _ => act)
    (hnoted : ∀ {α : Type} {act : Run (World σ) α}, Moves World.Noted act → L.holds fun _ => act) :
    Follows L where
  record change := hnoted (moves_record change)
  listening key := hnoted (moves_listening key)
  addTargets key assignments := hnoted (moves_addTargets key assignments)
  defer a := hspent (moves_defer a)

end

/-- A transaction is closed when its writes are over, and then its changes are known. -/
theorem gather_eq (delayed : Bool) (writes : Run (World σ) Unit) (w : World σ) :
    gather delayed writes w =
      match writes { w with changes := {}, inTransaction := true } with
      | .ok _ v => .ok (if v.changes.isEmpty then none else some (v.changes.toEvent delayed))
          { v with inTransaction := false }
      | .error f v => .error f { v with inTransaction := false } := by
  have hmodify : (modify fun w => { w with changes := {}, inTransaction := true } :
      Run (World σ) Unit) w = .ok () { w with changes := {}, inTransaction := true } := rfl
  unfold gather
  rw [bind_ok hmodify]
  cases hr : writes { w with changes := {}, inTransaction := true } with
  | ok a v =>
    have hclose : writes.ensuring (fun w => { w with inTransaction := false })
        { w with changes := {}, inTransaction := true } =
          .ok a { v with inTransaction := false } := by
      unfold Run.ensuring
      rw [hr]
    rw [bind_ok hclose]
    rfl
  | error f v =>
    have hclose : writes.ensuring (fun w => { w with inTransaction := false })
        { w with changes := {}, inTransaction := true } =
          .error f { v with inTransaction := false } := by
      unfold Run.ensuring
      rw [hr]
    rw [bind_error hclose]

theorem gather_ok {delayed : Bool} {writes : Run (World σ) Unit} {w w₁ : World σ}
    {event? : Option Event} (h : gather delayed writes w = .ok event? w₁) :
    ∃ v, writes { w with changes := {}, inTransaction := true } = .ok () v ∧
      w₁ = { v with inTransaction := false } ∧
      event? = if v.changes.isEmpty then none else some (v.changes.toEvent delayed) := by
  rw [gather_eq] at h
  split at h
  · rename_i v hv
    cases h
    exact ⟨v, hv, rfl, rfl⟩
  · cases h

theorem gather_error {delayed : Bool} {writes : Run (World σ) Unit} {w w₁ : World σ} {f : Fault}
    (h : gather delayed writes w = .error f w₁) :
    ∃ v, writes { w with changes := {}, inTransaction := true } = .error f v ∧
      w₁ = { v with inTransaction := false } := by
  rw [gather_eq] at h
  split at h
  · cases h
  · rename_i v hv
    cases h
    exact ⟨v, hv, rfl⟩

/-! ## Following up a change -/

section

variable {c : Conduct (World σ)} {functions : Functions σ} {below : Level σ}

theorem keeps_checkDepth (key : Scalar) : c.Keeps (checkDepth key : Run (World σ) Unit) := by
  refine keeps_get fun w => ?_
  split
  · exact keeps_pure _
  · split
    · exact keeps_throw _
    · exact keeps_pure _

theorem keeps_of_moves {related : World σ → World σ → Prop} {α : Type} {act : Run (World σ) α}
    (hr : ∀ {w w' : World σ}, related w w' → c.good w w') (h : Moves related act) :
    c.Keeps act := by
  intro w
  have hgood := hr (h.related w)
  refine keepsAt_of (fun a w' ha => ?_) fun f w' hf => ?_
  · rw [ha] at hgood
    exact hgood
  · rw [hf] at hgood
    exact c.leave (c.giveUp w) hgood

theorem keeps_defer (hspent : ∀ {w w' : World σ}, w.Spent w' → c.good w w') (a : Assignment) :
    c.Keeps (defer a : Run (World σ) Unit) := keeps_of_moves hspent (moves_defer a)

/-- Evaluations keep to a conduct if calls of the host do, and if it does not matter what they use
up. -/
theorem serves_of_spent (hspent : ∀ {w w' : World σ}, w.Spent w' → c.good w w')
    (hact : ∀ name identity args, c.Keeps (below.act (functions name identity args))) :
    Serves c.toLaw functions fun _ => below :=
  serves_of_moves (keeps_of_moves hspent) hact

/-- Following up a change keeps to a conduct that applying assignments keeps to, if it does not
matter what becomes of the change set. -/
theorem keeps_followUp
    (hchanges : ∀ (w : World σ) changes, c.good w { w with changes := changes })
    (hspent : ∀ {w w' : World σ}, w.Spent w' → c.good w w')
    (ha : ∀ a, c.Keeps (applyAssignment functions below a)) (change : Change) :
    c.Keeps (followUp functions below change) := by
  have hfollows : Follows c.toLaw :=
    follows_of_moves (keeps_of_moves hspent) (keeps_of_moves fun ⟨changes, hr⟩ => by
      rw [hr]
      exact hchanges _ changes)
  exact @Follows.followUp Unit σ c.toLaw functions (fun _ => below) hfollows keeps_checkDepth ha
    change

/-- Applying assignments keeps to a conduct, however deep writes nest, if a write does so where the
assignments that it sets off do. -/
theorem keeps_applyAssignment_level (hspent : ∀ {w w' : World σ}, w.Spent w' → c.good w w')
    (hact : ∀ n name identity args,
      c.Keeps ((level functions n).act (functions name identity args)))
    (hwrite : ∀ {below : Level σ}, (∀ a, c.Keeps (applyAssignment functions below a)) →
      ∀ key value, c.Keeps (writeKey functions below key value)) (n : Nat) (a : Assignment) :
    c.Keeps (applyAssignment functions (level functions n) a) := by
  have hwrites : ∀ key value, c.Keeps ((level functions n).write key value) := by
    induction n with
    | zero => exact fun _ _ => keeps_throw _
    | succ n ih => exact hwrite fun a => (serves_of_spent hspent (hact n)).applyAssignment ih a
  exact (serves_of_spent hspent (hact n)).applyAssignment hwrites a

end

/-! ## Programs that give no commands -/

/-- Does a program nothing but change the host? -/
def Silent : Act σ → Prop
  | .done _ | .fail _ => True
  | .note _ next => ∀ s, Silent (next s)
  | .perform .. => False

theorem keeps_silent {c : Conduct (World σ)}
    (hspent : ∀ {w w' : World σ}, w.Spent w' → c.good w w') {functions : Functions σ} {p : Act σ}
    (hp : Silent p) (n : Nat) : c.Keeps ((level functions n).act p) := by
  cases n with
  | zero => exact keeps_throw _
  | succ n =>
    change c.Keeps (p.run hostPart (exec functions (level functions n) n))
    induction p with
    | done result => exact keeps_pure _
    | fail f => exact keeps_throw f
    | note change next ih =>
      refine keeps_bind (fun w => hspent ⟨_, _, _, _, _, _, rfl, Nat.le_refl _⟩) fun _ => ?_
      exact keeps_bind (keeps_read _) fun s => ih s (hp s)
    | perform command callback next => exact hp.elim

/-! ## Kinds of commands -/

/-- Does a command write the state, or may it run a deferral that does? -/
def Command.isWrite : Command → Bool
  | setState _ | setValue .. | advance _ | runAll | runTimer _ => true
  | _ => false

/-! ## Programs that hide no fault -/

/-- A command that catches no fault of what it runs and leaves the manager in place. -/
def Command.isPlain : Command → Bool
  | dispose | effect .. => false
  | _ => true

/-- A program of plain commands that ends in the fault that a command of it ends in. -/
def Candid : Act σ → Prop
  | .done _ | .fail _ => True
  | .note _ next => ∀ s, Candid (next s)
  | .perform command _ next =>
    command.isPlain = true ∧ (∀ f, next (.error f) = .fail f) ∧ ∀ a, Candid (next (.ok a))

structure Discipline (functions : Functions σ) extends Conduct (World σ) where
  /-- Is the conduct one that faults can be caught under, and a manager disposed of? If not, it
  speaks only of what happens inside a transaction. -/
  lenient : Prop
  caught : lenient → ∀ {a b}, bad a b → good a b
  outside : ¬ lenient → ∀ {w w' : World σ}, w.inTransaction = false → good w w' ∧ bad w w'
  quiet : ∀ {w w' : World σ}, w.Aside w' → good w w'
  control : ∀ (w : World σ) {serial id runtime control reads},
    Control.make serial id runtime = .ok control → control.reads = .ok reads →
    good w (w.linkControl control reads)
  assignment : ∀ (w : World σ) a names, good w (w.linkAssignment a names)
  dispose : lenient → ∀ w : World σ, good w w.dispose
  event : lenient → ∀ (w : World σ) e, w.inTransaction = false →
    good w { w with events := w.events ++ [e] }
  gather : lenient → ∀ delayed {writes : Run (World σ) Unit}, toConduct.Keeps writes →
    ∀ w : World σ, w.inTransaction = false → toConduct.KeepsAt (Manager.gather delayed writes) w
  write : ∀ {below : Level σ}, (∀ a, toConduct.Keeps (applyAssignment functions below a)) →
    ∀ key value, toConduct.Keeps (writeKey functions below key value)

namespace Discipline

variable {functions : Functions σ} {d : Discipline functions} {below : Level σ}

/-- Is a program one that the discipline speaks of? -/
def Admits (d : Discipline functions) (p : Act σ) : Prop := d.lenient ∨ Candid p

/-- What is nested keeps to the discipline. -/
structure Supports (d : Discipline functions) (below : Level σ) : Prop where
  act : ∀ p, d.Admits p → d.Keeps (below.act p)
  write : ∀ key value, d.Keeps (below.write key value)
  functions : ∀ name identity args, d.Admits (functions name identity args)

theorem keeps_modify {change : World σ → World σ} (h : ∀ w : World σ, w.Aside (change w)) :
    d.Keeps (modify change : Run (World σ) Unit) := fun w => d.quiet (h w)

theorem keeps_updateSignals (change : Signals (Value → Act σ) → Signals (Value → Act σ)) :
    d.Keeps (signalsPart.update change) := fun _ => d.quiet ⟨rfl, Nat.le_refl _⟩

theorem keeps_writeSignals (s : Signals (Value → Act σ)) : d.Keeps (signalsPart.write s) :=
  fun _ => d.quiet ⟨rfl, Nat.le_refl _⟩

/-! ## Evaluation and cascades -/

theorem serves (hb : d.Supports below) : Serves d.toLaw functions fun _ => below :=
  serves_of_spent (fun h => d.quiet h.aside) fun name identity args =>
    hb.act _ (hb.functions name identity args)

theorem keeps_evaluateNow (hb : d.Supports below) (e : Expr) :
    d.Keeps (evaluateNow functions below e) :=
  (serves hb).evaluateNow e

theorem keeps_applyAssignment (hb : d.Supports below) (a : Assignment) :
    d.Keeps (applyAssignment functions below a) :=
  (serves hb).applyAssignment hb.write a

theorem keeps_writeKey (hb : d.Supports below) (key : Scalar) (value : Value) :
    d.Keeps (writeKey functions below key value) :=
  d.write (keeps_applyAssignment hb) key value

theorem keeps_writePatch (hb : d.Supports below) (patch : List (Scalar × Value)) :
    d.Keeps (writePatch functions below patch) :=
  keeps_forM patch fun e _ => keeps_writeKey hb e.1 e.2

/-! ## Signals -/

/-- What is caught must be allowed to be caught. -/
theorem keeps_outcome {α : Type} {act : Run (World σ) α} (hl : d.lenient) (h : d.Keeps act) :
    d.Keeps act.outcome := fun w => keepsAt_outcome (h w) (d.caught hl)

theorem keeps_compute (hb : d.Supports below) (number : Nat) (x : Derived) :
    d.Keeps (compute functions below number x) := by
  refine keeps_get fun w => ?_
  have hk : d.Keeps (do
      modify fun u => { u with computing := number :: w.computing }
      (evaluateNow functions below x.expression).ensuring fun u =>
        { u with computing := w.computing }) :=
    keeps_bind (keeps_modify fun _ => ⟨rfl, Nat.le_refl _⟩) fun _ v =>
      keepsAt_ensuring (keeps_evaluateNow hb x.expression v) fun _ => d.quiet ⟨rfl, Nat.le_refl _⟩
  cases hc : w.computing.contains number with
  | true =>
    simp only [hc, if_true]
    exact keeps_bind (keeps_throw _) fun _ => hk
  | false =>
    simp only [hc, Bool.false_eq_true, if_false]
    exact hk

theorem keeps_readComputed (hb : d.Supports below) (number : Nat) :
    d.Keeps (readComputed functions below number) := by
  refine keeps_bind (keeps_read _) fun signals => ?_
  split
  · exact keeps_throw _
  · split
    · exact keeps_pure _
    · exact keeps_bind (keeps_compute hb _ _) fun _ =>
        keeps_bind (keeps_updateSignals _) fun _ => keeps_pure _

theorem keeps_perform (hl : d.lenient) (hb : d.Supports below) (number : Nat) :
    d.Keeps (perform functions below number) := by
  refine keeps_bind (keeps_read _) fun signals => ?_
  split
  · exact keeps_pure _
  · refine keeps_bind (keeps_updateSignals _) fun _ => ?_
    refine keeps_bind (keeps_outcome hl ?_) fun _ => keeps_pure _
    exact keeps_bind (keeps_readComputed hb _) fun _ =>
      keeps_bind (keeps_updateSignals _) fun _ => hb.act _ (.inl hl)

theorem keeps_isDue (hl : d.lenient) (hb : d.Supports below)
    (effect : Effect (Value → Act σ)) : d.Keeps (isDue functions below effect) := by
  refine keeps_bind (keeps_read _) fun signals => ?_
  split
  · exact keeps_pure _
  · refine keeps_bind (keeps_outcome hl (keeps_readComputed hb _)) fun r => ?_
    cases r with
    | error f => exact keeps_pure _
    | ok v => exact keeps_bind (keeps_read _) fun _ => keeps_pure _

theorem keeps_refresh (hl : d.lenient) (hb : d.Supports below) (number : Nat) :
    d.Keeps (refresh functions below number) := by
  refine keeps_bind (keeps_read _) fun signals => ?_
  split
  · exact keeps_pure _
  · refine keeps_bind (keeps_isDue hl hb _) fun due => ?_
    cases due with
    | false => exact keeps_pure _
    | true => exact keeps_perform hl hb _

theorem keeps_followKey (hl : d.lenient) (hb : d.Supports below) (bridge : Nat) (key : Scalar)
    (value : Value) : d.Keeps (followKey functions below bridge key value) := by
  refine keeps_bind (keeps_read _) fun signals => ?_
  split
  · exact keeps_pure _
  · split
    · exact keeps_pure _
    · refine keeps_get fun w => ?_
      dsimp only
      split
      · exact keeps_bind (keeps_throw _) fun _ => keeps_bind (keeps_writeSignals _) fun _ =>
          keeps_forM _ fun n _ => keeps_refresh hl hb n
      · exact keeps_bind (keeps_writeSignals _) fun _ =>
          keeps_forM _ fun n _ => keeps_refresh hl hb n

theorem keeps_cellsFor (bridge : Nat) (names : List Scalar) :
    d.Keeps (cellsFor bridge names : Run (World σ) (List Nat)) :=
  keeps_mapM names fun _ => keeps_get fun _ =>
    keeps_bind (keeps_writeSignals _) fun _ => keeps_pure _

theorem keeps_derive (bridge : Nat) (expression : Value) :
    d.Keeps (derive bridge expression : Run (World σ) Nat) :=
  keeps_bind (keeps_ofExcept _) fun _ => keeps_bind (keeps_ofExcept _) fun _ =>
    keeps_bind (keeps_cellsFor bridge _) fun _ => keeps_bind (keeps_read _) fun _ =>
      keeps_bind (keeps_writeSignals _) fun _ => keeps_pure _

theorem keeps_addEffect (hl : d.lenient) (hb : d.Supports below) (bridge : Nat)
    (expression : Value) (callback : Value → Act σ) :
    d.Keeps (addEffect functions below bridge expression callback) :=
  keeps_bind (keeps_derive bridge expression) fun _ => keeps_bind (keeps_read _) fun _ =>
    keeps_bind (keeps_writeSignals _) fun _ => keeps_perform hl hb _

/-! ## Transactions -/

theorem keeps_deliver (hl : d.lenient) (hb : d.Supports below) (listener : Listener σ)
    (event : Event) : d.Keeps (deliver functions below listener event) := by
  cases listener with
  | host program => exact keeps_bind (hb.act _ (.inl hl)) fun _ => keeps_pure _
  | bridge number => exact keeps_forM _ fun e _ => keeps_followKey hl hb number e.1 e.2

theorem keepsAt_dispatch (hl : d.lenient) (hb : d.Supports below) (event : Event) {w : World σ}
    (hw : w.inTransaction = false) : d.KeepsAt (dispatch functions below event) w := by
  refine keepsAt_bind (d.event hl w event hw) fun _ v _ => ?_
  exact keeps_get (fun _ => keeps_forM _ fun l _ => keeps_deliver hl hb l event) v

/-- Inside a transaction writes are just made. Outside, a discipline that is not lenient has
nothing to say. -/
theorem keeps_transaction (hb : d.Supports below) (delayed : Bool) {writes : Run (World σ) Unit}
    (h : d.Keeps writes) : d.Keeps (transaction functions below delayed writes) := by
  intro w
  refine keepsAt_get ?_
  cases hw : w.inTransaction with
  | true => exact h w
  | false =>
    by_cases hl : d.lenient
    · refine keepsAt_bind (d.gather hl delayed h w hw) fun r w' hr => ?_
      obtain ⟨v, -, rfl, -⟩ := gather_ok hr
      cases r with
      | none => exact keeps_pure _ _
      | some event => exact keepsAt_dispatch hl hb event rfl
    · exact keepsAt_of (fun _ _ _ => (d.outside hl hw).1) fun _ _ _ => (d.outside hl hw).2

theorem keeps_fire (hb : d.Supports below) (deferral : Deferral) :
    d.Keeps (fire functions below deferral) :=
  keeps_bind (keeps_modify fun _ => ⟨rfl, Nat.le_refl _⟩) fun _ =>
    keeps_transaction hb true (keeps_applyAssignment hb _)

/-! ## Commands -/

theorem keeps_evaluateSlot (hb : d.Supports below) (control : Control) (slot : Value) :
    d.Keeps (evaluateSlot functions below control slot) := by
  unfold evaluateSlot
  split
  · split
    · exact keeps_pure _
    · exact keeps_get fun _ => keeps_bind (keeps_ofExcept _) fun _ => keeps_pure _
  · refine keeps_bind (keeps_ofExcept _) fun key => ?_
    split
    · exact keeps_evaluateNow hb _
    · exact keeps_ofExcept _

theorem keeps_unsubscribe (id : Value) : d.Keeps (unsubscribe id : Run (World σ) Bool) := by
  intro w
  refine keepsAt_get ?_
  split
  · exact keeps_pure _ w
  · split
    · exact keeps_throw _ w
    · exact keepsAt_bind (d.quiet ⟨rfl, Nat.le_refl _⟩) fun _ _ _ => keeps_pure _ _

theorem keeps_subscribe (listener : Listener σ) : d.Keeps (subscribe listener) :=
  fun _ => keepsAt_get (keepsAt_bind (d.quiet ⟨rfl, Nat.le_refl _⟩) fun _ _ _ => keeps_pure _ _)

theorem keeps_register (prepared : Prepared) :
    d.Keeps (register prepared : Run (World σ) (List Scalar)) := by
  refine keeps_bind (keeps_ofExcept _) fun r => ?_
  obtain ⟨names, a⟩ := r
  cases a with
  | none => exact keeps_pure _
  | some a => exact keeps_bind (fun w => d.assignment w a names) fun _ => keeps_pure _

theorem keeps_addControl (id : Value) (runtime : Dict Scalar Value) (bound : Nat)
    (callback : (Command.addControl id runtime).Input → Act σ) :
    d.Keeps (exec functions below bound (.addControl id runtime) callback) := by
  intro w
  refine keepsAt_get ?_
  refine keepsAt_bind (keeps_ofExcept _ w) fun control v hc => ?_
  refine keepsAt_bind (keeps_ofExcept _ v) fun reads u hr => ?_
  obtain ⟨hm, rfl⟩ := ofExcept_ok hc
  obtain ⟨hn, rfl⟩ := ofExcept_ok hr
  refine keepsAt_bind ?_ fun _ _ _ => keeps_pure _ _
  exact d.trans (d.control u hm hn) (d.quiet ⟨rfl, Nat.le_refl _⟩)

theorem keeps_exec (hb : d.Supports below) (bound : Nat) (command : Command)
    (hp : d.lenient ∨ command.isPlain = true) (callback : command.Input → Act σ) :
    d.Keeps (exec functions below bound command callback) := by
  have hw : ∀ s, d.Keeps (schedulerPart.write s : Run (World σ) Unit) :=
    fun s w => d.quiet ⟨rfl, Nat.le_refl _⟩
  cases command with
  | addControl id runtime => exact keeps_addControl id runtime bound callback
  | assign draft => exact keeps_bind (keeps_ofExcept _) fun p => keeps_register p
  | register prepared => exact keeps_register prepared
  | setState patch =>
    exact keeps_transaction hb false
      (keeps_bind (keeps_ofExcept _) fun entries => keeps_writePatch hb entries)
  | setValue control value =>
    have hset : d.Keeps (do
        writeKey functions below (← .ofExcept control.storage.asKey) value) :=
      keeps_bind (keeps_ofExcept _) fun key => keeps_writeKey hb key value
    have hwrite : d.Keeps (if control.isWritable then transaction functions below false (do
          writeKey functions below (← .ofExcept control.storage.asKey) value)
        else .ofExcept (do .error (.notWritable (← control.id.written)))) := by
      split
      · exact keeps_transaction hb false hset
      · exact keeps_ofExcept _
    exact hwrite
  | evaluateSlot control slot => exact keeps_evaluateSlot hb control slot
  | evaluateText expression => exact keeps_bind (keeps_ofExcept _) fun e => keeps_evaluateNow hb e
  | subscribe => exact keeps_subscribe _
  | unsubscribe id => exact keeps_unsubscribe id
  | advance ms =>
    exact keeps_bind (keeps_ofExcept _) fun span => keeps_advance hw (keeps_fire hb) bound span
  | runAll => exact keeps_runAll hw (keeps_fire hb) bound bound
  | runTimer number =>
    refine keeps_get fun w => ?_
    split
    · exact keeps_fire hb _
    · exact keeps_throw _
  | dispose =>
    rcases hp with hl | hp
    · exact fun w => d.dispose hl w
    · cases hp
  | look => exact keeps_get fun _ => keeps_pure _
  | connect =>
    exact keeps_bind (keeps_read _) fun _ => keeps_get fun _ =>
      keeps_bind (keeps_writeSignals _) fun _ =>
        keeps_bind (keeps_subscribe _) fun _ => keeps_pure _
  | signal bridge key =>
    refine keeps_bind (keeps_ofExcept _) fun key => keeps_bind (keeps_cellsFor bridge _) fun r => ?_
    cases r with
    | nil => exact keeps_throw _
    | cons number rest => exact keeps_pure _
  | readSignal cell => exact keeps_bind (keeps_read _) fun _ => keeps_pure _
  | compute bridge expression => exact keeps_derive bridge expression
  | readComputed derived => exact keeps_readComputed hb derived
  | effect bridge expression =>
    rcases hp with hl | hp
    · exact keeps_addEffect hl hb bridge expression callback
    · cases hp
  | disconnect bridge =>
    exact keeps_bind (keeps_read _) fun _ => keeps_bind (keeps_unsubscribe _) fun _ =>
      keeps_updateSignals _

/-! ## Programs and levels -/

theorem keeps_program (hb : d.Supports below) (bound : Nat) (p : Act σ) (hp : d.Admits p) :
    d.Keeps (p.run hostPart (exec functions below bound)) := by
  induction p with
  | done result => exact keeps_pure _
  | fail f => exact keeps_throw f
  | note change next ih =>
    refine keeps_bind (fun w => d.quiet ⟨rfl, Nat.le_refl _⟩) fun _ => ?_
    refine keeps_bind (keeps_read _) fun s => ?_
    exact ih s (hp.imp_right fun h => h s)
  | perform command callback next _ ih =>
    by_cases hl : d.lenient
    · refine keeps_bind (keeps_outcome hl (keeps_exec hb bound command (.inl hl) callback)) ?_
      exact fun r => ih r (.inl hl)
    · obtain ⟨hplain, herror, hok⟩ := hp.resolve_left hl
      refine fun w => keepsAt_attempt (keeps_exec hb bound command (.inr hplain) callback w) ?_ ?_
      · exact fun a => ih (.ok a) (.inr (hok a))
      · intro f
        rw [herror f]
        rfl

/-- However deep activities nest, they keep to the discipline. -/
theorem supports_level (hf : ∀ name identity args, d.Admits (functions name identity args))
    (n : Nat) : d.Supports (level functions n) := by
  induction n with
  | zero => exact ⟨fun _ _ => keeps_throw _, fun _ _ => keeps_throw _, hf⟩
  | succ n ih => exact ⟨fun p hp => keeps_program ih n p hp, keeps_writeKey ih, hf⟩

end Discipline
end Switchboard.Manager
