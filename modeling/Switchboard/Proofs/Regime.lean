-- One pass through what a manager can be asked. A regime is a law of the single things that
-- registrations, reading and signals do to a manager, for host programs of one kind. Each command
-- that writes nothing then obeys the law, and a program does whose other commands obey it.
import Switchboard.Proofs.Activity
namespace Switchboard.Manager

open World Conduct

variable {ι σ α : Type}

/-! ## Kinds of programs -/

/-- Are all programs of a listener of this kind? -/
def Listener.Admitted (admits : Act σ → Prop) : Listener σ → Prop
  | .host program => ∀ event, admits (program event)
  | .bridge _ => True

/-- Are all call-backs of the effects of this kind? -/
def EffectsAdmitted (admits : Act σ → Prop) (s : Signals (Value → Act σ)) : Prop :=
  ∀ e ∈ s.effects, ∀ v, admits (e.callback v)

/-- To note what an effect has seen changes no call-back. -/
theorem EffectsAdmitted.see {admits : Act σ → Prop} {s : Signals (Value → Act σ)}
    (hs : EffectsAdmitted admits s) (number version : Nat) :
    EffectsAdmitted admits (s.see number version) := by
  intro e he v
  obtain ⟨i, hi⟩ := List.mem_iff_getElem?.mp he
  change (s.effects.modify number fun e => { e with seen := version })[i]? = some e at hi
  rw [List.getElem?_modify] at hi
  obtain ⟨e', he', rfl⟩ := Option.map_eq_some_iff.mp hi
  have hcallback := hs e' (List.mem_of_getElem? he') v
  split
  · exact hcallback
  · exact hcallback

/-- Does a program give none of these commands, nor hand over a program that does? -/
def Refrains (of : Command → Bool) : Act σ → Prop
  | .done _ | .fail _ => True
  | .note _ next => ∀ s, Refrains of (next s)
  | .perform command callback next =>
    of command = false ∧ (∀ a, Refrains of (callback a)) ∧ ∀ r, Refrains of (next r)

/-! ## Regimes -/

/-- The single things that registrations do obey the law, those of assignments if any are made. What
follows a look at a manager may go by all of it but its limit. -/
structure Roster (L : Law ι (World σ)) (admits : Act σ → Prop) (assigns : Prop := True) :
    Prop where
  sees : ∀ {α : Type} {next : ι → World σ → Run (World σ) α},
    (∀ i limit w, next i (w.limited limit) = next i w) →
    (∀ w, EffectsAdmitted admits w.signals → L.holds fun i => next i w) →
    L.holds fun i => get >>= next i
  subscribed : ∀ {program : Event → Act σ}, (∀ event, admits (program event)) → L.holds fun _ =>
    (modify fun w => { w with
      listeners := w.listeners.put w.nextSubscription (.host program)
      nextSubscription := w.nextSubscription + 1 } : Run (World σ) Unit)
  unsubscribed : ∀ id : Value, L.holds fun _ =>
    (modify fun w => { w with listeners := w.listeners.filter fun e => !Store.isId id e.1 } :
      Run (World σ) Unit)
  control : ∀ control reads, L.holds fun _ =>
    (modify fun w => { w.linkControl control reads with nextControl := w.nextControl + 1 } :
      Run (World σ) Unit)
  assignment : assigns → ∀ a names, L.holds fun _ =>
    (modify fun w => w.linkAssignment a names : Run (World σ) Unit)
  dispose : L.holds fun _ => (modify World.dispose : Run (World σ) Unit)

/-- The single things that are done apart from writes obey the law. What follows a fault may go by
all faults but one: that the bound is used up. -/
structure Regime (L : Law ι (World σ)) (admits : Act σ → Prop) (assigns : Prop := True) :
    Prop extends Roster L admits assigns where
  attempt : ∀ {α β : Type} {act : ι → Run (World σ) α}
    {next : ι → Except Fault α → Run (World σ) β}, L.holds act →
    (∀ r, Ordinary r → L.holds fun i => next i r) → L.holds fun i => (act i).outcome >>= next i
  signals : ∀ {change : Signals (Value → Act σ) → Signals (Value → Act σ)},
    (∀ s, EffectsAdmitted admits s → EffectsAdmitted admits (change s)) →
    L.holds fun _ => (modify fun w => { w with signals := change w.signals } :
      Run (World σ) Unit)
  connected : ∀ bridge : Nat, L.holds fun _ =>
    (modify fun w => { w with
      listeners := w.listeners.put w.nextSubscription (.bridge bridge)
      nextSubscription := w.nextSubscription + 1 } : Run (World σ) Unit)
  computing : ∀ numbers : List Nat, L.holds fun _ =>
    (modify fun w => { w with computing := numbers } : Run (World σ) Unit)
  computed : ∀ {α : Type} {act : ι → Run (World σ) α} (numbers : List Nat), L.holds act →
    L.holds fun i => (act i).ensuring fun w => { w with computing := numbers }

/-! ## Registrations -/

/-- Does a command register an assignment? -/
def Command.isAssignment : Command → Bool
  | assign _ | register _ => true
  | _ => false

/-- Does a command deal with cells, derived values or effects? -/
def Command.isSignal : Command → Bool
  | connect | signal .. | readSignal _ | compute .. | readComputed _ | effect .. |
    disconnect _ => true
  | _ => false

namespace Roster

variable {L : Law ι (World σ)} {admits : Act σ → Prop} {assigns : Prop}
  {functions : Functions σ} {below : ι → Level σ}

theorem subscribe (h : Roster L admits assigns) {l : Listener σ}
    (hl : L.holds fun _ => (modify fun w => { w with
      listeners := w.listeners.put w.nextSubscription l
      nextSubscription := w.nextSubscription + 1 } : Run (World σ) Unit)) :
    L.holds fun _ => (subscribe l : Run (World σ) Nat) := by
  have hsubscribe : L.holds fun _ => get >>= fun w : World σ => (do
      modify fun w : World σ => { w with
        listeners := w.listeners.put w.nextSubscription l
        nextSubscription := w.nextSubscription + 1 }
      return w.nextSubscription : Run (World σ) Nat) :=
    h.sees (fun _ _ _ => rfl) fun w _ => L.bind hl fun _ => L.answer _
  exact hsubscribe

theorem unsubscribe (h : Roster L admits assigns) (id : Value) :
    L.holds fun _ => (unsubscribe id : Run (World σ) Bool) := by
  have hunsubscribe : (Manager.unsubscribe id : Run (World σ) Bool) = (get >>= fun w : World σ =>
      if w.listeners.isEmpty then pure false
      else if !id.isHashable then throw .wrongType
      else do
        modify fun w => { w with listeners := w.listeners.filter fun e => !Store.isId id e.1 }
        return w.listeners.any fun e => Store.isId id e.1) := by
    funext w
    change (if w.listeners.isEmpty then _ else _ : Run (World σ) Bool) w =
      (if w.listeners.isEmpty then _ else _ : Run (World σ) Bool) w
    split
    · rfl
    · split <;> rfl
  rw [hunsubscribe]
  refine h.sees (fun _ _ _ => rfl) fun w _ => ?_
  split
  · exact L.answer false
  · split
    · exact L.fault nofun
    · exact L.bind (h.unsubscribed id) fun _ => L.answer _

theorem register (h : Roster L admits assigns) (ha : assigns) (prepared : Prepared) :
    L.holds fun _ => (register prepared : Run (World σ) (List Scalar)) := by
  refine L.bind (L.ofExcept prepared.ordinary_registration) fun r => ?_
  obtain ⟨names, a⟩ := r
  cases a with
  | none => exact L.answer names
  | some a => exact L.bind (h.assignment ha a names) fun _ => L.answer names

theorem addControl (h : Roster L admits assigns) (id : Value) (runtime : Dict Scalar Value)
    (bound : ι → Nat) (callback : (Command.addControl id runtime).Input → Act σ) :
    L.holds fun i => exec functions (below i) (bound i) (.addControl id runtime) callback := by
  have hadd : ∀ i, exec functions (below i) (bound i) (.addControl id runtime) callback =
      (get >>= fun w : World σ => (do
        let control ← .ofExcept (Control.make w.nextControl id runtime)
        let reads ← .ofExcept control.reads
        modify fun w => { w.linkControl control reads with nextControl := w.nextControl + 1 }
        return control : Run (World σ) Control)) := by
    intro i
    funext w
    change (Run.ofExcept (Control.make w.nextControl id runtime) >>= _) w =
      (Run.ofExcept (Control.make w.nextControl id runtime) >>= _) w
    cases Control.make w.nextControl id runtime with
    | error f => rfl
    | ok control =>
      change (Run.ofExcept control.reads >>= _) w = (Run.ofExcept control.reads >>= _) w
      cases control.reads <;> rfl
  simp only [hadd]
  refine h.sees (fun _ _ _ => rfl) fun w _ => ?_
  refine L.bind (L.ofExcept (Control.ordinary_make _ _ _)) fun control => ?_
  refine L.bind (L.ofExcept control.ordinary_reads) fun reads => ?_
  exact L.bind (h.control control reads) fun _ => L.answer control

section

variable (h : Roster L admits assigns) (hs : Serves L functions below)

include h hs

theorem evaluateSlot (control : Control) (slot : Value) :
    L.holds fun i => evaluateSlot functions (below i) control slot := by
  unfold Manager.evaluateSlot
  split
  · split
    · exact L.answer _
    · exact h.sees (fun _ _ _ => rfl) fun w _ =>
        L.bind (L.ofExcept (Value.ordinary_asKey _)) fun _ => L.answer _
  · refine L.bind (L.ofExcept (Value.ordinary_asKey slot)) fun key => ?_
    split
    · exact hs.evaluateNow _
    · exact L.ofExcept (ordinary_bind (Value.limited_shown slot).ordinary fun _ =>
        ordinary_bind (Value.limited_written control.id).ordinary fun _ => ordinary_error (by simp))

/-- A command that deals with neither the state nor signals obeys the law. -/
theorem exec (bound : ι → Nat) {c : Command} (hc : c.isWrite = false) (hn : c.isSignal = false)
    {callback : c.Input → Act σ} (hw : ∀ a, admits (callback a))
    (ha : c.isAssignment = true → assigns := by exact fun _ => trivial) :
    L.holds fun i => exec functions (below i) (bound i) c callback := by
  cases c with
  | addControl id runtime => exact h.addControl id runtime bound callback
  | assign draft =>
    exact L.bind (L.ofExcept draft.ordinary_prepareGiven) fun p => h.register (ha rfl) p
  | register prepared => exact h.register (ha rfl) prepared
  | evaluateSlot control slot => exact h.evaluateSlot hs control slot
  | evaluateText expression =>
    exact L.bind (L.ofExcept (Expr.ordinary_ofValue expression)) fun e => hs.evaluateNow e
  | subscribe => exact h.subscribe (h.subscribed hw)
  | unsubscribe id => exact h.unsubscribe id
  | dispose => exact h.dispose
  | look => exact h.sees (fun _ _ _ => rfl) fun w _ => L.answer _
  | setState _ | setValue _ _ | advance _ | runAll | runTimer _ => cases hc
  | _ => cases hn

end

end Roster

/-! ## Signals -/

namespace Regime

variable {L : Law ι (World σ)} {admits : Act σ → Prop} {assigns : Prop}
  {functions : Functions σ} {below : ι → Level σ}

theorem readSignals (h : Regime L admits assigns)
    {next : ι → Signals (Value → Act σ) → Run (World σ) α}
    (hn : ∀ s, EffectsAdmitted admits s → L.holds fun i => next i s) :
    L.holds fun i => signalsPart.read >>= next i := by
  have hsees : L.holds fun i => get >>= fun w : World σ => next i w.signals :=
    h.sees (fun _ _ _ => rfl) fun w hw => hn w.signals hw
  exact hsees

theorem updateSignals (h : Regime L admits assigns)
    {change : Signals (Value → Act σ) → Signals (Value → Act σ)}
    (hchange : ∀ s, EffectsAdmitted admits s → EffectsAdmitted admits (change s)) :
    L.holds fun _ => (signalsPart.update change : Run (World σ) Unit) :=
  h.signals hchange

theorem writeSignals (h : Regime L admits assigns) {s : Signals (Value → Act σ)}
    (hs : EffectsAdmitted admits s) :
    L.holds fun _ => (signalsPart.write s : Run (World σ) Unit) :=
  h.signals fun _ _ => hs

end Regime

/-- What an effect does when it is handed its value. -/
def handOver (functions : Functions σ) (below : Level σ) (number : Nat)
    (effect : Effect (Value → Act σ)) : Run (World σ) Unit := do
  signalsPart.update (·.see number 0)
  let act : Run (World σ) Value := do
    let v ← readComputed functions below effect.derived
    signalsPart.update fun s => s.see number (s.versionOf effect.derived)
    below.act (effect.callback v)
  let _ ← act.outcome

theorem perform_eq (functions : Functions σ) (below : Level σ) (number : Nat) :
    perform functions below number = (do
      match (← signalsPart.read).effects[number]? with
      | none => return ()
      | some effect => handOver functions below number effect) := rfl

theorem perform_known {functions : Functions σ} {below : Level σ} {number : Nat}
    {effect : Effect (Value → Act σ)} {w : World σ}
    (h : w.signals.effects[number]? = some effect) :
    perform functions below number w = handOver functions below number effect w := by
  have hread : (signalsPart.read : Run (World σ) _) w = .ok w.signals w := rfl
  rw [perform_eq, bind_ok hread, h]

/-- A new effect is handed its value at once. -/
theorem addEffect_eq (functions : Functions σ) (below : Level σ) (bridge : Nat)
    (expression : Value) (callback : Value → Act σ) :
    addEffect functions below bridge expression callback = (do
      let derived ← derive bridge expression
      let s ← signalsPart.read
      signalsPart.write (s.addEffect bridge derived callback).2
      handOver functions below s.effects.length ⟨derived, callback, 0⟩) := by
  unfold addEffect
  refine congrArg _ (funext fun derived => funext fun w => ?_)
  have hnew : (w.signals.addEffect bridge derived callback).2.effects[w.signals.effects.length]? =
      some ⟨derived, callback, 0⟩ := List.getElem?_concat_length
  have hread : (signalsPart.read : Run (World σ) _) w = .ok w.signals w := rfl
  have hwrite : ∀ s, (signalsPart.write s : Run (World σ) Unit) w =
    .ok () { w with signals := s } := fun _ => rfl
  rw [bind_ok hread, bind_ok hread]
  dsimp only
  rw [bind_ok (hwrite _), bind_ok (hwrite _)]
  exact perform_known hnew

namespace Regime

variable {L : Law ι (World σ)} {admits : Act σ → Prop} {assigns : Prop}
  {functions : Functions σ} {below : ι → Level σ}

section

variable (h : Regime L admits assigns) (hs : Serves L functions below)

include h hs

theorem compute (number : Nat) (d : Derived) :
    L.holds fun i => compute functions (below i) number d := by
  refine h.sees (fun _ _ _ => rfl) fun w _ => ?_
  have hrest : L.holds fun i => (do
      modify fun u => { u with computing := number :: w.computing }
      (evaluateNow functions (below i) d.expression).ensuring fun u =>
        { u with computing := w.computing }) :=
    L.bind (h.computing _) fun _ => h.computed _ (hs.evaluateNow d.expression)
  cases hc : w.computing.contains number with
  | true =>
    simp only [hc, if_true]
    exact L.bind (L.fault nofun) fun _ => hrest
  | false =>
    simp only [hc, Bool.false_eq_true, if_false]
    exact hrest

theorem readComputed (number : Nat) :
    L.holds fun i => readComputed functions (below i) number := by
  refine h.readSignals fun s _ => ?_
  cases hd : s.derived[number]? with
  | none => exact L.fault (by simp)
  | some d =>
    dsimp only
    cases hfresh : s.fresh? d with
    | some v => exact L.answer v
    | none =>
      exact L.bind (h.compute hs number d) fun v =>
        L.bind (h.updateSignals fun _ hs => hs) fun _ => L.answer v

theorem handOver (number : Nat) {effect : Effect (Value → Act σ)}
    (hact : ∀ v, L.holds fun i => (below i).act (effect.callback v)) :
    L.holds fun i => handOver functions (below i) number effect := by
  refine L.bind (h.updateSignals fun _ hs => hs.see number 0) fun _ => ?_
  refine h.attempt ?_ fun _ _ => L.answer ()
  refine L.bind (h.readComputed hs effect.derived) fun v => ?_
  exact L.bind (h.updateSignals fun _ hs => hs.see number _) fun _ => hact v

theorem isDue (effect : Effect (Value → Act σ)) :
    L.holds fun i => isDue functions (below i) effect := by
  refine h.readSignals fun s _ => ?_
  split
  · exact L.answer true
  · refine h.attempt (h.readComputed hs effect.derived) fun r _ => ?_
    cases r with
    | error f => exact L.answer true
    | ok v => exact h.readSignals fun _ _ => L.answer _

theorem refresh (hact : ∀ p, admits p → L.holds fun i => (below i).act p) (number : Nat) :
    L.holds fun i => refresh functions (below i) number := by
  refine h.readSignals fun s _ => ?_
  cases s.effects[number]? with
  | none => exact L.answer ()
  | some effect =>
    refine L.bind (h.isDue hs effect) fun due => ?_
    cases due with
    | false => exact L.answer ()
    | true =>
      simp only [perform_eq]
      refine h.readSignals fun s hs' => ?_
      cases he : s.effects[number]? with
      | none => exact L.answer ()
      | some effect =>
        exact h.handOver hs number fun v => hact _ (hs' effect (List.mem_of_getElem? he) v)

theorem followKey (hact : ∀ p, admits p → L.holds fun i => (below i).act p) (bridge : Nat)
    (key : Scalar) (value : Value) :
    L.holds fun i => followKey functions (below i) bridge key value := by
  refine h.readSignals fun s hs' => ?_
  cases (s.bridge bridge).cells.get? key with
  | none => exact L.answer ()
  | some number =>
    dsimp only
    cases hset : s.setCell? number value with
    | none => exact L.answer ()
    | some s' =>
      have heffects : EffectsAdmitted admits s' := by
        unfold Signals.setCell? at hset
        split at hset
        · cases hset
        · split at hset <;> cases hset
          exact hs'
      have hrest : L.holds fun i => (do
          signalsPart.write s'
          (s'.followers number).forM (Manager.refresh functions (below i))) :=
        L.bind (h.writeSignals heffects) fun _ => L.forM _ fun n _ => h.refresh hs hact n
      refine h.sees (fun _ _ _ => rfl) fun w _ => ?_
      split
      · exact L.bind (L.fault nofun) fun _ => hrest
      · exact hrest

/-- To tell a listener of an event obeys the law if the programs do that are called. -/
theorem deliver (hact : ∀ p, admits p → L.holds fun i => (below i).act p) {l : Listener σ}
    (hl : l.Admitted admits) (event : Event) :
    L.holds fun i => deliver functions (below i) l event := by
  cases l with
  | host program => exact L.bind (hact _ (hl event)) fun _ => L.answer ()
  | bridge number => exact L.forM _ fun e _ => h.followKey hs hact number e.1 e.2

end

/-! ## Commands -/

theorem cellsFor (h : Regime L admits assigns) (bridge : Nat) (names : List Scalar) :
    L.holds fun _ => (cellsFor bridge names : Run (World σ) (List Nat)) := by
  refine L.mapM names fun key => h.sees (fun _ _ _ => rfl) fun w hw => ?_
  refine L.bind (h.writeSignals ?_) fun _ => L.answer _
  split <;> exact hw

theorem derive (h : Regime L admits assigns) (bridge : Nat) (expression : Value) :
    L.holds fun _ => (derive bridge expression : Run (World σ) Nat) := by
  refine L.bind (L.ofExcept (Expr.ordinary_ofValue expression)) fun e => ?_
  refine L.bind (L.ofExcept e.ordinary_freeVariables) fun names => ?_
  refine L.bind (h.cellsFor bridge names) fun cells => ?_
  exact h.readSignals fun s hs => L.bind (h.writeSignals hs) fun _ => L.answer _

section

variable (h : Regime L admits assigns) (hs : Serves L functions below)

include h hs

theorem addEffect (bridge : Nat) (expression : Value) {callback : Value → Act σ}
    (hw : ∀ v, admits (callback v)) (hact : ∀ v, L.holds fun i => (below i).act (callback v)) :
    L.holds fun i => addEffect functions (below i) bridge expression callback := by
  simp only [addEffect_eq]
  refine L.bind (h.derive bridge expression) fun derived => ?_
  refine h.readSignals fun s hs' => L.bind (h.writeSignals fun e he => ?_) fun _ =>
    h.handOver hs _ hact
  rcases List.mem_append.mp he with he | he
  · exact hs' e he
  · cases List.mem_singleton.mp he
    exact hw

/-- A command that does not write obeys the law if its call-backs do. -/
theorem exec (bound : ι → Nat) {c : Command} (hc : c.isWrite = false) {callback : c.Input → Act σ}
    (hw : ∀ a, admits (callback a)) (hact : ∀ a, L.holds fun i => (below i).act (callback a))
    (ha : c.isAssignment = true → assigns := by exact fun _ => trivial) :
    L.holds fun i => exec functions (below i) (bound i) c callback := by
  cases hn : c.isSignal with
  | false => exact h.toRoster.exec hs bound hc hn hw ha
  | true =>
    cases c with
    | connect =>
      refine h.readSignals fun s hs' => h.sees (fun _ _ _ => rfl) fun w _ => ?_
      exact L.bind (h.writeSignals hs') fun _ =>
        L.bind (h.subscribe (h.connected _)) fun _ => L.answer _
    | signal bridge key =>
      refine L.bind (L.ofExcept (Value.ordinary_asKey key)) fun key => ?_
      refine L.bind (h.cellsFor bridge [key]) fun cells => ?_
      cases cells with
      | nil => exact L.fault (by simp)
      | cons number rest => exact L.answer number
    | readSignal cell => exact h.readSignals fun _ _ => L.answer _
    | compute bridge expression => exact h.derive bridge expression
    | readComputed derived => exact h.readComputed hs derived
    | effect bridge expression => exact h.addEffect hs bridge expression hw hact
    | disconnect bridge =>
      exact h.readSignals fun _ _ => L.bind (h.unsubscribe _) fun _ =>
        h.updateSignals fun _ hs => hs
    | _ => cases hn

end

/-! ## Programs -/

/-- What the law asks of the programs of a kind, by the first thing that they do. -/
structure Admits (L : Law ι (World σ)) (admits : Act σ → Prop) : Prop where
  fail : ∀ {f}, admits (.fail f) → L.holds fun _ => (throw f : Run (World σ) Value)
  note : ∀ {change next}, admits (.note change next) →
    L.holds fun _ => (hostPart.update change : Run (World σ) Unit)
  noted : ∀ {change next}, admits (.note change next) → ∀ s, admits (next s)
  callback : ∀ {c callback next}, admits (.perform c callback next) → ∀ a, admits (callback a)
  next : ∀ {c callback next}, admits (.perform c callback next) →
    ∀ r, Ordinary r → admits (next r)

/-- A program obeys the law if each command that it gives does, with what the program does next. -/
theorem program (h : Regime L admits assigns) (ha : Admits L admits)
    {obey : ι → (c : Command) → (c.Input → Act σ) → Run (World σ) c.Answer}
    (hobey : ∀ {c callback next}, admits (.perform c callback next) →
      (∀ a, L.holds fun i => (callback a).run hostPart (obey i)) →
      (∀ r, Ordinary r → L.holds fun i => (next r).run hostPart (obey i)) →
      L.holds fun i => (obey i c callback).outcome >>= fun r => (next r).run hostPart (obey i))
    {p : Act σ} (hp : admits p) : L.holds fun i => p.run hostPart (obey i) := by
  induction p with
  | done result => exact L.answer result
  | fail f => exact ha.fail hp
  | note change next ih =>
    have hnext : L.holds fun i => get >>= fun w : World σ =>
        (next w.host).run hostPart (obey i) :=
      h.sees (fun _ _ _ => rfl) fun w _ => ih w.host (ha.noted hp w.host)
    exact L.bind (ha.note hp) fun _ => hnext
  | perform command callback next ihc ih =>
    exact hobey hp (fun a => ihc a (ha.callback hp a)) fun r hr => ih r (ha.next hp r hr)

end Regime
end Switchboard.Manager
