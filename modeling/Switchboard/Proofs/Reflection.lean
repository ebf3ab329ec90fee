-- What keeps a mirror. In a run in which those who are told of an event write nothing, and no value
-- is derived while a transaction is under way, a mirror is kept by all that a manager can be asked
-- to do, and by what is nested in it.
import Switchboard.Proofs.Mirror
namespace Switchboard.Manager

open World Conduct

variable {σ : Type}

/-! ## Manners with a mirror -/

/-- Does a command derive values from the state? -/
def Command.derives : Command → Bool
  | readComputed _ | effect .. => true
  | _ => false

/-- Those who are told of an event write nothing. Values are derived, and events told, only when no
transaction is under way and no list that the manager holds carries an identity that is still to be
given out. -/
def mirrorly : Manners σ where
  hushed _ := true
  allowed w c := !c.derives || !w.inTransaction && w.holdsOld
  settled := World.holdsOld

/-- May values be derived in a world? -/
def World.Derives (w : World σ) : Prop := w.inTransaction = false ∧ w.holdsOld = true

section

variable {functions : Functions σ} {x : Mirror σ} {unheard : Option (List Scalar)}
  {w w' : World σ}

/-! ## Registrations -/

/-- A listener that is no bridge is not this one. -/
theorem Mirror.unseen_subscribed (x : Mirror σ) (w : World σ) (program : Event → Act σ) :
    x.Unseen w { w with
      listeners := w.listeners.put w.nextSubscription (.host program)
      nextSubscription := w.nextSubscription + 1 } where
  signals := .refl _
  listeners hsubscribed := by
    rcases Dict.mem_put hsubscribed with hbefore | ⟨-, hlistener⟩
    · exact .inl hbefore
    · cases hlistener

/-- Another bridge is made, or this one. -/
theorem Mirror.unseen_connected (x : Mirror σ) (w : World σ) : x.Unseen w { w with
    signals := (w.signals.addBridge w.nextSubscription).2
    listeners := w.listeners.put w.nextSubscription
      (.bridge (w.signals.addBridge w.nextSubscription).1)
    nextSubscription := w.nextSubscription + 1 } where
  signals := w.signals.addBridge_spared _
  listeners hsubscribed := by
    rcases Dict.mem_put hsubscribed with hbefore | ⟨hnumber, hbridge⟩
    · exact .inl hbefore
    · injection hbridge with hbridge
      subst hbridge
      refine .inr ⟨Nat.le_refl _, ?_, ?_⟩
      · dsimp only
        rw [Signals.length_addBridge]
        exact Nat.lt_succ_self _
      · exact (congrArg (·.subscription) (w.signals.bridge_addBridge_new _)).trans
          (beq_iff_eq.mp hnumber)
  names _ _ _ _ := Signals.names_addBridge.mpr

theorem mirroring_roster :
    Roster (mirroring functions x unheard).strict fun _ => True where
  sees _ hn := Keeping.law_sees fun w _ => hn w fun _ _ _ => trivial
  subscribed _ := Keeping.law_modify fun w hw => hw.unseen (x.unseen_subscribed w _)
  unsubscribed _ := Keeping.law_modify fun _ hw =>
    hw.unseen { signals := .refl _, listeners := fun h => .inl (List.mem_filter.mp h).1 }
  control _ _ := Keeping.law_modify fun _ hw => hw.unseen { signals := .refl _ }
  assignment _ _ _ := Keeping.law_modify fun _ hw => hw.unseen { signals := .refl _ }
  dispose := Keeping.law_modify fun _ hw =>
    hw.unseen { signals := .refl _, hears := .inr rfl, listeners := nofun }

theorem mirroring_admits :
    Regime.Admits (mirroring functions x unheard).strict fun _ => True where
  fail _ := Keeping.law_throw _
  note _ := Keeping.law_modify fun _ hw => hw.unseen { signals := .refl _ }
  noted _ _ := trivial
  callback _ _ := trivial
  next _ _ _ := trivial

/-! ## Derived values -/

theorem Mirroring.withComputing (h : Mirroring functions x unheard w) (numbers : List Nat) :
    Mirroring functions x unheard { w with computing := numbers } := by
  have hon : w.Onward { w with computing := numbers } :=
    onward_of_same rfl (Nat.le_refl _) rfl rfl
  exact { h with
    onward := h.onward.trans hon
    reflects := fun hx => h.reflects hx
    recalls := fun hx => h.recalled hon (.refl _ _) id (fun hu => ⟨(h.telling hu).1, rfl⟩)
      (fun hx => h.reflects hx) hx fun hd _ => .inl hd }

/-- What was there before a computation is there after it. -/
theorem Abides.computed {numbers outer : List Nat}
    (h : Abides x unheard { w with computing := numbers } w') (houter : outer = w.computing) :
    Abides x unheard w { w' with computing := outer } where
  within := h.within
  computing := houter
  onward := { h.onward with }
  grows := h.grows
  stays := h.stays
  names := h.names
  still := h.still

theorem compute_eq (functions : Functions σ) (below : Level σ) (number : Nat)
    (d : Switchboard.Derived) (w : World σ) : compute functions below number d w =
      if w.computing.contains number then .error .impure w
      else (evaluateNow functions below d.expression).ensuring
        (fun u => { u with computing := w.computing })
        { w with computing := number :: w.computing } := by
  have hget : (get : Run (World σ) (World σ)) w = .ok w w := rfl
  unfold compute
  rw [bind_ok hget]
  dsimp only
  split <;> rfl

/-- The versions of the cells that are read now date what is made of the state now. -/
theorem Mirroring.dates_versions (h : Mirroring functions x unheard w)
    (hclosed : w.inTransaction = false) (ha : Abides x unheard w w') (hx : x.Stays w')
    {d : Switchboard.Derived} (hd : d ∈ w.signals.derived) :
    x.Dates unheard w w' (d.reads.zip (w.signals.versions d)) := by
  intro e he key hname
  obtain ⟨hread, hversion⟩ := Signals.mem_zip_map.mp he
  have hknown := ha.grows.named_of_lt hname (h.ordered.read d hd _ hread)
  obtain ⟨cell, hcell, -, htold⟩ := h.reflects (ha.stays hx) key _ hknown
  obtain ⟨cell', hcell', hle, hsame⟩ := ha.grows.cells hcell
  have hversion : e.2 = cell.version := by
    rw [hversion, hcell]
    rfl
  refine ⟨cell', hcell', hversion ▸ hle, fun hv => ?_⟩
  cases hsame (hv.symm.trans hversion)
  rcases htold with (hlate | ⟨hopen, -⟩) | hlooks
  · refine .inr ⟨hlate, ?_⟩
    have hstate : w'.store.state = w.store.state := by
      refine ha.still ?_
      cases unheard with
      | none => cases hlate
      | some keys => rfl
    unfold Store.read
    rw [hstate]
    exact Value.looksLike_refl _
  · rw [hclosed] at hopen
    cases hopen
  · exact .inl (Value.looksLike_symm hlooks)

/-! ## New cells and derived values -/

/-- The cells of some keys are made one after the other. -/
theorem cellsFor_cons {bridge : Nat} {key : Scalar} {rest : List Scalar} {numbers : List Nat}
    (hrest : cellsFor bridge rest
        { w with signals := (w.signals.cellOf bridge key (w.store.read key)).2 } = .ok numbers w') :
    cellsFor bridge (key :: rest) w =
      .ok ((w.signals.cellOf bridge key (w.store.read key)).1 :: numbers) w' := by
  unfold cellsFor at hrest ⊢
  rw [List.mapM_cons]
  refine (bind_ok (a := (w.signals.cellOf bridge key (w.store.read key)).1) ?_).trans
    ((bind_ok hrest).trans rfl)
  rfl

/-- The cells of some keys are there, or they are made. -/
theorem mirroring_cellsFor (hw : Mirroring functions x unheard w) (bridge : Nat)
    (names : List Scalar) : ∃ numbers s, cellsFor bridge names w =
        .ok numbers { w with signals := s } ∧
      (Mirroring functions x unheard { w with signals := s } ∧
        Abides x unheard w { w with signals := s }) ∧
      ∀ n ∈ numbers, n < s.cells.length := by
  induction names generalizing w with
  | nil => exact ⟨[], w.signals, rfl, ⟨hw, .refl x _ _⟩, nofun⟩
  | cons key rest ih =>
    obtain ⟨hw₁, ha₁⟩ := hw.celled bridge key
    obtain ⟨numbers, s, hrest, ⟨hw', ha'⟩, hnumbers⟩ := ih hw₁
    refine ⟨(w.signals.cellOf bridge key (w.store.read key)).1 :: numbers, s, ?_,
      ⟨hw', ha₁.trans ha'⟩, fun n hn => ?_⟩
    · exact cellsFor_cons hrest
    · rcases List.mem_cons.mp hn with rfl | hn
      · exact Nat.lt_of_lt_of_le (Signals.cellOf_lt hw.ordered _ _ _) ha'.grows.length_le
      · exact hnumbers n hn

theorem mirroring_derive (hw : Mirroring functions x unheard w) {bridge : Nat} {expression : Value}
    {number : Nat} (hr : derive bridge expression w = .ok number w') :
    ∃ s, w' = { w with signals := s } ∧ Mirroring functions x unheard w' ∧
      Abides x unheard w w' := by
  unfold derive at hr
  obtain ⟨e, v, he, hnext⟩ := bind_ok_inv hr
  obtain ⟨-, rfl⟩ := ofExcept_ok he
  obtain ⟨names, u, hnames, hlast⟩ := bind_ok_inv hnext
  obtain ⟨-, rfl⟩ := ofExcept_ok hnames
  obtain ⟨numbers, s, hcells, ⟨hw₁, ha₁⟩, hnumbers⟩ := mirroring_cellsFor hw bridge names
  rw [bind_ok hcells] at hlast
  cases hlast
  have hunseen : x.Unseen { u with signals := s }
      { u with signals := (s.addDerived e numbers).2 } :=
    { signals := s.addDerived_spared e hnumbers }
  obtain ⟨hw', ha'⟩ := hw₁.unseen hunseen
  exact ⟨_, rfl, hw', ha₁.trans ha'⟩

/-- A listener that was removed is gone, and no other one has come. -/
theorem unsubscribe_gone {number : Nat} {found : Bool}
    (h : unsubscribe (.int number) w = .ok found w') :
    ∀ e ∈ w'.listeners, e.1 ≠ number ∧ e ∈ w.listeners := by
  obtain ⟨_, _, hget, h⟩ := bind_ok_inv h
  cases hget
  split at h
  · rename_i hempty
    cases h
    intro e he
    rw [List.isEmpty_iff.mp hempty] at he
    cases he
  · split at h
    · cases h
    · cases h
      intro e he
      obtain ⟨he, hstays⟩ := List.mem_filter.mp he
      refine ⟨fun hnumber => ?_, he⟩
      rw [hnumber, Store.isId, Value.sameKey_refl] at hstays
      cases hstays

/-- A bridge that is disconnected is no longer subscribed when it forgets its cells. -/
theorem mirroring_disconnect (hw : Mirroring functions x unheard w) (bridge : Nat)
    (hr : (do
      let subscription := ((← signalsPart.read).bridge bridge).subscription
      let _ ← unsubscribe (.int subscription)
      signalsPart.update (·.closeBridge bridge) : Run (World σ) Unit) w = .ok () w') :
    Mirroring functions x unheard w' ∧ Abides x unheard w w' := by
  have hread : (signalsPart.read : Run (World σ) _) w = .ok w.signals w := rfl
  rw [bind_ok hread] at hr
  obtain ⟨_, u, hunsubscribe, hr⟩ := bind_ok_inv hr
  cases hr
  obtain ⟨hu, hau⟩ := Keeping.ok_of_law (mirroring_roster.unsubscribe _) hw hunsubscribe
  have hgone := unsubscribe_gone hunsubscribe
  have hunseen : x.Unseen u { u with signals := u.signals.closeBridge bridge } :=
    { signals := u.signals.closeBridge_spared bridge
      names := fun number hsubscribed key cell hname => by
        refine Signals.names_closeBridge ?_ hname
        rintro rfl
        obtain ⟨hsame, hsubscribed⟩ := hgone _ hsubscribed
        exact hsame (hw.numbered number x.bridge hsubscribed).2.symm }
  obtain ⟨hw', ha'⟩ := hu.unseen hunseen
  exact ⟨hw', hau.trans ha'⟩

section

variable {below : Bool → Level σ}
  (hb : Tidy functions (fun _ => True) Option.isNone (mirroring functions x) below)
  (hs : ∀ unheard, Serves (mirroring functions x unheard).strict functions
    fun _ => below unheard.isNone)

include hb hs

/-- What is computed can be recalled. -/
theorem mirroring_compute (hw : Mirroring functions x unheard w) (hready : w.Derives)
    {number : Nat} {d : Switchboard.Derived} (hd : w.signals.derived[number]? = some d) :
    (mirroring functions x unheard).After (· ≠ .exhausted) w
      (compute functions (below unheard.isNone) number d w) ∧
    ∀ {v w'}, compute functions (below unheard.isNone) number d w = .ok v w' → x.Stays w' →
      ∀ version, x.Recalls functions unheard w' d ⟨v, w.signals.versions d, version⟩ := by
  rw [compute_eq]
  split
  · exact ⟨fun _ => ⟨hw, .refl x unheard w⟩, nofun⟩
  · have hafter := (hs unheard).evaluateNow d.expression _
      (hw.withComputing (number :: w.computing))
    have hkept : ∀ {v}, Mirroring functions x unheard v ∧
        Abides x unheard { w with computing := number :: w.computing } v →
        Mirroring functions x unheard { v with computing := w.computing } ∧
          Abides x unheard w { v with computing := w.computing } :=
      fun h => ⟨h.1.withComputing _, h.2.computed rfl⟩
    rw [Run.ensuring_eq]
    dsimp only at hafter
    cases hr : evaluateNow functions (below unheard.isNone) d.expression
        { w with computing := number :: w.computing } with
    | error f v =>
      rw [hr] at hafter
      exact ⟨fun hf => hkept (hafter hf), nofun⟩
    | ok a v =>
      rw [hr] at hafter
      have hkept := hkept hafter
      refine ⟨hkept, fun {_ _} heq hx version => ?_⟩
      cases heq
      obtain ⟨n, heval⟩ := hb.plain unheard.isNone hr
      have hon : World.Onward { w with computing := number :: w.computing } w :=
        onward_of_same rfl (Nat.le_refl _) rfl rfl
      exact ⟨n, _, v, heval, (hw.withComputing _).onward, hon.trans hkept.2.onward, hready.2,
        hw.dates_versions hready.1 hkept.2 hx (List.mem_of_getElem? hd)⟩

theorem mirroring_readComputed (hw : Mirroring functions x unheard w) (hready : w.Derives)
    (number : Nat) : (mirroring functions x unheard).After (· ≠ .exhausted) w
      (readComputed functions (below unheard.isNone) number w) := by
  have hread : (signalsPart.read : Run (World σ) _) w = .ok w.signals w := rfl
  unfold readComputed
  rw [bind_ok hread]
  cases hd : w.signals.derived[number]? with
  | none => exact fun _ => ⟨hw, .refl x unheard w⟩
  | some d =>
    dsimp only
    cases w.signals.fresh? d with
    | some v => exact ⟨hw, .refl x unheard w⟩
    | none =>
      obtain ⟨hafter, hrecalls⟩ := mirroring_compute hb hs hw hready hd
      refine Keeping.after_bind hafter fun v u hr hu => ?_
      rw [hr] at hafter
      obtain ⟨memo, hd'⟩ := hafter.2.grows.derived hd
      exact hu.remembered hd' fun hx => hrecalls hr hx _

/-! ## Effects -/

omit hb hs in
theorem Mirroring.seen (h : Mirroring functions x unheard w) (number version : Nat) :
    Mirroring functions x unheard { w with signals := w.signals.see number version } ∧
      Abides x unheard w { w with signals := w.signals.see number version } :=
  h.unseen { signals := w.signals.see_spared number version }

theorem mirroring_handOver (hw : Mirroring functions x unheard w) (hready : w.Derives)
    (number : Nat) (effect : Effect (Value → Act σ)) :
    (mirroring functions x unheard).After (· ≠ .exhausted) w
      (handOver functions (below unheard.isNone) number effect w) := by
  have hfirst : (signalsPart.update (·.see number 0) : Run (World σ) Unit) w =
      .ok () { w with signals := w.signals.see number 0 } := rfl
  obtain ⟨hw₁, ha₁⟩ := hw.seen number 0
  unfold handOver
  rw [bind_ok hfirst]
  refine Keeping.After.trans ha₁ (Keeping.after_attempt ?_ fun _ v _ hv => ⟨hv, .refl x _ v⟩)
  refine Keeping.after_bind (mirroring_readComputed hb hs hw₁ hready effect.derived) ?_
  intro v u _ hu
  have hsee : (signalsPart.update (fun s => s.see number (s.versionOf effect.derived)) :
      Run (World σ) Unit) u =
      .ok () { u with signals := u.signals.see number (u.signals.versionOf effect.derived) } := rfl
  obtain ⟨hu', ha'⟩ := hu.seen number (u.signals.versionOf effect.derived)
  rw [bind_ok hsee]
  exact .trans ha' (hb.act unheard trivial _ hu')

variable {keys : List Scalar}

theorem mirroring_isDue (effect : Effect (Value → Act σ)) :
    (mirroring functions x (some keys)).strict.holds fun _ =>
      isDue functions (below false) effect := by
  refine Keeping.law_sees fun w _ => ?_
  split
  · exact (mirroring functions x (some keys)).strict.answer true
  · have hread : (mirroring functions x (some keys)).strict.holds fun _ =>
        readComputed functions (below false) effect.derived :=
      fun w hw => mirroring_readComputed hb hs hw (hw.telling rfl) effect.derived
    refine Keeping.strict_attempt hread fun r _ => ?_
    cases r with
    | error f => exact (mirroring functions x (some keys)).strict.answer true
    | ok v => exact Keeping.law_sees fun w _ => (mirroring functions x (some keys)).strict.answer _

theorem mirroring_refresh (number : Nat) :
    (mirroring functions x (some keys)).strict.holds fun _ =>
      refresh functions (below false) number := by
  refine Keeping.law_sees fun w _ => ?_
  split
  · exact (mirroring functions x (some keys)).strict.answer ()
  · refine (mirroring functions x (some keys)).strict.bind (mirroring_isDue hb hs _) fun due => ?_
    cases due with
    | false => exact (mirroring functions x (some keys)).strict.answer ()
    | true =>
      simp only [if_true, perform_eq]
      refine Keeping.law_sees fun w _ => ?_
      split
      · exact (mirroring functions x (some keys)).strict.answer ()
      · exact fun w hw => mirroring_handOver hb hs hw (hw.telling rfl) number _

/-! ## Telling -/

omit hb hs in
/-- A bridge that is told of a key sets a cell and runs effects, if the value is another one. -/
theorem followKey_ok {below : Level σ} {bridge : Nat} {key : Scalar} {value : Value}
    (hr : followKey functions below bridge key value w = .ok () w') :
    ((∀ number, w.signals.Names bridge key number →
        w.signals.setCell? number value = none) ∧ w' = w) ∨
      ∃ number s, w.signals.Names bridge key number ∧
        w.signals.setCell? number value = some s ∧
        (s.followers number).forM (refresh functions below) { w with signals := s } =
          .ok () w' := by
  have hread : (signalsPart.read : Run (World σ) _) w = .ok w.signals w := rfl
  unfold followKey at hr
  rw [bind_ok hread] at hr
  cases hname : (w.signals.bridge bridge).cells.get? key with
  | none =>
    rw [hname] at hr
    cases hr
    refine .inl ⟨fun number h => ?_, rfl⟩
    unfold Signals.Names at h
    rw [hname] at h
    cases h
  | some number =>
    rw [hname] at hr
    dsimp only at hr
    cases hset : w.signals.setCell? number value with
    | none =>
      rw [hset] at hr
      cases hr
      refine .inl ⟨fun n h => ?_, rfl⟩
      cases hname.symm.trans h
      exact hset
    | some s =>
      rw [hset] at hr
      refine .inr ⟨number, s, hname, hset, ?_⟩
      obtain ⟨v, u, hget, hr⟩ := bind_ok_inv hr
      cases hget
      split at hr
      · cases hr
      · exact hr

theorem mirroring_followers (numbers : List Nat) :
    (mirroring functions x (some keys)).strict.holds fun _ =>
      numbers.forM (refresh functions (below false)) :=
  Law.forM numbers fun number _ => mirroring_refresh hb hs number

/-- The bridge is told of a key. -/
theorem mirroring_followKey {key : Scalar} {value : Value}
    (hw : Mirroring functions x (some (key :: keys)) w)
    (hvalue : x.Stays w → w.store.read key = value)
    (hr : followKey functions (below false) x.bridge key value w = .ok () w') :
    Mirroring functions x (some keys) w' ∧ Abides x (some keys) w w' := by
  rcases followKey_ok hr with ⟨hcells, rfl⟩ | ⟨number, s, hname, hset, hrest⟩
  · exact ⟨hw.turnedNot hvalue hcells, .refl x _ w'⟩
  · obtain ⟨hw₁, ha₁⟩ := hw.turned hvalue hname hset
    obtain ⟨hw', ha'⟩ := Keeping.ok_of_law (mirroring_followers hb hs _) hw₁ hrest
    exact ⟨hw', ha₁.widen.trans ha'⟩

/-- Another bridge is told of a key. -/
theorem mirroring_passing {bridge : Nat} (hother : bridge ≠ x.bridge) (key : Scalar)
    (value : Value) : (mirroring functions x (some keys)).loose.holds fun _ =>
      followKey functions (below false) bridge key value := by
  refine Keeping.loose_of_ok fun w hw _ w' hr => ?_
  rcases followKey_ok hr with ⟨-, rfl⟩ | ⟨number, s, hname, hset, hrest⟩
  · exact ⟨hw, .refl x _ w'⟩
  · obtain ⟨hw₁, ha₁⟩ := hw.passed hother hname hset
    obtain ⟨hw', ha'⟩ := Keeping.ok_of_law (mirroring_followers hb hs _) hw₁ hrest
    exact ⟨hw', ha₁.trans ha'⟩

/-- The bridge is told of an event, key by key. -/
theorem mirroring_told {entries : Dict Scalar Value}
    (hw : Mirroring functions x (some entries.keys) w)
    (hvalues : x.Stays w → ∀ e ∈ entries, w.store.read e.1 = e.2)
    (hr : (entries.forM fun e => followKey functions (below false) x.bridge e.1 e.2) w =
      .ok () w') : Mirroring functions x (some []) w' ∧ Abides x (some []) w w' := by
  induction entries generalizing w with
  | nil =>
    cases hr
    exact ⟨hw, .refl x _ _⟩
  | cons e rest ih =>
    obtain ⟨_, u, hu, hr⟩ := bind_ok_inv hr
    obtain ⟨hwu, hau⟩ := mirroring_followKey hb hs hw
      (fun hx => hvalues hx e List.mem_cons_self) hu
    have hread : ∀ key, u.store.read key = w.store.read key := by
      intro key
      unfold Store.read
      rw [hau.still rfl]
    obtain ⟨hw', ha'⟩ := ih hwu
      (fun hx e' he' => (hread e'.1).trans (hvalues (hau.stays hx) e' (List.mem_cons_of_mem e he')))
      hr
    exact ⟨hw', hau.widen.trans ha'⟩

/-- When a listener is told of an event, the bridge has heard of all if it was this one, and if it
had heard of all before. -/
theorem mirroring_deliver {l : Listener σ} {event : Event}
    (hw : Mirroring functions x (some event.new.keys) w)
    (hvalues : x.Stays w → ∀ e ∈ event.new, w.store.read e.1 = e.2)
    (hr : deliver functions (below false) l event w = .ok () w') :
    Mirroring functions x (some event.new.keys) w' ∧ Abides x (some event.new.keys) w w' ∧
      (l = .bridge x.bridge ∨ Mirroring functions x (some []) w →
        Mirroring functions x (some []) w') := by
  by_cases hl : l = .bridge x.bridge
  · subst hl
    obtain ⟨hw', ha'⟩ := mirroring_told hb hs hw hvalues hr
    exact ⟨hw'.doubted fun _ => nofun, ha'.widen, fun _ => hw'⟩
  · have hlaw : ∀ keys, (mirroring functions x (some keys)).loose.holds fun _ =>
        deliver functions (below false) l event := by
      intro keys
      cases l with
      | host program =>
        refine (mirroring functions x (some keys)).loose.bind ?_ fun _ =>
          (mirroring functions x (some keys)).loose.answer ()
        exact Keeping.loose_of_law (hb.act (some keys) trivial)
      | bridge number =>
        have hother : number ≠ x.bridge := fun h => hl (congrArg _ h)
        exact Law.forM _ fun e _ => mirroring_passing hb hs hother e.1 e.2
    obtain ⟨hw', ha'⟩ := Keeping.ok_of_law (hlaw _) hw hr
    refine ⟨hw', ha', fun h => ?_⟩
    exact (Keeping.ok_of_law (hlaw []) (h.resolve_left hl) hr).1

theorem mirroring_deliverAll {listeners : List (Nat × Listener σ)} (event : Event)
    (hw : Mirroring functions x (some event.new.keys) w)
    (hvalues : x.Stays w → ∀ e ∈ event.new, w.store.read e.1 = e.2)
    (hr : (listeners.forM fun e => deliver functions (below false) e.2 event) w = .ok () w') :
    Mirroring functions x (some event.new.keys) w' ∧ Abides x (some event.new.keys) w w' ∧
      ((∃ e ∈ listeners, e.2 = .bridge x.bridge) ∨ Mirroring functions x (some []) w →
        Mirroring functions x (some []) w') := by
  induction listeners generalizing w with
  | nil =>
    cases hr
    exact ⟨hw, .refl x _ _, fun h => h.resolve_left nofun⟩
  | cons e rest ih =>
    obtain ⟨_, u, hu, hr⟩ := bind_ok_inv hr
    obtain ⟨hwu, hau, hheard⟩ := mirroring_deliver hb hs hw hvalues hu
    have hread : ∀ key, u.store.read key = w.store.read key := by
      intro key
      unfold Store.read
      rw [hau.still rfl]
    obtain ⟨hw', ha', hheard'⟩ := ih hwu
      (fun hx e' he' => (hread e'.1).trans (hvalues (hau.stays hx) e' he')) hr
    refine ⟨hw', hau.trans ha', fun h => hheard' ?_⟩
    rcases h with ⟨e', he', hbridge⟩ | hall
    · rcases List.mem_cons.mp he' with rfl | he'
      · exact .inr (hheard (.inl hbridge))
      · exact .inl ⟨e', he', hbridge⟩
    · exact .inr (hheard (.inr hall))

/-! ## Transactions -/

/-- When all listeners have been told what a transaction has changed, a bridge that is still
subscribed has heard of it. -/
theorem mirroring_dispatch (hw : Mirroring functions x none w) (hopen : w.inTransaction = true)
    (hold : w.holdsOld = true) (delayed : Bool)
    (hr : mirrorly.dispatch functions below (w.changes.toEvent delayed)
      { w with inTransaction := false } = .ok () w') :
    Mirroring functions x none w' ∧ w'.inTransaction = false ∧
      Abides x none { w with inTransaction := false } w' := by
  have htold := hw.closed hold (w.events ++ [w.changes.toEvent delayed])
  have hvalues : x.Stays w → ∀ e ∈ w.changes.new, w.store.read e.1 = e.2 := fun hx e he =>
    (hw.tallies hx hopen).2 (Dict.get?_of_mem (hw.tallies hx hopen).1 he)
  obtain ⟨hw', ha', hheard⟩ :=
    mirroring_deliverAll hb hs (w.changes.toEvent delayed) htold hvalues hr
  have ha : Abides x none { w with inTransaction := false } w' :=
    ⟨ha'.within, ha'.computing, { ha'.onward with }, ha'.grows, ha'.stays, ha'.names, nofun⟩
  refine ⟨?_, ha'.within, ha⟩
  by_cases hx : x.Stays w'
  · rcases (ha'.stays hx).2 with ⟨number, hsubscribed⟩ | hbridge
    · exact (hheard (.inl ⟨_, hsubscribed, rfl⟩)).heard
    · exact (hheard (.inr (htold.unmade hbridge))).heard
  · exact hw'.gone hx

theorem mirroring_transaction (delayed : Bool) {writes : Run (World σ) Unit}
    (hwrites : (mirroring functions x unheard).inside.holds fun _ => writes) :
    (mirroring functions x unheard).loose.holds fun _ =>
      mirrorly.transaction functions below unheard.isNone delayed writes := by
  refine Keeping.loose_of_ok fun w hw _ w' hr => ?_
  cases mirrorly.transaction_ok functions hr with
  | within hopen hv =>
    obtain ⟨⟨hw', -⟩, ha'⟩ := Keeping.ok_of_law hwrites ⟨hw, hopen⟩ hv
    exact ⟨hw', ha'⟩
  | unchanged hmay hopen hv hempty hend =>
    cases Option.isNone_iff_eq_none.mp hmay
    obtain ⟨⟨hwv, -⟩, hav⟩ := Keeping.ok_of_law hwrites ⟨hw.opened hopen, rfl⟩ hv
    subst hend
    exact ⟨hwv.shut hempty, hav.outside hopen (.refl x none _)⟩
  | told hmay hopen hv hsettled hdispatch =>
    cases Option.isNone_iff_eq_none.mp hmay
    obtain ⟨⟨hwv, hstill⟩, hav⟩ := Keeping.ok_of_law hwrites ⟨hw.opened hopen, rfl⟩ hv
    obtain ⟨hw', -, ha'⟩ := mirroring_dispatch hb hs hwv hstill hsettled delayed hdispatch
    exact ⟨hw', hav.outside hopen ha'⟩

/-! ## Commands -/

theorem mirroring_addEffect (hw : Mirroring functions x unheard w) (hready : w.Derives)
    {bridge : Nat} {expression : Value} {callback : Value → Act σ}
    (hr : addEffect functions (below unheard.isNone) bridge expression callback w = .ok () w') :
    Mirroring functions x unheard w' ∧ Abides x unheard w w' := by
  rw [addEffect_eq] at hr
  obtain ⟨derived, v, hderive, hr⟩ := bind_ok_inv hr
  obtain ⟨s, rfl, hv, hav⟩ := mirroring_derive hw hderive
  have hread : (signalsPart.read : Run (World σ) _) { w with signals := s } =
    .ok s { w with signals := s } := rfl
  have hwrite : (signalsPart.write (s.addEffect bridge derived callback).2 : Run (World σ) Unit)
      { w with signals := s } =
    .ok () { w with signals := (s.addEffect bridge derived callback).2 } := rfl
  rw [bind_ok hread, bind_ok hwrite] at hr
  have hunseen : x.Unseen { w with signals := s }
      { w with signals := (s.addEffect bridge derived callback).2 } :=
    { signals := s.addEffect_spared bridge derived callback
      names := fun _ _ _ _ => (Signals.names_updateBridge (by intro; rfl)).mpr }
  obtain ⟨hu, hau⟩ := hv.unseen hunseen
  have hafter := mirroring_handOver hb hs hu hready s.effects.length ⟨derived, callback, 0⟩
  rw [hr] at hafter
  exact ⟨hafter.1, hav.trans (hau.trans hafter.2)⟩

/-- A command that writes nothing keeps the mirror, if values may be derived or it derives none. -/
theorem mirroring_reading (bound : Nat) {c : Command} (hc : c.isWrite = false)
    {callback : c.Input → Act σ} (hw : Mirroring functions x unheard w)
    (hallowed : mirrorly.allowed w c = true) {a : c.Answer}
    (hr : exec functions (below unheard.isNone) bound c callback w = .ok a w') :
    Mirroring functions x unheard w' ∧ Abides x unheard w w' := by
  have hready : c.derives = true → w.Derives := by
    intro hd
    have hboth : (!c.derives || !w.inTransaction && w.holdsOld) = true := hallowed
    simpa [hd, World.Derives] using hboth
  cases hn : c.isSignal with
  | false =>
    exact Keeping.ok_of_law (mirroring_roster.exec (hs unheard) (fun _ => bound) hc hn
      fun _ => trivial) hw hr
  | true =>
    cases c with
    | connect =>
      cases hr
      exact hw.unseen (x.unseen_connected _)
    | signal bridge key =>
      obtain ⟨name, v, hname, hnext⟩ := bind_ok_inv hr
      obtain ⟨-, rfl⟩ := ofExcept_ok hname
      obtain ⟨numbers, s, hcells, hkept, -⟩ := mirroring_cellsFor hw bridge [name]
      rw [bind_ok hcells] at hnext
      cases numbers <;> cases hnext
      exact hkept
    | readSignal cell =>
      cases hr
      exact ⟨hw, .refl x _ _⟩
    | compute bridge expression =>
      obtain ⟨-, -, hkept⟩ := mirroring_derive hw hr
      exact hkept
    | readComputed number =>
      have hafter := mirroring_readComputed hb hs hw (hready rfl) number
      change readComputed functions (below unheard.isNone) number w = .ok a w' at hr
      rwa [hr] at hafter
    | effect bridge expression => exact mirroring_addEffect hb hs hw (hready rfl) hr
    | disconnect bridge => exact mirroring_disconnect hw bridge hr
    | _ => cases hn

end

end

/-- A run in which no one who is told of an event writes keeps the mirror. -/
theorem mirroring_household {functions : Functions σ} {x : Mirror σ} :
    Household mirrorly functions (fun _ => True) Option.isNone (mirroring functions x) where
  within h := h.within
  busied hw hbusied := hw.unseen (x.unseen_of_busied hbusied)
  programs _ := mirroring_admits
  hears hw := hw.hears
  stored key value hw hopen hdeaf := hw.stored key value hopen hdeaf
  noted key value hw hopen _ := hw.noted key value hopen
  reading := fun {_} hb hs {_} bound {_} hc {_} _ {_} hw hallowed {_ _} hr =>
    mirroring_reading hb hs bound hc hw hallowed hr
  transact := fun {_} hb hs {_} delayed {_} hwrites =>
    mirroring_transaction hb hs delayed hwrites

end Switchboard.Manager
