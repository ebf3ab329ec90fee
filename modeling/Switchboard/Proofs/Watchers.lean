-- What listeners hear. A watcher is a listener that books each event it is told of before it does
-- anything else. Where those who are told before it start no transaction meanwhile, its book is the
-- log of the manager, and the last it heard of a key is what the state holds.
import Switchboard.Proofs.Household
namespace Switchboard

/-- The value of a key that events tell of, the last first. Without one it is the given value. -/
def Event.lastTold (told : List Event) (key : Scalar) (start : Value) : Value :=
  told.foldl (fun value event => (event.new.get? key).getD value) start

theorem Event.lastTold_concat (told : List Event) (event : Event) (key : Scalar) (start : Value) :
    lastTold (told ++ [event]) key start =
      (event.new.get? key).getD (lastTold told key start) := by
  unfold lastTold
  rw [List.foldl_append]
  rfl

namespace Manager

open World Conduct

variable {σ : Type}

/-! ## Watchers -/

/-- Does a program leave a book of the host alone, whatever it is answered? -/
def Spares (book : σ → List Event) : Act σ → Prop
  | .done _ | .fail _ => True
  | .note change next => (∀ s, book (change s) = book s) ∧ ∀ s, Spares book (next s)
  | .perform _ callback next => (∀ a, Spares book (callback a)) ∧ ∀ r, Spares book (next r)

/-- A listener with a book of the events it is told of. -/
structure Watcher (σ : Type) where
  /-- The number of its subscription. -/
  number : Nat
  book : σ → List Event
  enter : Event → σ → σ
  /-- What it does when it has booked an event. -/
  next : Event → σ → Act σ
  entered : ∀ event s, book (enter event s) = book s ++ [event]

def Watcher.program (x : Watcher σ) (event : Event) : Act σ :=
  .note (x.enter event) (x.next event)

/-- Is a watcher subscribed, and all that are told before it are hushed? -/
def Watcher.Placed (x : Watcher σ) (hushed : Nat → Bool) (listeners : Dict Nat (Listener σ)) :
    Prop :=
  ∃ before after, listeners = before ++ (x.number, .host x.program) :: after ∧
    (∀ e ∈ before, e.1 ≠ x.number ∧ hushed e.1 = true) ∧ ∀ e ∈ after, e.1 ≠ x.number

theorem Watcher.Placed.put {x : Watcher σ} {hushed : Nat → Bool}
    {listeners : Dict Nat (Listener σ)} (h : x.Placed hushed listeners) {number : Nat}
    (hn : number ≠ x.number) (l : Listener σ) : x.Placed hushed (listeners.put number l) := by
  obtain ⟨before, after, rfl, hbefore, hafter⟩ := h
  induction before with
  | nil =>
    refine ⟨[], Dict.put after number l, ?_, nofun, fun e he => ?_⟩
    · simp [Dict.put, Ne.symm hn]
    · rcases Dict.mem_put he with he | ⟨hk, -⟩
      · exact hafter e he
      · exact fun he => hn ((beq_iff_eq.mp hk).trans he)
  | cons e before ih =>
    have he := hbefore e List.mem_cons_self
    obtain ⟨before', after', hput, hbefore', hafter'⟩ :=
      ih fun e he => hbefore e (List.mem_cons_of_mem _ he)
    by_cases hk : (e.1 == number) = true
    · refine ⟨(e.1, l) :: before, after, ?_, ?_, hafter⟩
      · simp [Dict.put, hk]
      · rintro e' (_ | ⟨_, he'⟩)
        · exact he
        · exact hbefore e' (List.mem_cons_of_mem _ he')
    · refine ⟨e :: before', after', ?_, ?_, hafter'⟩
      · rw [List.cons_append, List.cons_append, ← hput, Dict.put, if_neg hk]
      · rintro e' (_ | ⟨_, he'⟩)
        · exact he
        · exact hbefore' e' he'

/-- Who is not removed stays in place. -/
theorem Watcher.Placed.filter {x : Watcher σ} {hushed : Nat → Bool}
    {listeners : Dict Nat (Listener σ)} (h : x.Placed hushed listeners)
    {stays : Nat × Listener σ → Bool}
    (hx : x.number ∈ Dict.keys (listeners.filter stays)) :
    x.Placed hushed (listeners.filter stays) := by
  obtain ⟨before, after, rfl, hbefore, hafter⟩ := h
  have hstays : stays (x.number, .host x.program) = true := by
    obtain ⟨e, he, hnumber⟩ := List.mem_map.mp hx
    obtain ⟨he, hstays⟩ := List.mem_filter.mp he
    rcases List.mem_append.mp he with he | he
    · exact absurd hnumber (hbefore e he).1
    · rcases List.mem_cons.mp he with rfl | he
      · exact hstays
      · exact absurd hnumber (hafter e he)
  refine ⟨before.filter stays, after.filter stays, ?_, fun e he => ?_, fun e he => ?_⟩
  · rw [List.filter_append, List.filter_cons_of_pos hstays]
  · exact hbefore e (List.mem_filter.mp he).1
  · exact hafter e (List.mem_filter.mp he).1

/-- A manager that a watcher may be subscribed to. Its book is its own. -/
structure Watched (x : Watcher σ) (w : World σ) : Prop where
  given : x.number < w.nextSubscription
  effects : EffectsAdmitted (Spares x.book) w.signals
  others : ∀ e ∈ w.listeners, e.1 ≠ x.number → e.2.Admitted (Spares x.book)

/-! ## What a watcher sees of the state -/

/-- What a transaction that is under way has made of a key so far. -/
def World.underway (w : World σ) (key : Scalar) : Option Value :=
  if w.inTransaction then w.changes.new.get? key else none

/-- Does the state hold what was told since a world, and what is under way? -/
def World.Agrees (w base : World σ) : Prop :=
  ∃ told, w.events = base.events ++ told ∧
    ∀ key, w.store.read key =
      (w.underway key).getD (Event.lastTold told key (base.store.read key))

theorem World.Agrees.noted {w base : World σ} (h : w.Agrees base) (key : Scalar) (value : Value)
    (hopen : w.inTransaction = true) : (w.noted key value).Agrees base := by
  obtain ⟨told, hevents, hread⟩ := h
  refine ⟨told, hevents, fun other => ?_⟩
  have hunderway : (w.noted key value).underway other =
      if key == other then some value else w.underway other := by
    unfold underway
    rw [hopen]
    change (if w.inTransaction = true then (w.changes.new.put key value).get? other else none) = _
    rw [hopen, if_pos rfl, Dict.get?_put]
    rfl
  rw [hunderway]
  change (w.stored key value).store.read other = _
  rw [stored_read, hread]
  split <;> rfl

/-- A transaction that is opened has changed nothing yet. -/
theorem World.Agrees.opened {w base : World σ} (h : w.Agrees base)
    (hclosed : w.inTransaction = false) :
    ({ w with changes := {}, inTransaction := true } : World σ).Agrees base := by
  obtain ⟨told, hevents, hread⟩ := h
  refine ⟨told, hevents, fun key => (hread key).trans ?_⟩
  unfold underway
  rw [hclosed]
  rfl

/-- A transaction that has changed nothing is closed without a word. -/
theorem World.Agrees.closed {w base : World σ} (h : w.Agrees base)
    (hempty : w.changes.isEmpty = true) :
    ({ w with inTransaction := false } : World σ).Agrees base := by
  obtain ⟨told, hevents, hread⟩ := h
  refine ⟨told, hevents, fun key => (hread key).trans ?_⟩
  unfold underway
  rw [List.isEmpty_iff.mp hempty]
  split <;> rfl

/-- What a transaction has changed is told when it is closed. -/
theorem World.Agrees.told {w base : World σ} (h : w.Agrees base) (hopen : w.inTransaction = true)
    (delayed : Bool) :
    ({ w with
      inTransaction := false
      events := w.events ++ [w.changes.toEvent delayed] } : World σ).Agrees base := by
  obtain ⟨told, hevents, hread⟩ := h
  refine ⟨told ++ [w.changes.toEvent delayed], ?_, fun key => ?_⟩
  · dsimp only
    rw [hevents, List.append_assoc]
  · rw [Event.lastTold_concat]
    refine (hread key).trans ?_
    unfold underway
    rw [if_pos hopen]
    rfl

/-! ## What a watcher hears -/

/-- A manager in the course of a run with manners, as a watcher knows it that may be subscribed. -/
structure Watching (hushed : Nat → Bool) (x : Watcher σ) (base w : World σ) : Prop
    extends Watched x w where
  hears : w.store.listeners = [] ∨ w.store.listeners = [(.null, [(1, ())])]
  placed : x.number ∈ w.listeners.keys → x.Placed hushed w.listeners
  listening : x.number ∈ w.listeners.keys → w.store.listeners = [(.null, [(1, ())])]
  agrees : x.number ∈ w.listeners.keys → w.Agrees base

/-- Has a watcher that is still subscribed booked the events that were told in between? If no
transaction may be started, then there are none. -/
structure Heard (x : Watcher σ) (may : Bool) (w w' : World σ) : Prop where
  within : w'.inTransaction = w.inTransaction
  told : ∃ events, w'.events = w.events ++ events ∧ (may = false → events = []) ∧
    (x.number ∈ w'.listeners.keys →
      x.number ∈ w.listeners.keys ∧ x.book w'.host = x.book w.host ++ events)

theorem Heard.refl (x : Watcher σ) (may : Bool) (w : World σ) : Heard x may w w :=
  ⟨rfl, [], (List.append_nil _).symm, fun _ => rfl, fun hx => ⟨hx, (List.append_nil _).symm⟩⟩

theorem Heard.trans {x : Watcher σ} {may : Bool} {w u w' : World σ} (h : Heard x may w u)
    (h' : Heard x may u w') : Heard x may w w' := by
  obtain ⟨hwithin, events, hevents, hnone, hbook⟩ := h
  obtain ⟨hwithin', events', hevents', hnone', hbook'⟩ := h'
  refine ⟨hwithin'.trans hwithin, events ++ events', ?_, fun hmay => ?_, fun hx => ?_⟩
  · rw [hevents', hevents, List.append_assoc]
  · rw [hnone hmay, hnone' hmay]
    rfl
  · obtain ⟨hu, hbook'⟩ := hbook' hx
    obtain ⟨hw, hbook⟩ := hbook hu
    exact ⟨hw, by rw [hbook', hbook, List.append_assoc]⟩

theorem Heard.mono {x : Watcher σ} {may : Bool} {w w' : World σ} (h : Heard x may w w') :
    Heard x true w w' := by
  obtain ⟨hwithin, events, hevents, -, hbook⟩ := h
  exact ⟨hwithin, events, hevents, nofun, hbook⟩

/-- What a watcher knows of a manager is kept, and it hears of all that is told. -/
def watching (hushed : Nat → Bool) (x : Watcher σ) (base : World σ) (may : Bool) :
    Keeping (World σ) where
  inv := Watching hushed x base
  rel := Heard x may
  refl := Heard.refl x may
  trans := Heard.trans

section

variable {hushed : Nat → Bool} {x : Watcher σ} {base : World σ} {may : Bool}

/-- What is not told, and does not change the state, nor who is told, makes no difference. -/
theorem Watching.silent {w w' : World σ} (h : Watching hushed x base w)
    (hlisteners : w'.listeners = w.listeners) (hnext : w'.nextSubscription = w.nextSubscription)
    (heffects : EffectsAdmitted (Spares x.book) w'.signals) (hstore : w'.store = w.store)
    (hevents : w'.events = w.events) (hnew : w'.changes.new = w.changes.new)
    (hopen : w'.inTransaction = w.inTransaction) (hbook : x.book w'.host = x.book w.host) :
    Watching hushed x base w' ∧ Heard x may w w' := by
  refine ⟨⟨⟨?_, heffects, ?_⟩, ?_, ?_, ?_, ?_⟩, hopen, [], ?_, fun _ => rfl, fun hx => ⟨?_, ?_⟩⟩
  · rw [hnext]
    exact h.given
  · rw [hlisteners]
    exact h.others
  · rw [hstore]
    exact h.hears
  · rw [hlisteners]
    exact h.placed
  · rw [hlisteners, hstore]
    exact h.listening
  · rw [hlisteners]
    intro hx
    obtain ⟨told, htold, hread⟩ := h.agrees hx
    refine ⟨told, hevents.trans htold, fun key => ?_⟩
    unfold underway
    rw [hstore, hnew, hopen]
    exact hread key
  · rw [hevents, List.append_nil]
  · rwa [hlisteners] at hx
  · rw [hbook, List.append_nil]

theorem Watching.absent {w : World σ} (h : Watching hushed x base w)
    (hdeaf : w.store.listeners = []) : x.number ∉ w.listeners.keys := by
  intro hx
  have hlistening := h.listening hx
  rw [hdeaf] at hlistening
  cases hlistening

/-- The listeners are changed, and who is subscribed does not hear of it. -/
theorem Watching.registered {w : World σ} (h : Watching hushed x base w)
    {listeners : Dict Nat (Listener σ)} {next : Nat} (hnext : w.nextSubscription ≤ next)
    (hothers : ∀ e ∈ listeners, e.1 ≠ x.number → e.2.Admitted (Spares x.book))
    (hkept : x.number ∈ listeners.keys → x.number ∈ w.listeners.keys ∧
      (x.Placed hushed w.listeners → x.Placed hushed listeners)) :
    Watching hushed x base { w with listeners := listeners, nextSubscription := next } ∧
      Heard x may w { w with listeners := listeners, nextSubscription := next } := by
  refine ⟨⟨⟨Nat.lt_of_lt_of_le h.given hnext, h.effects, hothers⟩, h.hears, fun hx => ?_,
    fun hx => h.listening (hkept hx).1, fun hx => h.agrees (hkept hx).1⟩, rfl, [],
    (List.append_nil _).symm, fun _ => rfl, fun hx => ⟨(hkept hx).1, (List.append_nil _).symm⟩⟩
  exact (hkept hx).2 (h.placed (hkept hx).1)

theorem Watching.subscribed {w : World σ} (h : Watching hushed x base w) {l : Listener σ}
    (hl : l.Admitted (Spares x.book)) :
    Watching hushed x base { w with
        listeners := w.listeners.put w.nextSubscription l
        nextSubscription := w.nextSubscription + 1 } ∧
      Heard x may w { w with
        listeners := w.listeners.put w.nextSubscription l
        nextSubscription := w.nextSubscription + 1 } := by
  refine h.registered (Nat.le_succ _) (fun e he hx => ?_) fun hx => ⟨?_, fun hplaced =>
    hplaced.put (Nat.ne_of_gt h.given) l⟩
  · rcases Dict.mem_put he with he | ⟨-, rfl⟩
    · exact h.others e he hx
    · exact hl
  · obtain ⟨e, he, hnumber⟩ := List.mem_map.mp hx
    rcases Dict.mem_put he with he | ⟨hk, -⟩
    · exact List.mem_map.mpr ⟨e, he, hnumber⟩
    · exact absurd ((beq_iff_eq.mp hk).trans hnumber) (Nat.ne_of_gt h.given)

theorem Watching.unsubscribed {w : World σ} (h : Watching hushed x base w)
    (stays : Nat × Listener σ → Bool) :
    Watching hushed x base { w with listeners := w.listeners.filter stays } ∧
      Heard x may w { w with listeners := w.listeners.filter stays } := by
  refine h.registered (Nat.le_refl _) (fun e he => h.others e (List.mem_filter.mp he).1)
    fun hx => ⟨?_, fun hplaced => hplaced.filter hx⟩
  obtain ⟨e, he, hnumber⟩ := List.mem_map.mp hx
  exact List.mem_map.mpr ⟨e, (List.mem_filter.mp he).1, hnumber⟩

theorem Watching.disposed {w : World σ} (h : Watching hushed x base w) :
    Watching hushed x base w.dispose ∧ Heard x may w w.dispose := by
  have hnone : x.number ∉ w.dispose.listeners.keys := nofun
  exact ⟨⟨⟨h.given, h.effects, nofun⟩, .inl rfl, fun hx => absurd hx hnone,
    fun hx => absurd hx hnone, fun hx => absurd hx hnone⟩, rfl, [], (List.append_nil _).symm,
    fun _ => rfl, fun hx => absurd hx hnone⟩

/-! ## What is done apart from transactions -/

theorem watching_regime : Regime (watching hushed x base may).strict (Spares x.book) where
  sees _ hn := Keeping.law_sees fun w hw => hn w hw.effects
  attempt := Keeping.strict_attempt
  signals hchange := Keeping.law_modify fun w hw =>
    hw.silent rfl rfl (hchange w.signals hw.effects) rfl rfl rfl rfl rfl
  computing _ := Keeping.law_modify fun _ hw =>
    hw.silent rfl rfl hw.effects rfl rfl rfl rfl rfl
  computed _ := Keeping.law_ensuring fun _ hw =>
    hw.silent rfl rfl hw.effects rfl rfl rfl rfl rfl
  subscribed hp := Keeping.law_modify fun _ hw => hw.subscribed (l := .host _) hp
  connected _ := Keeping.law_modify fun _ hw => hw.subscribed (l := .bridge _) trivial
  unsubscribed _ := Keeping.law_modify fun _ hw => hw.unsubscribed _
  control _ _ := Keeping.law_modify fun _ hw =>
    hw.silent rfl rfl hw.effects rfl rfl rfl rfl rfl
  assignment _ _ _ := Keeping.law_modify fun _ hw =>
    hw.silent rfl rfl hw.effects rfl rfl rfl rfl rfl
  dispose := Keeping.law_modify fun _ hw => hw.disposed

theorem watching_programs :
    Regime.Admits (watching hushed x base may).strict (Spares x.book) where
  fail _ := Keeping.law_throw _
  note hp := Keeping.law_modify fun w hw =>
    hw.silent rfl rfl hw.effects rfl rfl rfl rfl (hp.1 w.host)
  noted hp := hp.2
  callback hp := hp.1
  next hp r _ := hp.2 r

theorem Watching.stored {w : World σ} (h : Watching hushed x base w) (key : Scalar)
    (value : Value) (hdeaf : w.store.listeners = []) :
    Watching hushed x base (w.stored key value) ∧ Heard x may w (w.stored key value) := by
  have habsent := h.absent hdeaf
  exact ⟨⟨⟨h.given, h.effects, h.others⟩, .inl hdeaf, h.placed, fun hx => absurd hx habsent,
    fun hx => absurd hx habsent⟩, rfl, [], (List.append_nil _).symm, fun _ => rfl,
    fun hx => absurd hx habsent⟩

theorem Watching.noted {w : World σ} (h : Watching hushed x base w) (key : Scalar)
    (value : Value) (hopen : w.inTransaction = true) :
    Watching hushed x base (w.noted key value) ∧ Heard x may w (w.noted key value) :=
  ⟨⟨⟨h.given, h.effects, h.others⟩, h.hears, h.placed, h.listening,
      fun hx => (h.agrees hx).noted key value hopen⟩, rfl, [], (List.append_nil _).symm,
    fun _ => rfl, fun hx => ⟨hx, (List.append_nil _).symm⟩⟩

end

theorem watching_mono {hushed : Nat → Bool} {x : Watcher σ} {base : World σ} {may : Bool}
    {α : Type} {act : Run (World σ) α}
    (h : (watching hushed x base may).loose.holds fun _ => act) :
    (watching hushed x base true).loose.holds fun _ => act :=
  @Keeping.loose_mono (World σ) α (watching hushed x base may) (watching hushed x base true)
    Iff.rfl Heard.mono act h

/-! ## Transactions -/

section

variable {m : Manners σ} {x : Watcher σ} {base : World σ} {functions : Functions σ}
  {below : Bool → Level σ}
  (hb : Tidy functions (Spares x.book) id (watching m.hushed x base) below)
  (hs : ∀ may, Serves (watching m.hushed x base may).strict functions fun _ => below may)

include hb hs

/-- Whoever else is told of an event, the watcher hears of what that sets off. -/
theorem watching_deliver {l : Listener σ} (hl : l.Admitted (Spares x.book)) (may : Bool)
    (event : Event) :
    (watching m.hushed x base may).loose.holds fun _ => deliver functions (below may) l event :=
  Keeping.loose_of_law (watching_regime.deliver (hs may) (fun _ hp => hb.act may hp) hl event)

theorem watching_others {listeners : List (Nat × Listener σ)} (event : Event)
    (hothers : ∀ e ∈ listeners, e.2.Admitted (Spares x.book)) :
    (watching m.hushed x base true).loose.holds fun _ => listeners.forM fun e =>
      deliver functions (below (!m.hushed e.1)) e.2 event := by
  refine Law.forM listeners fun e he => ?_
  exact watching_mono (watching_deliver hb hs (hothers e he) (!m.hushed e.1) event)

/-- Those who are hushed set nothing off that would be told. -/
theorem watching_hushed {listeners : List (Nat × Listener σ)} (event : Event)
    (hothers : ∀ e ∈ listeners, e.2.Admitted (Spares x.book))
    (hhushed : ∀ e ∈ listeners, m.hushed e.1 = true) :
    (watching m.hushed x base false).loose.holds fun _ => listeners.forM fun e =>
      deliver functions (below (!m.hushed e.1)) e.2 event := by
  refine Law.forM listeners fun e he => ?_
  rw [hhushed e he]
  exact watching_deliver hb hs (hothers e he) false event

omit hs in
/-- The watcher books the event, and then hears of what it sets off itself. -/
theorem watching_watcher (hx : ∀ event s, Spares x.book (x.next event s)) (may : Bool)
    (event : Event) {w w' : World σ} (hw : Watching m.hushed x base w)
    (hr : deliver functions (below may) (.host x.program) event w = .ok () w') :
    Watching m.hushed x base w' ∧ ∃ events, w'.events = w.events ++ events ∧
      w'.inTransaction = w.inTransaction ∧
      (x.number ∈ w'.listeners.keys → x.number ∈ w.listeners.keys ∧
        x.book w'.host = x.book w.host ++ event :: events) := by
  obtain ⟨v, u, hv, hu⟩ := bind_ok_inv hr
  cases hu
  have hentered : Watching m.hushed x base { w with host := x.enter event w.host } :=
    { hw with }
  obtain ⟨hw', hwithin, events, hevents, -, hbook⟩ :=
    Keeping.ok_of_law (hb.act may (hx event _)) hentered (hb.noted may hv)
  refine ⟨hw', events, hevents, hwithin, fun hnumber => ⟨(hbook hnumber).1, ?_⟩⟩
  rw [(hbook hnumber).2, x.entered, List.append_assoc]
  rfl

/-- Telling an event of which the watcher has not heard. -/
theorem watching_told (hx : ∀ event s, Spares x.book (x.next event s)) (event : Event)
    {w w' : World σ} (hw : Watching m.hushed x base w)
    (hr : (w.listeners.forM fun e => deliver functions (below (!m.hushed e.1)) e.2 event) w =
      .ok () w') :
    Watching m.hushed x base w' ∧ w'.inTransaction = w.inTransaction ∧
      ∃ events, w'.events = w.events ++ events ∧
        (x.number ∈ w'.listeners.keys → x.number ∈ w.listeners.keys ∧
          x.book w'.host = x.book w.host ++ event :: events) := by
  by_cases hnumber : x.number ∈ w.listeners.keys
  · obtain ⟨before, after, hplace, hbefore, hafter⟩ := hw.placed hnumber
    have hothers := hw.others
    rw [hplace] at hr hothers
    have happend : (before ++ (x.number, .host x.program) :: after).forM (fun e =>
        deliver functions (below (!m.hushed e.1)) e.2 event) = (do
          before.forM fun e => deliver functions (below (!m.hushed e.1)) e.2 event
          ((x.number, .host x.program) :: after).forM fun e =>
            deliver functions (below (!m.hushed e.1)) e.2 event : Run (World σ) Unit) :=
      List.forM_append
    rw [happend] at hr
    obtain ⟨_, u, hu, hr⟩ := bind_ok_inv hr
    obtain ⟨_, v, hv, hr⟩ := bind_ok_inv hr
    obtain ⟨hwu, hwithin, es, hevents, hnone, hbook⟩ := Keeping.ok_of_law
      (watching_hushed hb hs event
        (fun e he => hothers e (List.mem_append_left _ he) (hbefore e he).1)
        fun e he => (hbefore e he).2) hw hu
    cases hnone rfl
    obtain ⟨hwv, events, hevents', hwithin', hbook'⟩ := watching_watcher hb hx _ event hwu hv
    obtain ⟨hw', hwithin'', events', hevents'', -, hbook''⟩ := Keeping.ok_of_law
      (watching_others hb hs event fun e he =>
        hothers e (List.mem_append_right _ (List.mem_cons_of_mem _ he)) (hafter e he)) hwv hr
    refine ⟨hw', hwithin''.trans (hwithin'.trans hwithin), events ++ events', ?_, fun hend => ?_⟩
    · rw [hevents'', hevents', hevents, List.append_nil, List.append_assoc]
    · obtain ⟨hv', hbook''⟩ := hbook'' hend
      obtain ⟨hu', hbook'⟩ := hbook' hv'
      refine ⟨hnumber, ?_⟩
      rw [hbook'', hbook', (hbook hu').2, List.append_nil, List.append_assoc]
      rfl
  · have hothers : ∀ e ∈ w.listeners, e.2.Admitted (Spares x.book) := fun e he =>
      hw.others e he fun he' => hnumber (List.mem_map.mpr ⟨e, he, he'⟩)
    obtain ⟨hw', hwithin, events, hevents, -, hbook⟩ :=
      Keeping.ok_of_law (watching_others hb hs event hothers) hw hr
    exact ⟨hw', hwithin, events, hevents, fun hend => absurd (hbook hend).1 hnumber⟩

/-- The event of a transaction is told to the watcher in its turn. -/
theorem watching_dispatch (hx : ∀ event s, Spares x.book (x.next event s)) (delayed : Bool)
    {w w' : World σ} (hw : Watching m.hushed x base w) (hopen : w.inTransaction = true)
    (hr : m.dispatch functions below (w.changes.toEvent delayed)
      { w with inTransaction := false } = .ok () w') :
    Watching m.hushed x base w' ∧ w'.inTransaction = false ∧
      ∃ events, w'.events = w.events ++ events ∧
        (x.number ∈ w'.listeners.keys → x.number ∈ w.listeners.keys ∧
          x.book w'.host = x.book w.host ++ events) := by
  have htold : Watching m.hushed x base { w with
      inTransaction := false
      events := w.events ++ [w.changes.toEvent delayed] } :=
    ⟨⟨hw.given, hw.effects, hw.others⟩, hw.hears, hw.placed, hw.listening,
      fun hnumber => (hw.agrees hnumber).told hopen delayed⟩
  obtain ⟨hw', hclosed, events, hevents, hbook⟩ := watching_told hb hs hx _ htold hr
  refine ⟨hw', hclosed, w.changes.toEvent delayed :: events, ?_, hbook⟩
  rw [hevents, List.append_assoc]
  rfl

theorem watching_transaction (hx : ∀ event s, Spares x.book (x.next event s)) {may : Bool}
    (delayed : Bool) {writes : Run (World σ) Unit}
    (hwrites : (watching m.hushed x base may).inside.holds fun _ => writes) :
    (watching m.hushed x base may).loose.holds fun _ =>
      m.transaction functions below may delayed writes := by
  refine Keeping.loose_of_ok fun w hw _ w' hr => ?_
  have hrun : ∀ {v : World σ}, w.inTransaction = false →
      writes { w with changes := {}, inTransaction := true } = .ok () v →
      (Watching m.hushed x base v ∧ v.inTransaction = true) ∧
        (watching m.hushed x base may).rel { w with changes := {}, inTransaction := true } v := by
    intro v hopen hv
    have hopened : Watching m.hushed x base { w with changes := {}, inTransaction := true } :=
      ⟨⟨hw.given, hw.effects, hw.others⟩, hw.hears, hw.placed, hw.listening,
        fun hnumber => (hw.agrees hnumber).opened hopen⟩
    exact Keeping.ok_of_law hwrites ⟨hopened, rfl⟩ hv
  cases m.transaction_ok functions hr with
  | within hopen hv =>
    obtain ⟨⟨hw', -⟩, hheard⟩ := Keeping.ok_of_law hwrites ⟨hw, hopen⟩ hv
    exact ⟨hw', hheard⟩
  | unchanged hmay hopen hv hempty hend =>
    subst hmay
    obtain ⟨⟨hwv, hstill⟩, hheard⟩ := hrun hopen hv
    obtain ⟨-, events, hevents, -, hbook⟩ := hheard
    subst hend
    refine ⟨⟨⟨hwv.given, hwv.effects, hwv.others⟩, hwv.hears, hwv.placed, hwv.listening,
      fun hnumber => (hwv.agrees hnumber).closed hempty⟩, hopen.symm, events, hevents, nofun,
      hbook⟩
  | told hmay hopen hv _ hdispatch =>
    subst hmay
    obtain ⟨⟨hwv, hstill⟩, hheard⟩ := hrun hopen hv
    obtain ⟨-, events, hevents, -, hbook⟩ := hheard
    obtain ⟨hw', hclosed, events', hevents', hbook'⟩ :=
      watching_dispatch hb hs hx delayed hwv hstill hdispatch
    refine ⟨hw', hclosed.trans hopen.symm, events ++ events', ?_, nofun, fun hnumber => ?_⟩
    · rw [hevents', hevents, List.append_assoc]
    · obtain ⟨hv', hbook'⟩ := hbook' hnumber
      refine ⟨(hbook hv').1, ?_⟩
      rw [hbook', (hbook hv').2, List.append_assoc]

end

/-- A run keeps what a watcher knows, and the watcher hears of what is told, if all that is run
leaves its book alone and its own program does so once it has booked an event. -/
theorem watching_household {m : Manners σ} {x : Watcher σ} {base : World σ}
    {functions : Functions σ} (hx : ∀ event s, Spares x.book (x.next event s)) :
    Household m functions (Spares x.book) id (watching m.hushed x base) where
  within h := h.within
  busied hw := by
    rintro ⟨_, _, _, _, _, _, _, rfl, -⟩
    exact hw.silent rfl rfl hw.effects rfl rfl rfl rfl rfl
  programs _ := watching_programs
  hears hw := hw.hears
  stored key value hw _ hdeaf := hw.stored key value hdeaf
  noted key value hw hopen _ := hw.noted key value hopen
  reading := fun {_} hb hs {may} bound {_} hc {_} hw {_} hinv _ {_ _} hr =>
    Keeping.ok_of_law (watching_regime.exec (hs may) (fun _ => bound) hc hw
      fun a => hb.act may (hw a)) hinv hr
  transact := fun {_} hb hs {_} delayed {_} hwrites =>
    watching_transaction hb hs hx delayed hwrites

/-! ## The order of events -/

theorem events_of_steps {w w' : World σ} (h : Steps w w') : w.events <+: w'.events := by
  induction h with
  | refl => exact List.prefix_refl _
  | tail _ hs ih =>
    refine ih.trans ?_
    cases hs with
    | aside h => exact ⟨[], (List.append_nil _).trans (congrArg Core.events h.1).symm⟩
    | event e => exact List.prefix_append _ _
    | _ => exact List.prefix_refl _

/-- A watcher subscribed to a manager, all that are told before it hushed. What is run leaves its
book alone. -/
structure Watcher.Attends (x : Watcher σ) (hushed : Nat → Bool) (functions : Functions σ)
    (p : Act σ) (w : World σ) : Prop extends Watched x w where
  placed : x.Placed hushed w.listeners
  functions : ∀ name identity args, Spares x.book (functions name identity args)
  program : Spares x.book p
  next : ∀ event s, Spares x.book (x.next event s)

/-- All listeners hear of the transactions in the order in which they finished, and the last that
they heard of a key is what the state holds: in every run in which no call raises, of listeners that
are subscribed throughout, unless one that is told before them starts a transaction meanwhile. -/
theorem listeners_hear_in_one_order_unless_an_earlier_one_writes (functions : Functions σ)
    (hushed : Nat → Bool) (bound : Nat) (p : Act σ) {w w' : World σ} {v : Value}
    (hr : Reachable w) (hl : w.isLive = true) (hclosed : w.inTransaction = false)
    (h : ({ hushed := hushed } : Manners σ).run functions bound p w = .ok v w') :
    run functions bound p w = .ok v w' ∧ ∃ told, w'.events = w.events ++ told ∧
      ∀ x : Watcher σ, x.Attends hushed functions p w → x.number ∈ w'.listeners.keys →
        x.book w'.host = x.book w.host ++ told ∧
        ∀ key, w'.store.read key = Event.lastTold told key (w.store.read key) := by
  have hplain := Manners.run_ok h
  refine ⟨hplain, ?_⟩
  obtain ⟨told, htold⟩ := events_of_steps
    ((a_program_goes_by_single_changes functions bound p w).good hplain)
  refine ⟨told, htold.symm, fun x hx hnumber => ?_⟩
  have hstart : Watching hushed x w w :=
    ⟨hx.toWatched, .inr (hr.listeners hl), fun _ => hx.placed, fun _ => hr.listeners hl,
      fun _ => ⟨[], (List.append_nil _).symm, fun key => by unfold underway; rw [hclosed]; rfl⟩⟩
  have hhousehold : Household { hushed := hushed } functions (Spares x.book)
      id (watching hushed x w) := watching_household hx.next
  have htidy := hhousehold.tidy hx.functions bound
  obtain ⟨hw', hwithin, events, hevents, -, hbook⟩ :=
    Keeping.ok_of_law (htidy.act true hx.program) hstart h
  cases List.append_cancel_left (hevents.symm.trans htold.symm)
  refine ⟨(hbook hnumber).2, fun key => ?_⟩
  obtain ⟨told', htold', hread⟩ := hw'.agrees hnumber
  cases List.append_cancel_left (htold'.symm.trans htold.symm)
  rw [hread, underway, hwithin, hclosed]
  rfl

/-! ## Two at a desk -/

/-- The books of two listeners. -/
abbrev Books := List Event × List Event

/-- One who only keeps a book. -/
def scribe (number : Nat) : Watcher Books where
  number := number
  book := Prod.fst
  enter event s := (s.1 ++ [event], s.2)
  next _ _ := .done .null
  entered _ _ := rfl

/-- One who amends what is new. -/
def amender (number : Nat) : Watcher Books where
  number := number
  book := Prod.snd
  enter event s := (s.1, s.2 ++ [event])
  next event _ :=
    if (event.old.get? (.text "a")).any (·.strictEquals .null) then
      .ask (.setState (.map 0 [(.text "a", .int 2)])) nofun fun _ => .done .null
    else .done .null
  entered _ _ := rfl

def idle : Functions Books := fun _ _ _ => .done .null

/-- A manager with two listeners. -/
def desk (first second : Nat × Listener Books) : World Books :=
  { Setup.world {} (.ofNat 0) ([], []) with
    listeners := [first, second]
    nextSubscription := 3 }

def entry : Act Books :=
  .ask (.setState (.map 0 [(.text "a", .int 1)])) nofun fun _ => .done .null

theorem desk_reachable (first second : Nat × Listener Books) : Reachable (desk first second) :=
  ⟨{}, .ofNat 0, ([], []), .single (.aside ⟨rfl, Nat.le_refl _⟩)⟩

theorem scribe_spares (number : Nat) (event : Event) :
    Spares (Prod.snd : Books → List Event) ((scribe number).program event) :=
  ⟨fun _ => rfl, fun _ => trivial⟩

theorem spares_amend (book : Books → List Event) (number : Nat) (event : Event) (s : Books) :
    Spares book ((amender number).next event s) := by
  change Spares book (if _ then _ else _)
  split
  · refine ⟨nofun, fun r => ?_⟩
    cases r <;> trivial
  · trivial

theorem amender_spares (number : Nat) (event : Event) :
    Spares (Prod.fst : Books → List Event) ((amender number).program event) :=
  ⟨fun _ => rfl, fun s => spares_amend Prod.fst number event s⟩

theorem spares_entry (book : Books → List Event) : Spares book entry := by
  refine ⟨nofun, fun r => ?_⟩
  cases r <;> trivial

/-- Who comes second attends if the first is hushed. -/
theorem amender_attends :
    (amender 2).Attends (· == 1) idle entry
      (desk (1, .host (scribe 1).program) (2, .host (amender 2).program)) := by
  refine ⟨⟨by decide, nofun, ?_⟩, ⟨[(1, .host (scribe 1).program)], [], rfl, ?_, nofun⟩,
    fun _ _ _ => trivial, spares_entry _, spares_amend _ 2⟩
  · rintro e (_ | ⟨_, _ | ⟨_, ⟨⟩⟩⟩) hnumber
    · exact scribe_spares 1
    · exact absurd rfl hnumber
  · rintro e (_ | ⟨_, ⟨⟩⟩)
    decide

theorem scribe_attends :
    (scribe 1).Attends (· == 1) idle entry
      (desk (1, .host (scribe 1).program) (2, .host (amender 2).program)) := by
  refine ⟨⟨by decide, nofun, ?_⟩, ⟨[], [(2, .host (amender 2).program)], rfl, nofun, ?_⟩,
    fun _ _ _ => trivial, spares_entry _, fun _ _ => trivial⟩
  · rintro e (_ | ⟨_, _ | ⟨_, ⟨⟩⟩⟩) hnumber
    · exact absurd rfl hnumber
    · exact amender_spares 2
  · rintro e (_ | ⟨_, ⟨⟩⟩)
    decide

/-- The scribe is told of each event before the amender, who amends the entry. The two keep the same
book. -/
theorem two_listeners_keep_the_same_book :
    ∃ v told w', run idle 9 entry
        (desk (1, .host (scribe 1).program) (2, .host (amender 2).program)) = .ok v w' ∧
      told.length = 2 ∧ w'.events = told ∧ w'.host.1 = told ∧ w'.host.2 = told ∧
      ∀ key, w'.store.read key = Event.lastTold told key .null := by
  have hruns : (({ hushed := (· == 1) } : Manners Books).run idle 9 entry).yields
      (desk (1, .host (scribe 1).program) (2, .host (amender 2).program)) (fun _ w' =>
        w'.events.length = 2 && w'.listeners.keys = [1, 2]) = true := by decide +kernel
  obtain ⟨v, w', hrun, hcheck⟩ := Run.yields_ok hruns
  rw [Bool.and_eq_true] at hcheck
  have hkeys : w'.listeners.keys = [1, 2] := of_decide_eq_true hcheck.2
  obtain ⟨hplain, told, htold, hheard⟩ :=
    listeners_hear_in_one_order_unless_an_earlier_one_writes idle (· == 1) 9 entry
      (desk_reachable _ _) rfl rfl hrun
  have hscribe := hheard (scribe 1) scribe_attends (by rw [hkeys]; decide)
  have hamender := hheard (amender 2) amender_attends (by rw [hkeys]; decide)
  refine ⟨v, told, w', hplain, ?_, htold, hscribe.1, hamender.1, hscribe.2⟩
  have hlength := of_decide_eq_true hcheck.1
  rwa [htold] at hlength

/-- Are two values integers that differ? -/
def differ : Value → Value → Bool
  | .int m, .int n => m ≠ n
  | _, _ => false

theorem differ_self (v : Value) : differ v v = false := by
  unfold differ
  split
  · simp
  · rfl

/-- If the amender is told first, the scribe hears of the entry when it has heard of what it was
amended to: in the end the scribe takes the entry for what the state holds. -/
theorem who_hears_of_an_entry_late_takes_it_for_the_state :
    ¬ ∀ (p : Act Books) (w w' : World Books) (v : Value), Reachable w → w.isLive = true →
      w.inTransaction = false →
      ({ hushed := fun _ => false } : Manners Books).run idle 9 p w = .ok v w' →
      ∃ told, w'.events = w.events ++ told ∧
        ∀ x : Watcher Books, x.Attends (fun _ => true) idle p w → x.number ∈ w'.listeners.keys →
          x.book w'.host = x.book w.host ++ told ∧
          ∀ key, w'.store.read key = Event.lastTold told key (w.store.read key) := by
  intro h
  have hruns : (({ hushed := fun _ => false } : Manners Books).run idle 9 entry).yields
      (desk (1, .host (amender 1).program) (2, .host (scribe 2).program)) (fun _ w' =>
        differ (w'.store.read (.text "a")) (Event.lastTold w'.host.1 (.text "a") .null) &&
          w'.listeners.keys = [1, 2]) = true := by decide +kernel
  obtain ⟨v, w', hrun, hcheck⟩ := Run.yields_ok hruns
  rw [Bool.and_eq_true] at hcheck
  have hkeys : w'.listeners.keys = [1, 2] := of_decide_eq_true hcheck.2
  have hattends : (scribe 2).Attends (fun _ => true) idle entry
      (desk (1, .host (amender 1).program) (2, .host (scribe 2).program)) := by
    refine ⟨⟨by decide, nofun, ?_⟩, ⟨[(1, .host (amender 1).program)], [], rfl, ?_, nofun⟩,
      fun _ _ _ => trivial, spares_entry _, fun _ _ => trivial⟩
    · rintro e (_ | ⟨_, _ | ⟨_, ⟨⟩⟩⟩) hnumber
      · exact amender_spares 1
      · exact absurd rfl hnumber
    · rintro e (_ | ⟨_, ⟨⟩⟩)
      decide
  obtain ⟨told, -, hheard⟩ := h entry _ w' v (desk_reachable _ _) rfl rfl hrun
  obtain ⟨hbook, hread⟩ := hheard (scribe 2) hattends (by rw [hkeys]; decide)
  have hbook : w'.host.1 = told := hbook
  have hstate : w'.store.read (.text "a") = Event.lastTold told (.text "a") .null :=
    hread (.text "a")
  rw [hbook, hstate, differ_self] at hcheck
  cases hcheck.1

end Manager
end Switchboard
