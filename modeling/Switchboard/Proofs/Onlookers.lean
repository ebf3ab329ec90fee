-- Those who only look on. A program that gives no command that writes leaves the state alone, no
-- limit of depth matters for it, and it comes to an end if the functions of the host do. All this
-- is so because each command that does not write obeys every law of computations that look on.
import Switchboard.Proofs.Regime
import Switchboard.Proofs.Termination
namespace Switchboard.Manager

open World Conduct

variable {ι σ α β : Type}

/-! ## Laws of looking on -/

/-- Is a change of a manager one that those who look on can make, the same under every limit? -/
structure Idle (change : World σ → World σ) : Prop where
  same : ∀ limit w, change (w.limited limit) = (change w).limited limit
  onlookers : ∀ w : World σ, w.Onlookers → (change w).Onlookers
  spared : ∀ w, Spared w (change w)

theorem idle_signals {change : Signals (Value → Act σ) → Signals (Value → Act σ)}
    (h : ∀ s, EffectsWriteNothing s → EffectsWriteNothing (change s)) :
    Idle fun w : World σ => { w with signals := change w.signals } :=
  ⟨fun _ _ => rfl, fun w hw => ⟨hw.listeners, h w.signals hw.effects⟩, fun _ => ⟨.inl rfl, rfl⟩⟩

/-- What those who look on may do obeys the law. Nothing they see of a manager is its limit, and of
the faults that they catch none is that the bound is used up. -/
structure Watches (L : Law ι (World σ)) : Prop where
  sees : ∀ {α : Type} {next : ι → World σ → Run (World σ) α},
    (∀ i limit w, next i (w.limited limit) = next i w) →
    (∀ w, w.Onlookers → L.holds fun i => next i w) → L.holds fun i => get >>= next i
  spent : ∀ {α : Type} {act : Run (World σ) α}, Moves World.Spent act → L.holds fun _ => act
  idle : ∀ {change : World σ → World σ}, Idle change →
    L.holds fun _ => (modify change : Run (World σ) Unit)
  ensuring : ∀ {α : Type} {act : ι → Run (World σ) α} {change : World σ → World σ}, Idle change →
    L.holds act → L.holds fun i => (act i).ensuring change
  attempt : ∀ {α β : Type} {act : ι → Run (World σ) α}
    {next : ι → Except Fault α → Run (World σ) β}, L.holds act →
    (∀ r, Ordinary r → L.holds fun i => next i r) → L.holds fun i => (act i).outcome >>= next i

/-- Does a computation make no difference to the state, where others look on? They still do
afterwards, and all goes the same under every limit. -/
structure AloofAt (act : Run (World σ) α) (w : World σ) : Prop where
  same : ∀ limit, act (w.limited limit) = Run.mapEnd (World.limited limit) (act w)
  onlookers : (Run.ending (act w)).Onlookers
  spared : Spared w (Run.ending (act w))

theorem aloofAt_after {act rest : Run (World σ) α} {w v : World σ} (hr : act w = rest v)
    (hlimited : ∀ limit, act (w.limited limit) = rest (v.limited limit)) (hv : Spared w v)
    (h : AloofAt rest v) : AloofAt act w := by
  refine ⟨fun limit => ?_, ?_, ?_⟩
  · rw [hlimited, hr]
    exact h.same limit
  · rw [hr]
    exact h.onlookers
  · rw [hr]
    exact hv.trans h.spared

theorem aloofAt_error {act : Run (World σ) α} {w v : World σ} {f : Fault}
    (hr : act w = .error f v)
    (hlimited : ∀ limit, act (w.limited limit) = .error f (v.limited limit)) (hv : v.Onlookers)
    (hspared : Spared w v) : AloofAt act w := by
  refine ⟨fun limit => ?_, ?_, ?_⟩ <;> rw [hr]
  · exact hlimited limit
  · exact hv
  · exact hspared

theorem aloofAt_ensuring {act : Run (World σ) α} {change : World σ → World σ} {w : World σ}
    (h : Idle change) (ha : AloofAt act w) : AloofAt (act.ensuring change) w := by
  have hend : Run.ending (act.ensuring change w) = change (Run.ending (act w)) := by
    rw [Run.ensuring_eq, Run.ending_mapEnd]
  refine ⟨fun limit => ?_, ?_, ?_⟩
  · rw [Run.ensuring_eq, Run.ensuring_eq, ha.same, Run.mapEnd_mapEnd, Run.mapEnd_mapEnd]
    exact congrArg (fun f => Run.mapEnd f (act w)) (funext fun v => h.same limit v)
  · rw [hend]
    exact h.onlookers _ ha.onlookers
  · rw [hend]
    exact ha.spared.trans (h.spared _)

/-- Being aloof is a law of single computations. -/
def aloof : Law Unit (World σ) where
  holds act := ∀ w : World σ, w.Onlookers → AloofAt (act ()) w
  answer _ w hw := ⟨fun _ => rfl, hw, .inl rfl, rfl⟩
  fault _ w hw := ⟨fun _ => rfl, hw, .inl rfl, rfl⟩
  bind {_ _ act next} h hn w hw := by
    obtain ⟨hsame, honlookers, hspared⟩ := h w hw
    cases hr : act () w with
    | error f v =>
      rw [hr] at hsame honlookers hspared
      exact aloofAt_error (bind_error hr) (fun limit => bind_error (hsame limit)) honlookers hspared
    | ok a v =>
      rw [hr] at hsame honlookers hspared
      exact aloofAt_after (bind_ok hr) (fun limit => bind_ok (hsame limit)) hspared
        (hn a v honlookers)

theorem watches_aloof : Watches (aloof : Law Unit (World σ)) where
  sees {_ next} hsame hn w hw := by
    have hlimited : ∀ limit, (get >>= next ()) (w.limited limit) = next () w (w.limited limit) :=
      fun limit => congrFun (hsame () limit w) (w.limited limit)
    have hseen : (get >>= next ()) w = next () w w := rfl
    exact aloofAt_after hseen hlimited ⟨.inl rfl, rfl⟩ (hn w hw w hw)
  spent h w hw := ⟨fun limit => h.same limit w, hw.spent (h.related w), (h.related w).spared⟩
  idle h w hw := ⟨fun limit => congrArg (EStateM.Result.ok ()) (h.same limit w), h.onlookers w hw,
    h.spared w⟩
  ensuring h ha w hw := aloofAt_ensuring h (ha w hw)
  attempt {_ _ act next} ha hn w hw := by
    obtain ⟨hsame, honlookers, hspared⟩ := ha w hw
    cases hr : act () w with
    | ok a v =>
      rw [hr] at hsame honlookers hspared
      exact aloofAt_after (bind_ok (outcome_ok hr))
        (fun limit => bind_ok (outcome_ok (hsame limit))) hspared
        (hn (.ok a) (ordinary_ok a) v honlookers)
    | error f v =>
      rw [hr] at hsame honlookers hspared
      by_cases hf : f = .exhausted
      · subst hf
        exact aloofAt_error (bind_error (outcome_exhausted hr))
          (fun limit => bind_error (outcome_exhausted (hsame limit))) honlookers hspared
      · exact aloofAt_after (bind_ok (outcome_error hr hf))
          (fun limit => bind_ok (outcome_error (hsame limit) hf)) hspared
          (hn (.error f) (ordinary_error hf) v honlookers)

theorem watches_settling : Watches (settling World.Onlookers : Law Nat (World σ)) where
  sees _ hn w hw := settlesIn_get (hn w hw w hw)
  spent := settling_moves Onlookers.spent
  idle h := settling_modify h.onlookers
  ensuring h ha w hw := settlesIn_congr (fun n => Run.ensuring_eq _ _ w)
    (settlesIn_mapEnd (ha w hw) h.onlookers)
  attempt {_ _ act next} ha hn w hw := by
    obtain ⟨r, ⟨hfinishes, least, hr⟩, honlookers⟩ := ha w hw
    cases r with
    | ok a v =>
      exact settlesIn_after least (fun n hle => bind_ok (outcome_ok (hr n hle)))
        (hn (.ok a) (ordinary_ok a) v honlookers)
    | error f v =>
      exact settlesIn_after least (fun n hle => bind_ok (outcome_error (hr n hle) hfinishes))
        (hn (.error f) (ordinary_error hfinishes) v honlookers)

/-! ## Commands and programs -/

theorem idle_computing (numbers : List Nat) :
    Idle fun w : World σ => { w with computing := numbers } :=
  ⟨fun _ _ => rfl, fun _ hw => ⟨hw.listeners, hw.effects⟩, fun _ => ⟨.inl rfl, rfl⟩⟩

theorem idle_subscribed {l : Listener σ} (hl : l.WritesNothing) :
    Idle fun w : World σ => { w with
      listeners := w.listeners.put w.nextSubscription l
      nextSubscription := w.nextSubscription + 1 } := by
  refine ⟨fun _ _ => rfl, fun w hw => ⟨fun l' hl' => ?_, hw.effects⟩, fun _ => ⟨.inl rfl, rfl⟩⟩
  obtain ⟨e, he, rfl⟩ := List.mem_map.mp hl'
  rcases Dict.mem_put he with he | ⟨-, he⟩
  · exact hw.listeners e.2 (List.mem_map_of_mem he)
  · rw [← he]
    exact hl

theorem idle_unsubscribed (id : Value) :
    Idle fun w : World σ =>
      { w with listeners := w.listeners.filter fun e => !Store.isId id e.1 } := by
  refine ⟨fun _ _ => rfl, fun w hw => ⟨fun l hl => ?_, hw.effects⟩, fun _ => ⟨.inl rfl, rfl⟩⟩
  obtain ⟨e, he, rfl⟩ := List.mem_map.mp hl
  exact hw.listeners e.2 (List.mem_map_of_mem (List.mem_filter.mp he).1)

section

variable {L : Law ι (World σ)} {functions : Functions σ} {below : ι → Level σ}

theorem Watches.regime (h : Watches L) : Regime L WritesNothing where
  sees hsame hn := h.sees hsame fun w hw => hn w hw.effects
  attempt := h.attempt
  signals hchange := h.idle (idle_signals hchange)
  computing numbers := h.idle (idle_computing numbers)
  computed numbers := h.ensuring (idle_computing numbers)
  subscribed hp := h.idle (idle_subscribed hp)
  connected _ := h.idle (idle_subscribed trivial)
  unsubscribed id := h.idle (idle_unsubscribed id)
  control _ _ := h.idle ⟨fun _ _ => rfl, fun _ hw => ⟨hw.listeners, hw.effects⟩,
    fun _ => ⟨.inl rfl, rfl⟩⟩
  assignment _ _ _ := h.idle ⟨fun _ _ => rfl, fun _ hw => ⟨hw.listeners, hw.effects⟩,
    fun _ => ⟨.inl rfl, rfl⟩⟩
  dispose := h.idle ⟨fun _ _ => rfl, fun _ hw => ⟨(fun _ hl => nomatch hl), hw.effects⟩,
    fun _ => ⟨.inr rfl, rfl⟩⟩

theorem Watches.admits (h : Watches L) : Regime.Admits L WritesNothing where
  fail hf := L.fault hf
  note _ := h.idle ⟨fun _ _ => rfl, fun _ hw => ⟨hw.listeners, hw.effects⟩,
    fun _ => ⟨.inl rfl, rfl⟩⟩
  noted hp := hp
  callback hp := hp.2.1
  next hp := hp.2.2

variable (hL : Watches L) (hs : Serves L functions below)

include hL hs

/-- What is told of an event makes no one write who only looks on. -/
theorem watches_deliver (hact : ∀ p, WritesNothing p → L.holds fun i => (below i).act p)
    {l : Listener σ} (hl : l.WritesNothing) (event : Event) :
    L.holds fun i => deliver functions (below i) l event :=
  hL.regime.deliver hs hact (by cases l <;> exact hl) event

/-- A program that writes nothing obeys each law of looking on, if what runs as a program does so
when it is called back. -/
theorem watches_program (bound : ι → Nat)
    (hact : ∀ q, WritesNothing q →
      (L.holds fun i => q.run hostPart (exec functions (below i) (bound i))) →
      L.holds fun i => (below i).act q) {p : Act σ} (hp : WritesNothing p) :
    L.holds fun i => p.run hostPart (exec functions (below i) (bound i)) := by
  refine hL.regime.program hL.admits (fun {c callback next} hp hcallback hnext => ?_) hp
  obtain ⟨hc, hquiet, -⟩ := hp
  refine hL.attempt (hL.regime.exec hs bound hc hquiet fun a => ?_) hnext
  exact hact _ (hquiet a) (hcallback a)

end

/-! ## Programs -/

/-- What only looks on is tame. -/
theorem tame_of_aloof {act : Nat → Run (World σ) α}
    (hs : (settling World.Onlookers).holds act) (ha : ∀ n, aloof.holds fun _ => act n) :
    Tame act where
  ends w hw := by
    obtain ⟨r, hr, -⟩ := hs w hw
    exact ⟨r, hr⟩
  same n limit w hw := (ha n w hw).same limit
  onlookers n w hw := (ha n w hw).onlookers

section

variable {functions : Functions σ}
  (hf : ∀ name identity args, WritesNothing (functions name identity args))

include hf

theorem aloof_level (n : Nat) {p : Act σ} (hp : WritesNothing p) :
    aloof.holds fun _ => (level functions n).act p := by
  induction n generalizing p with
  | zero => exact fun w hw => ⟨fun _ => rfl, hw, .inl rfl, rfl⟩
  | succ n ih =>
    have hserves : Serves aloof functions fun _ => level functions n :=
      serves_of_moves watches_aloof.spent fun name identity args => ih (hf name identity args)
    exact watches_program watches_aloof hserves (fun _ => n) (fun q hq _ => ih hq) hp

theorem aloof_deliver (n : Nat) {l : Listener σ} (hl : l.WritesNothing) (event : Event) :
    aloof.holds fun _ => deliver functions (level functions n) l event := by
  have hserves : Serves aloof functions fun _ => level functions n :=
    serves_of_moves watches_aloof.spent fun name identity args =>
      aloof_level hf n (hf name identity args)
  exact watches_deliver watches_aloof hserves (fun _ hp => aloof_level hf n hp) hl event

/-- Does every call of a function come to an end, where others only look on? -/
def Total (functions : Functions σ) : Prop :=
  ∀ name identity args (w : World σ), w.Onlookers →
    ∃ r, Settles (fun n => (level functions n).act (functions name identity args)) w r

theorem settling_serving (ht : Total functions) :
    Serves (settling World.Onlookers) functions (level functions) := by
  refine serves_of_moves watches_settling.spent fun name identity args w hw => ?_
  obtain ⟨r, hfinishes, least, hr⟩ := ht name identity args w hw
  refine ⟨r, ⟨hfinishes, least, hr⟩, ?_⟩
  rw [← hr least (Nat.le_refl least)]
  exact (aloof_level hf least (hf name identity args) w hw).onlookers

theorem settling_level (ht : Total functions) {p : Act σ} (hp : WritesNothing p) :
    (settling World.Onlookers).holds fun n => (level functions n).act p := by
  have hnested : ∀ q, WritesNothing q →
      ((settling World.Onlookers).holds fun n =>
        q.run hostPart (exec functions (level functions n) n)) →
      (settling World.Onlookers).holds fun n => (level functions n).act q :=
    fun q _ h w hw => settlesIn_succ (h w hw)
  exact hnested p hp
    (watches_program watches_settling (settling_serving hf ht) (fun n => n) hnested hp)

theorem tame_deliver (ht : Total functions) {l : Listener σ} (hl : l.WritesNothing)
    (event : Event) : Tame fun n => deliver functions (level functions n) l event :=
  tame_of_aloof
    (watches_deliver watches_settling (settling_serving hf ht) (fun _ hp => settling_level hf ht hp)
      hl event)
    fun n => aloof_deliver hf n hl event

/-- Functions are harmless that write nothing and come to an end. -/
theorem harmless_of_total (ht : Total functions) : Harmless functions where
  tame name identity args := tame_of_aloof (settling_level hf ht (hf name identity args))
    fun n => aloof_level hf n (hf name identity args)
  spares n name identity args w hw := (aloof_level hf n (hf name identity args) w hw).spared

end

end Switchboard.Manager
