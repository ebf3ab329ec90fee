-- What stays so in a run with manners. A keeping says which worlds are of a kind, and how those of
-- a run are related. What is kept by the single things that a manager does to its world, by the
-- commands that read and by transactions, is kept by host programs, however deep they nest.
import Switchboard.Proofs.Civility
import Switchboard.Proofs.NetEffect
namespace Switchboard.Manager

open World Conduct

variable {σ κ : Type}

/-! ## Keepings -/

/-- A kind of states, and how states of a run of that kind are related. -/
structure Keeping (ω : Type) where
  inv : ω → Prop
  rel : ω → ω → Prop
  refl : ∀ w, rel w w
  trans : ∀ {a b c}, rel a b → rel b c → rel a c

namespace Keeping

variable {ω α β : Type}

/-- Is the kind kept at the end of a computation, unless it is a fault that is not minded? -/
def After (k : Keeping ω) (minds : Fault → Prop) (w : ω) : EStateM.Result Fault ω α → Prop
  | .ok _ w' => k.inv w' ∧ k.rel w w'
  | .error f w' => minds f → k.inv w' ∧ k.rel w w'

variable {k : Keeping ω} {minds : Fault → Prop}

theorem After.mono {k' : Keeping ω} {minds' : Fault → Prop} {w w' : ω}
    {r : EStateM.Result Fault ω α} (h : k.After minds w r) (hminds : ∀ f, minds' f → minds f)
    (hkept : ∀ {v}, k.inv v ∧ k.rel w v → k'.inv v ∧ k'.rel w' v) : k'.After minds' w' r := by
  cases r with
  | ok a v => exact hkept h
  | error f v => exact fun hf => hkept (h (hminds f hf))

theorem After.trans {w v : ω} {r : EStateM.Result Fault ω α} (hv : k.rel w v)
    (h : k.After minds v r) : k.After minds w r :=
  h.mono (fun _ hf => hf) fun h => ⟨h.1, k.trans hv h.2⟩

theorem after_bind {act : Run ω α} {next : α → Run ω β} {w : ω}
    (h : k.After minds w (act w))
    (hn : ∀ a v, act w = .ok a v → k.inv v → k.After minds v (next a v)) :
    k.After minds w ((act >>= next) w) := by
  cases hr : act w with
  | ok a v =>
    rw [hr] at h
    rw [bind_ok hr]
    exact .trans h.2 (hn a v hr h.1)
  | error f v =>
    rw [hr] at h
    rw [bind_error hr]
    exact h

/-- What stays so of the kind. -/
def law (k : Keeping ω) (minds : Fault → Prop) : Law Unit ω where
  holds act := ∀ w, k.inv w → k.After minds w (act () w)
  answer _ w hw := ⟨hw, k.refl w⟩
  fault _ w hw _ := ⟨hw, k.refl w⟩
  bind h hn w hw := after_bind (h w hw) fun a v _ hv => hn a v hv

/-- After all faults but that the bound is used up. -/
def strict (k : Keeping ω) : Law Unit ω := k.law (· ≠ .exhausted)

/-- After no fault. -/
def loose (k : Keeping ω) : Law Unit ω := k.law fun _ => False

/-- The states of the kind in which something else is so too. -/
def during (k : Keeping ω) (p : ω → Prop) : Keeping ω where
  inv w := k.inv w ∧ p w
  rel := k.rel
  refl := k.refl
  trans := k.trans

theorem ok_of_law {act : Run ω α} (h : (k.law minds).holds fun _ => act) {w w' : ω} {a : α}
    (hw : k.inv w) (hr : act w = .ok a w') : k.inv w' ∧ k.rel w w' := by
  have hafter := h w hw
  dsimp only at hafter
  rwa [hr] at hafter

theorem loose_of_ok {act : Run ω α}
    (h : ∀ w, k.inv w → ∀ a w', act w = .ok a w' → k.inv w' ∧ k.rel w w') :
    k.loose.holds fun _ => act := by
  intro w hw
  dsimp only
  cases hr : act w with
  | ok a w' => exact h w hw a w' hr
  | error f w' => exact fun hf => hf.elim

theorem loose_of_law {act : Run ω α} (h : (k.law minds).holds fun _ => act) :
    k.loose.holds fun _ => act :=
  loose_of_ok fun _ hw _ _ hr => ok_of_law h hw hr

/-- What is kept is kept in a part of the kind that is not left. -/
theorem during_of_law {p : ω → Prop} (hp : ∀ {w w'}, k.rel w w' → p w → p w') {act : Run ω α}
    (h : (k.law minds).holds fun _ => act) : ((k.during p).law minds).holds fun _ => act :=
  fun w hw => (h w hw.1).mono (fun _ hf => hf) fun h => ⟨⟨h.1, hp h.2 hw.2⟩, h.2⟩

/-- What is kept in a narrower relation is kept in a wider one. -/
theorem loose_mono {k k' : Keeping ω} (hinv : ∀ {w}, k'.inv w ↔ k.inv w)
    (hrel : ∀ {w w'}, k.rel w w' → k'.rel w w') {act : Run ω α}
    (h : k.loose.holds fun _ => act) : k'.loose.holds fun _ => act :=
  fun w hw => (h w (hinv.mp hw)).mono (fun _ hf => hf) fun h => ⟨hinv.mpr h.1, hrel h.2⟩

theorem law_throw (f : Fault) : (k.law minds).holds fun _ => (throw f : Run ω α) :=
  fun w hw _ => ⟨hw, k.refl w⟩

theorem law_sees {next : ω → Run ω α}
    (h : ∀ w, k.inv w → (k.law minds).holds fun _ => next w) :
    (k.law minds).holds fun _ => get >>= next :=
  fun w hw => h w hw w hw

theorem law_modify {change : ω → ω} (h : ∀ w, k.inv w → k.inv (change w) ∧ k.rel w (change w)) :
    (k.law minds).holds fun _ => (modify change : Run ω Unit) := h

theorem law_ensuring {act : Run ω α} {change : ω → ω}
    (hc : ∀ w, k.inv w → k.inv (change w) ∧ k.rel w (change w))
    (h : (k.law minds).holds fun _ => act) : (k.law minds).holds fun _ => act.ensuring change := by
  intro w hw
  have hafter := h w hw
  have hkept : ∀ {v}, k.inv v ∧ k.rel w v → k.inv (change v) ∧ k.rel w (change v) :=
    fun h => ⟨(hc _ h.1).1, k.trans h.2 (hc _ h.1).2⟩
  dsimp only at hafter ⊢
  rw [Run.ensuring_eq]
  cases hr : act w with
  | ok a v =>
    rw [hr] at hafter
    exact hkept hafter
  | error f v =>
    rw [hr] at hafter
    exact fun hf => hkept (hafter hf)

theorem after_attempt {act : Run ω α} {next : Except Fault α → Run ω β} {w : ω}
    (h : k.After (· ≠ .exhausted) w (act w))
    (hn : ∀ r v, Ordinary r → k.inv v → k.After (· ≠ .exhausted) v (next r v)) :
    k.After (· ≠ .exhausted) w ((act.outcome >>= next) w) := by
  cases hr : act w with
  | ok a v =>
    rw [hr] at h
    rw [bind_ok (outcome_ok hr)]
    exact .trans h.2 (hn _ v (ordinary_ok a) h.1)
  | error f v =>
    rw [hr] at h
    by_cases hf : f = .exhausted
    · subst hf
      rw [bind_error (outcome_exhausted hr)]
      exact fun hf => absurd rfl hf
    · rw [bind_ok (outcome_error hr hf)]
      exact .trans (h hf).2 (hn _ v (ordinary_error hf) (h hf).1)

theorem strict_attempt {act : Run ω α} {next : Except Fault α → Run ω β}
    (h : k.strict.holds fun _ => act) (hn : ∀ r, Ordinary r → k.strict.holds fun _ => next r) :
    k.strict.holds fun _ => act.outcome >>= next :=
  fun w hw => after_attempt (h w hw) fun r v hr => hn r hr v

end Keeping

/-! ## What is kept however deep it is nested -/

/-- A manager under way in a transaction. -/
def Keeping.inside (k : Keeping (World σ)) : Law Unit (World σ) :=
  (k.during fun w => w.inTransaction = true).loose

theorem World.stored_read (w : World σ) (key other : Scalar) (value : Value) :
    (w.stored key value).store.read other =
      if key == other then value else w.store.read other := by
  change ((w.store.state.put key value).get? other).getD .null = _
  rw [Dict.get?_put]
  split <;> rfl

/-- Follow up a change that is noted. -/
def heed (functions : Functions σ) (below : Level σ) (key : Scalar) : Run (World σ) Unit := do
  let assignments ← (do return (← get).listeningTo key)
  (assignments.filter (!·.isDeferred)).forM (applyAssignment functions below)
  (do addTargets ((← get).affected key assignments))
  (assignments.filter (·.isDeferred)).forM defer

/-- Where the manager listens, a write that brings something new is noted and then followed up. -/
theorem writeKey_noted {functions : Functions σ} {below : Level σ} {key : Scalar} {value : Value}
    {w w' : World σ} (h : w.store.listeners = [(.null, [(1, ())])])
    (hs : ¬(w.store.read key).strictEquals value = true)
    (hr : writeKey functions below key value w = .ok () w') :
    ∃ v, heed functions below key (w.noted key value) = .ok () v ∧
      w' = { v with depth := v.depth - 1 } := by
  rw [writeKey_eq h, if_neg hs] at hr
  obtain ⟨v, hv, hend⟩ := onChange_ok hr
  rw [followUp_eq] at hv
  obtain ⟨_, u, hu, hv⟩ := bind_ok_inv hv
  cases checkDepth_ok hu
  exact ⟨v, hv, hend⟩

/-- What is nested on levels with manners keeps what is to be kept. There may be several things to
be kept, each at times when transactions may be started or when not. -/
structure Tidy (functions : Functions σ) (admits : Act σ → Prop) (may : κ → Bool)
    (k : κ → Keeping (World σ)) (below : Bool → Level σ) : Prop where
  calls : ∀ name identity args, admits (functions name identity args)
  act : ∀ i {p}, admits p → (k i).strict.holds fun _ => (below (may i)).act p
  write : ∀ i key value, (k i).inside.holds fun _ => (below (may i)).write key value
  /-- A program that starts with a note goes on from the host that is noted. -/
  noted : ∀ may {change : σ → σ} {next : σ → Act σ} {w w' : World σ} {v : Value},
    (below may).act (.note change next) w = .ok v w' →
      (below may).act (next (change w.host)) { w with host := change w.host } = .ok v w'
  /-- What an expression is evaluated to is what every manager evaluates it to. -/
  plain : ∀ may {e : Expr} {w w' : World σ} {v : Value},
    evaluateNow functions (below may) e w = .ok v w' →
      ∃ n, evaluateNow functions (Manager.level functions (n + 1)) e w = .ok v w'

/-- Does nothing change but what evaluations, deferrals and the clock use up, how deep changes nest,
and which controls are to be refreshed? -/
def World.Busied (w w' : World σ) : Prop :=
  ∃ generator clock pending nextDeferral nextIdentity depth targets,
    w' = { w with
      generator := generator
      clock := clock
      pending := pending
      nextDeferral := nextDeferral
      nextIdentity := nextIdentity
      depth := depth
      changes := { w.changes with targets := targets } } ∧ w.nextIdentity ≤ nextIdentity

/-- What is asked of the single activities, so that a run with manners keeps what is to be kept. -/
structure Household (m : Manners σ) (functions : Functions σ) (admits : Act σ → Prop)
    (may : κ → Bool) (k : κ → Keeping (World σ)) : Prop where
  /-- Whatever is done ends in the transaction in which it began, if in any. -/
  within : ∀ {i w w'}, (k i).rel w w' → w'.inTransaction = w.inTransaction
  busied : ∀ {i} {w w' : World σ}, (k i).inv w → w.Busied w' → (k i).inv w' ∧ (k i).rel w w'
  programs : ∀ i, Regime.Admits (k i).strict admits
  /-- A manager hears of all changes of its state, or of none. -/
  hears : ∀ {i w}, (k i).inv w →
    w.store.listeners = [] ∨ w.store.listeners = [(.null, [(1, ())])]
  stored : ∀ {i w} key value, (k i).inv w → w.inTransaction = true → w.store.listeners = [] →
    (k i).inv (w.stored key value) ∧ (k i).rel w (w.stored key value)
  noted : ∀ {i w} key value, (k i).inv w → w.inTransaction = true →
    w.store.listeners = [(.null, [(1, ())])] →
    (k i).inv (w.noted key value) ∧ (k i).rel w (w.noted key value)
  reading : ∀ {below : Bool → Level σ}, Tidy functions admits may k below →
    (∀ i, Serves (k i).strict functions fun _ => below (may i)) →
    ∀ {i} bound {c : Command}, c.isWrite = false → ∀ {callback : c.Input → Act σ},
      (∀ a, admits (callback a)) → ∀ {w}, (k i).inv w → m.allowed w c = true →
        ∀ {a w'}, exec functions (below (may i)) bound c callback w = .ok a w' →
          (k i).inv w' ∧ (k i).rel w w'
  transact : ∀ {below : Bool → Level σ}, Tidy functions admits may k below →
    (∀ i, Serves (k i).strict functions fun _ => below (may i)) →
    ∀ {i} delayed {writes : Run (World σ) Unit}, ((k i).inside.holds fun _ => writes) →
      (k i).loose.holds fun _ => m.transaction functions below (may i) delayed writes

namespace Household

variable {m : Manners σ} {functions : Functions σ} {admits : Act σ → Prop}
  {may : κ → Bool} {k : κ → Keeping (World σ)} (h : Household m functions admits may k)

include h

/-- What is kept everywhere is kept in a transaction. -/
theorem inside {i : κ} {α : Type} {act : Run (World σ) α}
    (hact : (k i).strict.holds fun _ => act) : (k i).inside.holds fun _ => act :=
  Keeping.loose_of_law
    (Keeping.during_of_law (fun hrel hopen => (h.within hrel).trans hopen) hact)

theorem modify {i : κ} {minds : Fault → Prop} {change : World σ → World σ}
    (hc : ∀ w : World σ, w.Busied (change w)) :
    ((k i).law minds).holds fun _ => (modify change : Run (World σ) Unit) :=
  Keeping.law_modify fun w hw => h.busied hw (hc w)

theorem fresh {i : κ} {minds : Fault → Prop} :
    ((k i).law minds).holds fun _ => (World.fresh : Run (World σ) Nat) :=
  fun w hw => h.busied hw ⟨_, _, _, _, _, _, _, rfl, Nat.le_succ w.nextIdentity⟩

theorem defer (i : κ) (a : Assignment) :
    (k i).strict.holds fun _ => (defer a : Run (World σ) Unit) := by
  intro w hw
  dsimp only
  rw [defer_eq]
  cases w.clock.delayOf a.timeout with
  | ok delay => exact h.busied hw ⟨_, _, _, _, _, _, _, rfl, Nat.le_refl _⟩
  | error f => exact fun _ => ⟨hw, (k i).refl w⟩

theorem addTargets (i : κ) (key : Scalar) (assignments : List Assignment) :
    (k i).strict.holds fun _ =>
      (do addTargets ((← get).affected key assignments) : Run (World σ) Unit) := by
  refine Keeping.law_sees fun v _ w hw => ?_
  obtain ⟨targets, htargets, -⟩ := changeSet_addTargets_from w.changes (v.affected key assignments)
  have hbusied : w.Busied { w with changes := (w.changes.addTargets
      (v.affected key assignments)).1 } :=
    ⟨_, _, _, _, _, _, targets, by rw [htargets], Nat.le_refl _⟩
  dsimp only
  rw [addTargets_eq]
  cases (w.changes.addTargets (v.affected key assignments)).2 with
  | ok u => exact h.busied hw hbusied
  | error f => exact fun _ => h.busied hw hbusied

section

variable {below : Bool → Level σ} (hb : Tidy functions admits may k below)

include hb

theorem serves (i : κ) : Serves (k i).strict functions fun _ => below (may i) where
  fresh := h.fresh
  context := (k i).strict.bind h.fresh fun _ =>
    Keeping.law_sees fun _ _ => (k i).strict.answer _
  call f args := by
    cases f with
    | randomInt =>
      intro w hw
      dsimp only
      rw [callFunction_randomInt]
      cases Generator.roll args w.generator with
      | ok r => exact h.busied hw ⟨_, _, _, _, _, _, _, rfl, Nat.le_refl _⟩
      | error f => exact fun _ => ⟨hw, (k i).refl w⟩
    | now =>
      cases args with
      | nil => exact Keeping.law_sees fun _ _ => (k i).strict.answer _
      | cons a rest => exact Keeping.law_throw _
    | host name =>
      exact (k i).strict.bind h.fresh fun _ => hb.act i (hb.calls name _ args)

theorem applyAssignment (i : κ) (a : Assignment) :
    (k i).inside.holds fun _ => applyAssignment functions (below (may i)) a := by
  have hserves := h.serves hb i
  have hinside : Serves (k i).inside functions fun _ => below (may i) :=
    ⟨h.inside hserves.fresh, h.inside hserves.context,
      fun f args => h.inside (hserves.call f args)⟩
  exact hinside.applyAssignment (hb.write i) a

theorem heed (i : κ) (key : Scalar) :
    (k i).inside.holds fun _ => heed functions (below (may i)) key := by
  refine (k i).inside.bind (h.inside (Keeping.law_sees fun w _ => (k i).strict.answer _))
    fun assignments => ?_
  refine (k i).inside.bind (Law.forM _ fun a _ => h.applyAssignment hb i a) fun _ => ?_
  exact (k i).inside.bind (h.inside (h.addTargets i key assignments)) fun _ =>
    Law.forM _ fun a _ => h.inside (h.defer i a)

theorem writeKey (i : κ) (key : Scalar) (value : Value) :
    (k i).inside.holds fun _ => writeKey functions (below (may i)) key value := by
  refine Keeping.loose_of_ok fun w ⟨hw, hopen⟩ _ w' hr => ?_
  have hinside : ∀ {v}, (k i).inv v ∧ (k i).rel w v →
      ((k i).during fun w => w.inTransaction = true).inv v ∧ (k i).rel w v :=
    fun hv => ⟨⟨hv.1, (h.within hv.2).trans hopen⟩, hv.2⟩
  by_cases hs : (w.store.read key).strictEquals value = true
  · rw [writeKey_eq_forM, if_pos hs] at hr
    cases hr
    exact hinside ⟨hw, (k i).refl w⟩
  · rcases h.hears hw with hlisteners | hlisteners
    · rw [writeKey_unheard hlisteners, if_neg hs] at hr
      cases hr
      exact hinside (h.stored key value hw hopen hlisteners)
    · obtain ⟨v, hv, rfl⟩ := writeKey_noted hlisteners hs hr
      have hnoted := hinside (h.noted key value hw hopen hlisteners)
      have hheeded := Keeping.ok_of_law (h.heed hb i key) hnoted.1 hv
      have hdepth : v.Busied { v with depth := v.depth - 1 } :=
        ⟨_, _, _, _, _, _, _, rfl, Nat.le_refl _⟩
      have hend := h.busied hheeded.1.1 hdepth
      exact hinside ⟨hend.1, (k i).trans hnoted.2 ((k i).trans hheeded.2 hend.2)⟩

theorem orderly (i : κ) : Orderly (k i).loose (k i).inside functions
    (fun _ => below (may i)) fun _ => m.transaction functions below (may i) where
  giveUp := Keeping.law_throw _
  sees hn := Keeping.law_sees fun w _ => hn w
  clock _ := h.modify fun _ => ⟨_, _, _, _, _, _, _, rfl, Nat.le_refl _⟩
  start _ := h.modify fun _ => ⟨_, _, _, _, _, _, _, rfl, Nat.le_refl _⟩
  transact delayed _ := h.transact hb (h.serves hb) delayed
  write := h.writeKey hb i
  apply := h.applyAssignment hb i

theorem exec {i : κ} (bound : Nat) {c : Command} {callback : c.Input → Act σ}
    (hw : ∀ a, admits (callback a)) :
    (k i).strict.holds fun _ => m.exec functions below (may i) bound c callback := by
  intro w hinv
  dsimp only
  cases hr : m.exec functions below (may i) bound c callback w with
  | error f w' => exact fun hf => absurd (Manners.politely_error hr) hf
  | ok a w' =>
    obtain ⟨hallowed, hr⟩ := Manners.politely_ok hr
    cases hc : c.isWrite with
    | true => exact Keeping.ok_of_law ((h.orderly hb i).exec bound hc callback) hinv hr
    | false =>
      rw [execWith_of_reading hc] at hr
      exact h.reading hb (h.serves hb) bound hc hw hinv hallowed hr

theorem program {i : κ} (bound : Nat) {p : Act σ} (hp : admits p) :
    (k i).strict.holds fun _ => p.run hostPart (m.exec functions below (may i) bound) := by
  induction p with
  | done result => exact (k i).strict.answer result
  | fail f => exact Keeping.law_throw f
  | note change next ih =>
    have hnoted := (h.programs i).noted hp
    exact (k i).strict.bind ((h.programs i).note hp) fun _ =>
      Keeping.law_sees fun w _ => ih w.host (hnoted w.host)
  | perform c callback next _ ih =>
    exact Keeping.strict_attempt (h.exec hb bound ((h.programs i).callback hp)) fun r hr =>
      ih r ((h.programs i).next hp r hr)

end

/-- On every level what is nested keeps what is to be kept. -/
theorem tidy (hf : ∀ name identity args, admits (functions name identity args)) (n : Nat) :
    Tidy functions admits may k (m.level functions n) := by
  induction n with
  | zero =>
    exact ⟨hf, fun _ _ _ => Keeping.law_throw _, fun _ _ _ => Keeping.law_throw _,
      fun _ {_ _ _ _ _} hr => (by cases hr), fun _ {_ _ _ _} hr => m.evaluateNow_ok hr⟩
  | succ n ih =>
    exact ⟨hf, fun _ {_} hp => h.program ih n hp, h.writeKey ih, fun _ {_ _ _ _ _} hr => hr,
      fun _ {_ _ _ _} hr => m.evaluateNow_ok hr⟩

end Household
end Switchboard.Manager
