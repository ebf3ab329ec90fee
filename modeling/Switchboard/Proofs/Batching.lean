-- Writes in one transaction or in two. If the functions of the host only compute and the listeners
-- leave the manager alone, two patches make the same of a manager whether they are written together
-- or one after the other. Only the events are grouped differently: what the one event tells is what
-- the two tell together.
import Switchboard.Proofs.Aborted
namespace Switchboard

/-! ## What two events tell together -/

/-- Name a control, if it is not named yet. -/
def nameOnce (ids : List Value) (id : Value) : List Value :=
  if ids.any (·.sameKey id) then ids else ids ++ [id]

/-- The event that tells what two events tell one after the other. A key that both tell of comes at
its first place, with the value from before the first and the value after the second. -/
def Event.followedBy (first second : Event) : Event where
  targets := second.targets.foldl nameOnce first.targets
  new := first.new.merge second.new
  old := second.old.foldl (fun d e => d.putNew e.1 e.2) first.old
  delayed := first.delayed

/-- The one event that stands for two, either of which may be missing. -/
def Event.together : Option Event → Option Event → Option Event
  | none, second => second
  | some first, none => some first
  | some first, some second => some (first.followedBy second)

theorem Value.sameKey_trans {a b c : Value} (h : a.sameKey b = true) (h' : b.sameKey c = true) :
    a.sameKey c = true := by
  cases a <;> cases b <;> first | cases h | skip
  all_goals cases c <;> first | cases h' | skip
  case scalar.scalar.scalar => exact BEq.trans h h'
  case function.function.function =>
    exact decide_eq_true ((of_decide_eq_true h).trans (of_decide_eq_true h'))
  all_goals exact beq_iff_eq.mpr ((beq_iff_eq.mp h).trans (beq_iff_eq.mp h'))

/-- Of ids that are named one after the other none is lost. -/
theorem any_foldl_nameOnce {ids more : List Value} {id : Value}
    (h : ids.any (·.sameKey id) = true ∨ more.any (·.sameKey id) = true) :
    (more.foldl nameOnce ids).any (·.sameKey id) = true := by
  induction more generalizing ids with
  | nil => exact h.resolve_right nofun
  | cons i rest ih =>
    have hprefix : ids <+: nameOnce ids i := by
      unfold nameOnce
      split
      · exact List.prefix_refl ids
      · exact List.prefix_append ids [i]
    have hnamed : (nameOnce ids i).any (·.sameKey i) = true := by
      unfold nameOnce
      split
      · assumption
      · simp [Value.sameKey_refl]
    refine ih ?_
    rcases h with h | h
    · exact .inl (Manager.any_of_prefix hprefix h)
    · rw [List.any_cons, Bool.or_eq_true] at h
      refine h.imp_left fun hi => ?_
      obtain ⟨j, hj, hji⟩ := List.any_eq_true.mp hnamed
      exact List.any_eq_true.mpr ⟨j, hj, Value.sameKey_trans hji hi⟩

namespace ChangeSet

/-- The change set of changes followed by others. -/
def join (first second : ChangeSet) : ChangeSet where
  targets := second.targets.foldl nameOnce first.targets
  new := first.new.merge second.new
  old := second.old.foldl (fun d e => d.putNew e.1 e.2) first.old

theorem join_record {first second : ChangeSet} (h : NoneTwice second.new.keys) (change : Change) :
    (first.join second).record change = first.join (second.record change) := by
  simp only [join, record, Dict.merge_put h, Dict.foldl_putNew_putNew]

theorem join_addTarget (first second : ChangeSet) (id : Value) :
    (first.join second).addTarget id = (second.addTarget id).map first.join := by
  unfold addTarget
  cases hid : id.isHashable with
  | false => rfl
  | true =>
    cases hsecond : second.targets.any (·.sameKey id) with
    | true =>
      have hboth : (first.join second).targets.any (·.sameKey id) = true :=
        any_foldl_nameOnce (.inr hsecond)
      simp [hboth, Except.map]
    | false =>
      have hlast : first.join { second with targets := second.targets ++ [id] } =
          { first.join second with targets := nameOnce (first.join second).targets id } := by
        simp only [join, List.foldl_append, List.foldl_cons, List.foldl_nil]
      simp only [Bool.not_true, Bool.false_eq_true, if_false, Except.map]
      rw [hlast, nameOnce]
      split <;> rfl

theorem join_addTargets (first second : ChangeSet) (ids : List Value) :
    (first.join second).addTargets ids =
      (first.join (second.addTargets ids).1, (second.addTargets ids).2) := by
  induction ids generalizing second with
  | nil => rfl
  | cons id rest ih =>
    unfold addTargets
    rw [join_addTarget]
    cases second.addTarget id with
    | ok second => exact ih second
    | error f => rfl

/-- If something was changed first, then something was changed. -/
theorem isEmpty_join {first second : ChangeSet} (h : first.isEmpty = false) :
    (first.join second).isEmpty = false :=
  List.isEmpty_eq_false_iff.mpr
    (Dict.merge_ne_nil (List.isEmpty_eq_false_iff.mp h) second.new)

/-- Is nothing named if nothing was changed? -/
def IsBare (changes : ChangeSet) : Prop := changes.isEmpty = true → changes = {}

/-- The event of changes, if there were any. -/
def event? (changes : ChangeSet) (delayed : Bool) : Option Event :=
  if changes.isEmpty then none else some (changes.toEvent delayed)

theorem event?_join {first second : ChangeSet} (hfirst : first.isEmpty = false)
    (hsecond : second.IsBare) (delayed : Bool) :
    (first.join second).event? delayed =
      Event.together (first.event? delayed) (second.event? delayed) := by
  unfold event?
  simp only [isEmpty_join hfirst, hfirst, Bool.false_eq_true, if_false]
  cases hs : second.isEmpty with
  | true =>
    rw [hsecond hs]
    rfl
  | false => rfl

end ChangeSet

namespace Manager

open World Conduct

variable {σ γ : Type} {functions : Functions σ} {below : Level σ} {calls : σ → γ}

/-! ## Two managers that differ in what they tell -/

/-- Two managers in the same transaction, but the second has forgotten what was changed before. They
may have told different events, which may have left traces in the host and in the signals, but not
in the log of calls. -/
inductive Linked (calls : σ → γ) (before : ChangeSet) : World σ → World σ → Prop
  | mk (w : World σ) {events : List Event} {host : σ} {signals : Signals (Value → Act σ)} :
    calls host = calls w.host → NoneTwice w.changes.new.keys →
    Linked calls before
      { w with
        changes := before.join w.changes
        events := events
        host := host
        signals := signals } w

/-- Only the change sets of linked managers matter, the rest they share. -/
theorem Linked.change {before joined changes : ChangeSet} (w : World σ) {events : List Event}
    {host : σ} {signals : Signals (Value → Act σ)} (hcalls : calls host = calls w.host)
    (hjoined : joined = before.join changes) (honce : NoneTwice changes.new.keys) :
    Linked calls before
      { w with changes := joined, events := events, host := host, signals := signals }
      { w with changes := changes } := by
  subst hjoined
  exact .mk { w with changes := changes } hcalls honce

/-- Where both of two linked managers succeed they answer the same and stay linked. -/
def LinkedRuns (calls : σ → γ) (before : ChangeSet) {α : Type} (act act' : Run (World σ) α) :
    Prop :=
  ∀ a b, Linked calls before a b → ∀ x a' y b', act a = .ok x a' → act' b = .ok y b' →
    x = y ∧ Linked calls before a' b'

theorem linkedRuns_pure {before : ChangeSet} {α : Type} (x : α) :
    LinkedRuns calls before (pure x : Run (World σ) α) (pure x) := by
  intro a b h _ _ _ _ ha hb
  cases ha
  cases hb
  exact ⟨rfl, h⟩

theorem linkedRuns_throw {before : ChangeSet} {α : Type} (f f' : Fault) :
    LinkedRuns calls before (throw f : Run (World σ) α) (throw f') := by
  intro a b _ _ _ _ _ ha
  cases ha

theorem linkedRuns_bind {before : ChangeSet} {α β : Type} {act act' : Run (World σ) α}
    {next next' : α → Run (World σ) β} (h : LinkedRuns calls before act act')
    (hn : ∀ x, LinkedRuns calls before (next x) (next' x)) :
    LinkedRuns calls before (act >>= next) (act' >>= next') := by
  intro a b hab x a' y b' ha hb
  obtain ⟨u, a₁, ha₁, ha₂⟩ := bind_ok_inv ha
  obtain ⟨v, b₁, hb₁, hb₂⟩ := bind_ok_inv hb
  obtain ⟨rfl, hlinked⟩ := h a b hab u a₁ v b₁ ha₁ hb₁
  exact hn u a₁ b₁ hlinked x a' y b' ha₂ hb₂

theorem linkedRuns_get {before : ChangeSet} {α : Type} {next : World σ → Run (World σ) α}
    (h : ∀ a w, Linked calls before a w → LinkedRuns calls before (next a) (next w)) :
    LinkedRuns calls before (get >>= next) (get >>= next) :=
  fun a w hab => h a w hab a w hab

theorem linkedRuns_modify {before : ChangeSet} {change change' : World σ → World σ}
    (h : ∀ a w, Linked calls before a w → Linked calls before (change a) (change' w)) :
    LinkedRuns calls before (modify change) (modify change') := by
  intro a w hab _ a' _ w' ha hw
  cases ha
  cases hw
  exact ⟨rfl, h a w hab⟩

/-- Staying linked is a law of single computations. -/
def linking (calls : σ → γ) (before : ChangeSet) : Law Unit (World σ) where
  holds act := LinkedRuns calls before (act ()) (act ())
  answer := linkedRuns_pure
  fault _ := linkedRuns_throw _ _
  bind := linkedRuns_bind

/-! ## Functions that only compute -/

/-- Do two programs that give no commands do the same on hosts that have seen the same calls? -/
inductive Alike (calls : σ → γ) : Act σ → Act σ → Prop
  | done (result : Value) : Alike calls (.done result) (.done result)
  | fail (f : Fault) : Alike calls (.fail f) (.fail f)
  | note {change change' : σ → σ} {next next' : σ → Act σ} :
    (∀ s t, calls s = calls t → calls (change s) = calls (change' t)) →
    (∀ s t, calls s = calls t → Alike calls (next s) (next' t)) →
    Alike calls (.note change next) (.note change' next')

theorem Alike.silent {p q : Act σ} (h : Alike calls p q) : Silent p := by
  induction h with
  | done result => trivial
  | fail f => trivial
  | note _ _ ih => exact fun s => ih s s rfl

theorem linked_program {before : ChangeSet} {p q : Act σ} (h : Alike calls p q)
    (exec : (c : Command) → (c.Input → Act σ) → Run (World σ) c.Answer) :
    LinkedRuns calls before (p.run hostPart exec) (q.run hostPart exec) := by
  induction h with
  | done result => exact linkedRuns_pure _
  | fail f => exact linkedRuns_throw f f
  | @note change change' next next' hc hn ih =>
    intro a w hab x a' y w' ha hw
    obtain ⟨_, hcalls, honce⟩ := hab
    exact ih _ _ (hc _ _ hcalls) _ _ (.mk { w with host := change' w.host } (hc _ _ hcalls) honce)
      x a' y w' ha hw

theorem linked_act {before : ChangeSet} {p : Act σ} (h : Alike calls p p) (n : Nat) :
    (linking calls before).holds fun _ => (level functions n).act p := by
  cases n with
  | zero => exact linkedRuns_throw _ _
  | succ n => exact linked_program h _

/-! ## Cascades of linked managers -/

section

variable {before : ChangeSet}

theorem linked_serves
    (hact : ∀ name identity args,
      (linking calls before).holds fun _ => below.act (functions name identity args)) :
    Serves (linking calls before) functions fun _ => below := by
  have hfresh : (linking calls before).holds fun _ => (fresh : Run (World σ) Nat) := by
    intro a w hab x a' y w' ha hw
    obtain ⟨_, hcalls, honce⟩ := hab
    cases ha
    cases hw
    exact ⟨rfl, .mk { w with nextIdentity := w.nextIdentity + 1 } hcalls honce⟩
  refine ⟨hfresh, (linking calls before).bind hfresh fun identity => ?_, fun f args => ?_⟩
  · refine linkedRuns_get fun a w hab => ?_
    obtain ⟨_, hcalls, honce⟩ := hab
    exact linkedRuns_pure _
  · cases f with
    | randomInt =>
      refine linkedRuns_get fun a w hab => ?_
      obtain ⟨_, hcalls, honce⟩ := hab
      refine linkedRuns_bind
        ((linking calls before).ofExcept (Generator.ordinary_roll args w.generator)) fun r => ?_
      refine linkedRuns_bind (linkedRuns_modify fun a w hab => ?_) fun _ => linkedRuns_pure _
      obtain ⟨_, hcalls, honce⟩ := hab
      exact .mk { w with generator := r.2 } hcalls honce
    | now =>
      cases args with
      | nil =>
        refine linkedRuns_get fun a w hab => ?_
        obtain ⟨_, hcalls, honce⟩ := hab
        exact linkedRuns_pure _
      | cons v rest => exact linkedRuns_throw _ _
    | host name => exact (linking calls before).bind hfresh fun identity => hact name identity args

theorem linked_checkDepth (key : Scalar) :
    (linking calls before).holds fun _ => (checkDepth key : Run (World σ) Unit) := by
  intro a w hab x a' y w' ha hw
  cases checkDepth_ok ha
  cases checkDepth_ok hw
  exact ⟨rfl, hab⟩

theorem linked_follows : Follows (linking calls before : Law Unit (World σ)) where
  record change := by
    refine linkedRuns_modify fun a w hab => ?_
    obtain ⟨_, hcalls, honce⟩ := hab
    exact .change w hcalls (ChangeSet.join_record honce change)
      (Dict.noneTwice_put honce change.key change.new)
  listening key := by
    refine linkedRuns_get fun a w hab => ?_
    obtain ⟨_, hcalls, honce⟩ := hab
    exact linkedRuns_pure _
  addTargets key assignments := by
    intro a w hab x a' y w' ha hw
    obtain ⟨_, hcalls, honce⟩ := hab
    replace ha : addTargets (w.affected key assignments) _ = _ := ha
    replace hw : addTargets (w.affected key assignments) w = _ := hw
    rw [addTargets_eq] at ha hw
    obtain ⟨-, rfl⟩ := ofExcept_ok ha
    obtain ⟨-, rfl⟩ := ofExcept_ok hw
    obtain ⟨targets, htargets, -⟩ :=
      changeSet_addTargets_from w.changes (w.affected key assignments)
    refine ⟨rfl, .change w hcalls ?_ ?_⟩
    · rw [ChangeSet.join_addTargets]
    · rw [htargets]
      exact honce
  defer assignment := by
    change LinkedRuns calls before (World.defer assignment) (World.defer assignment)
    intro a w hab x a' y w' ha hw
    obtain ⟨_, hcalls, honce⟩ := hab
    rw [defer_eq] at ha hw
    cases hd : w.clock.delayOf assignment.timeout with
    | error f => rw [hd] at hw; cases hw
    | ok delay =>
      rw [hd] at ha hw
      cases ha
      cases hw
      exact ⟨rfl, .mk (w.deferred assignment delay) hcalls honce⟩

/-- Following up a change, linked managers stay linked if they do as assignments are applied. -/
theorem linked_onChange
    (ha : ∀ a, (linking calls before).holds fun _ => applyAssignment functions below a)
    (change : Change) : (linking calls before).holds fun _ => onChange functions below change := by
  intro a w hab _ a' _ w' hr hr'
  obtain ⟨v, hv, rfl⟩ := onChange_ok hr
  obtain ⟨v', hv', rfl⟩ := onChange_ok hr'
  obtain ⟨_, hcalls, honce⟩ := hab
  have hfollow := @Follows.followUp Unit σ (linking calls before) functions (fun _ => below)
    linked_follows linked_checkDepth ha change
  obtain ⟨-, hlinked⟩ :=
    hfollow _ _ (.mk { w with depth := w.depth + 1 } hcalls honce) _ _ _ _ hv hv'
  obtain ⟨_, hcalls, honce⟩ := hlinked
  exact ⟨rfl, .mk { v' with depth := v'.depth - 1 } hcalls honce⟩

theorem linked_writeKey
    (ha : ∀ a, (linking calls before).holds fun _ => applyAssignment functions below a)
    (key : Scalar) (value : Value) :
    (linking calls before).holds fun _ => writeKey functions below key value := by
  change LinkedRuns calls before (writeKey functions below key value)
    (writeKey functions below key value)
  intro a w hab x a' y w' hr hr'
  rw [writeKey_eq_forM] at hr hr'
  obtain ⟨_, hcalls, honce⟩ := hab
  cases hs : (w.store.read key).strictEquals value with
  | true =>
    simp only [hs, if_true] at hr hr'
    cases hr
    cases hr'
    exact ⟨rfl, .mk w hcalls honce⟩
  | false =>
    simp only [hs, Bool.false_eq_true, if_false] at hr hr'
    have hforM : (linking calls before).holds fun _ => (w.store.hearers key).forM fun _ =>
        onChange functions below ⟨key, w.store.read key, value⟩ :=
      (linking calls before).forM _ fun _ _ => linked_onChange ha _
    exact hforM _ _ (.mk (w.stored key value) hcalls honce) _ _ _ _ hr hr'

theorem linked_applyAssignment
    (hf : ∀ name identity args,
      Alike calls (functions name identity args) (functions name identity args)) (n : Nat)
    (a : Assignment) :
    (linking calls before).holds fun _ => applyAssignment functions (level functions n) a := by
  have hserves : ∀ n, Serves (linking calls before) functions fun _ => level functions n :=
    fun n => linked_serves fun name identity args => linked_act (hf name identity args) n
  have hwrite : ∀ key value,
      (linking calls before).holds fun _ => (level functions n).write key value := by
    induction n with
    | zero => exact fun _ _ => linkedRuns_throw _ _
    | succ n ih => exact linked_writeKey fun a => (hserves n).applyAssignment ih a
  exact (hserves n).applyAssignment hwrite a

theorem linked_writePatch
    (hf : ∀ name identity args,
      Alike calls (functions name identity args) (functions name identity args)) (n : Nat)
    (patch : List (Scalar × Value)) :
    (linking calls before).holds fun _ => writePatch functions (level functions n) patch :=
  (linking calls before).forM patch fun e _ => linked_writeKey (linked_applyAssignment hf n) e.1 e.2

end

/-! ## What cascades leave alone -/

/-- Is all that listeners have to do with as before? -/
structure Undisturbed (w w' : World σ) : Prop where
  listeners : w'.listeners = w.listeners
  signals : w'.signals = w.signals
  events : w'.events = w.events
  inTransaction : w'.inTransaction = w.inTransaction

theorem Undisturbed.trans {w u w' : World σ} (h : Undisturbed w u) (h' : Undisturbed u w') :
    Undisturbed w w' :=
  ⟨h'.listeners.trans h.listeners, h'.signals.trans h.signals, h'.events.trans h.events,
    h'.inTransaction.trans h.inTransaction⟩

theorem undisturbed_writePatch (hf : ∀ name identity args, Silent (functions name identity args))
    {n : Nat} {patch : List (Scalar × Value)} {w w' : World σ}
    (h : writePatch functions (level functions n) patch w = .ok () w') : Undisturbed w w' := by
  let c : Conduct (World σ) := always Undisturbed (fun _ => ⟨rfl, rfl, rfl, rfl⟩) Undisturbed.trans
  have hallows : Allows c := {
    stored := fun _ _ _ => ⟨rfl, rfl, rfl, rfl⟩
    depth := fun _ _ => ⟨rfl, rfl, rfl, rfl⟩
    changes := fun _ _ => ⟨rfl, rfl, rfl, rfl⟩
    spent := fun h => by
      obtain ⟨_, _, _, _, _, _, rfl, -⟩ := h
      exact ⟨rfl, rfl, rfl, rfl⟩ }
  have ha := hallows.keeps_applyAssignment fun n name identity args =>
    keeps_silent hallows.spent (hf name identity args) n
  exact (keeps_forM patch (fun e _ => hallows.keeps_writeKey (ha n) e.1 e.2) w).good h

/-- Forgetting no change, and naming controls only where something was changed. -/
def telling : Conduct (World σ) where
  good w w' := (w.changes.isEmpty = false → w'.changes.isEmpty = false) ∧
    (w.changes.IsBare → w'.changes.IsBare)
  bad _ _ := True
  refl _ := ⟨id, id⟩
  trans h h' := ⟨h'.1 ∘ h.1, h'.2 ∘ h.2⟩
  giveUp _ := trivial
  fail _ _ := trivial
  leave _ _ := trivial

theorem telling_same {w w' : World σ} (h : w'.changes = w.changes) : telling.good w w' := by
  change (_ → w'.changes.isEmpty = false) ∧ (_ → w'.changes.IsBare)
  rw [h]
  exact ⟨id, id⟩

theorem telling_onChange (ha : ∀ a, telling.Keeps (applyAssignment functions below a))
    (change : Change) : telling.Keeps (onChange functions below change) := by
  refine fun w => keepsAt_of (fun _ w' h => ?_) fun _ _ _ => trivial
  obtain ⟨t, ht, rfl⟩ := onChange_ok h
  obtain ⟨v, x, hv, hx, haside⟩ := followUp_ok ht
  obtain ⟨targets, rfl, -⟩ := addTargets_ok hx
  have hrecorded : (w.changes.record change).isEmpty = false :=
    List.isEmpty_eq_false_iff.mpr (Dict.put_ne_nil w.changes.new change.key change.new)
  have hv : v.changes.isEmpty = false := ((keeps_forM _ fun a _ => ha a) _).good hv |>.1 hrecorded
  have ht : t.changes.isEmpty = false := by
    rw [show t.changes = { v.changes with targets := targets } from congrArg Core.changes haside.1]
    exact hv
  exact ⟨fun _ => ht, fun _ hempty => absurd (ht.symm.trans hempty) Bool.false_ne_true⟩

theorem telling_writePatch (hf : ∀ name identity args, Silent (functions name identity args))
    {n : Nat} {patch : List (Scalar × Value)} {w w' : World σ} (hw : w.changes = {})
    (h : writePatch functions (level functions n) patch w = .ok () w') : w'.changes.IsBare := by
  have hspent : ∀ {w w' : World σ}, w.Spent w' → telling.good w w' :=
    fun h => telling_same (congrArg Core.changes h.aside.1)
  have hwrite : ∀ {below : Level σ}, (∀ a, telling.Keeps (applyAssignment functions below a)) →
      ∀ key value, telling.Keeps (writeKey functions below key value) :=
    fun ha _ _ => keeps_writeKey_of (fun _ _ => telling_same rfl) (telling_onChange ha)
  have ha := keeps_applyAssignment_level hspent (fun n name identity args =>
    keeps_silent hspent (hf name identity args) n) hwrite n
  refine ((keeps_forM patch fun e _ => hwrite ha e.1 e.2) w).good h |>.2 ?_
  rw [hw]
  exact fun _ => rfl

/-! ## Listeners that stand by -/

/-- Leaving all of a manager alone but what is the host's and the signals, and the log of calls too.
With effects a manager may have things to do when its signals change, so it is said which effects
there are. -/
def standing (calls : σ → γ) (effects : List (Effect (Value → Act σ))) : Conduct (World σ) where
  good w w' := w.signals.effects = effects →
    w' = { w with host := w'.host, signals := w'.signals } ∧ calls w'.host = calls w.host ∧
      w'.signals.effects = effects
  bad _ _ := True
  refl _ hw := ⟨rfl, rfl, hw⟩
  trans h h' hw := by
    obtain ⟨hfirst, hcalls, heffects⟩ := h hw
    obtain ⟨hsecond, hcalls', heffects'⟩ := h' heffects
    refine ⟨?_, hcalls'.trans hcalls, heffects'⟩
    rw [hfirst] at hsecond
    exact hsecond
  giveUp _ := trivial
  fail _ _ := trivial
  leave _ _ := trivial

/-- A listener that stands by when it is told of an event. -/
def Bystander (functions : Functions σ) (calls : σ → γ) (n : Nat)
    (effects : List (Effect (Value → Act σ))) (listener : Listener σ) : Prop :=
  ∀ event, (standing calls effects).Keeps (deliver functions (level functions n) listener event)

/-- A program that gives no commands and keeps the log of calls as it is. -/
def Discreet (calls : σ → γ) : Act σ → Prop
  | .done _ | .fail _ => True
  | .note change next => (∀ s, calls (change s) = calls s) ∧ ∀ s, Discreet calls (next s)
  | .perform .. => False

theorem standing_discreet {effects : List (Effect (Value → Act σ))} {p : Act σ}
    (hp : Discreet calls p) (n : Nat) :
    (standing calls effects).Keeps ((level functions n).act p) := by
  cases n with
  | zero => exact keeps_throw _
  | succ n =>
    change (standing calls effects).Keeps (p.run hostPart (exec functions (level functions n) n))
    induction p with
    | done result => exact keeps_pure _
    | fail f => exact keeps_throw f
    | note change next ih =>
      refine keeps_bind (fun w hw => ⟨rfl, hp.1 w.host, hw⟩) fun _ => ?_
      exact keeps_bind (keeps_read _) fun s => ih s (hp.2 s)
    | perform command callback next => exact hp.elim

theorem bystander_host {program : Event → Act σ} (hp : ∀ event, Discreet calls (program event))
    (n : Nat) (effects : List (Effect (Value → Act σ))) :
    Bystander functions calls n effects (.host program) :=
  fun event => keeps_bind (standing_discreet (hp event) n) fun _ => keeps_pure _

theorem effects_of_setCell? {κ : Type} {signals signals' : Signals κ} {number : Nat} {value : Value}
    (h : signals.setCell? number value = some signals') : signals'.effects = signals.effects := by
  unfold Signals.setCell? at h
  split at h
  · cases h
  · split at h
    · cases h
    · cases h
      rfl

/-- The cells of a bridge can be set without more ado if nothing depends on them. -/
theorem bystander_bridge (number n : Nat) : Bystander functions calls n [] (.bridge number) := by
  refine fun event => keeps_forM event.new fun e _ => fun w => ?_
  by_cases hw : w.signals.effects = []
  · refine keepsAt_bind (keeps_read _ w) fun signals _ hread => ?_
    cases hread
    split
    · exact keeps_pure _ _
    · split
      · exact keeps_pure _ _
      · rename_i cell _ _ signals hset
        have heffects : signals.effects = [] := (effects_of_setCell? hset).trans hw
        have hnone : signals.followers cell = [] := by
          unfold Signals.followers
          rw [heffects]
          rfl
        have hwrite : (standing calls []).KeepsAt
            (signalsPart.write signals : Run (World σ) Unit) w := fun _ => ⟨rfl, rfl, heffects⟩
        rw [hnone]
        refine keepsAt_get ?_
        dsimp only
        split
        · exact keepsAt_bind (keeps_throw _ w) fun _ _ h => by cases h
        · exact keepsAt_bind hwrite fun _ v _ => keeps_pure () v
  · exact keepsAt_of (fun _ _ _ h => absurd h hw) fun _ _ _ => trivial

theorem bystanders_dispatch {n : Nat} {event : Event} {w w' : World σ}
    (hl : ∀ l ∈ w.listeners.values, Bystander functions calls n w.signals.effects l)
    (h : dispatch functions (level functions n) event w = .ok () w') :
    w' = { w with events := w.events ++ [event], host := w'.host, signals := w'.signals } ∧
      calls w'.host = calls w.host ∧ w'.signals.effects = w.signals.effects := by
  have htold : (w.listeners.values.forM fun l => deliver functions (level functions n) l event)
      { w with events := w.events ++ [event] } = .ok () w' := h
  exact ((keeps_forM _ fun l hm => hl l hm event) _).good htold rfl

/-! ## Patches -/

/-- Are two managers the same, apart from what they told and what their listeners made of it? -/
structure Agree (calls : σ → γ) (w w' : World σ) : Prop where
  world : w = { w' with
    changes := w.changes
    events := w.events
    host := w.host
    signals := w.signals }
  calls : calls w.host = calls w'.host

theorem Agree.symm {w w' : World σ} (h : Agree calls w w') : Agree calls w' w := by
  refine ⟨?_, h.calls.symm⟩
  rw [h.world]

theorem Agree.trans {w u w' : World σ} (h : Agree calls w u) (h' : Agree calls u w') :
    Agree calls w w' := by
  refine ⟨?_, h.calls.trans h'.calls⟩
  have hworld := h.world
  rw [h'.world] at hworld
  exact hworld

theorem Agree.close {w w' : World σ} (h : Agree calls w w') :
    Agree calls { w with inTransaction := false } { w' with inTransaction := false } := by
  refine ⟨?_, h.calls⟩
  rw [h.world]

/-- How a transaction ends among bystanders once its writes are over: the listeners are told if
something was changed. -/
inductive Concludes (calls : σ → γ) (v : World σ) : World σ → Prop
  | silent : v.changes.isEmpty = true → Concludes calls v { v with inTransaction := false }
  | told {host : σ} {signals : Signals (Value → Act σ)} : v.changes.isEmpty = false →
    calls host = calls v.host → signals.effects = v.signals.effects →
    Concludes calls v
      { v with
        inTransaction := false
        events := v.events ++ [v.changes.toEvent false]
        host := host
        signals := signals }

theorem Concludes.events {v w' : World σ} (h : Concludes calls v w') :
    w'.events = v.events ++ (v.changes.event? false).toList := by
  unfold ChangeSet.event?
  cases h with
  | silent he =>
    rw [if_pos he]
    exact (List.append_nil _).symm
  | told he =>
    rw [if_neg (by rw [he]; exact Bool.false_ne_true)]
    rfl

theorem Concludes.agree {v w' : World σ} (h : Concludes calls v w') :
    Agree calls w' { v with inTransaction := false } := by
  cases h with
  | silent => exact ⟨rfl, rfl⟩
  | told _ hcalls => exact ⟨rfl, hcalls⟩

/-- The next transaction finds the listeners, and what they depend on, as they were. -/
theorem Concludes.ready {v w' : World σ} (h : Concludes calls v w') :
    w'.inTransaction = false ∧ w'.listeners = v.listeners ∧
      w'.signals.effects = v.signals.effects := by
  cases h with
  | silent => exact ⟨rfl, rfl, rfl⟩
  | told _ _ heffects => exact ⟨rfl, rfl, heffects⟩

theorem concludes_of_patch (hf : ∀ name identity args, Silent (functions name identity args))
    {n bound : Nat} {p : Value} {entries : Dict Scalar Value} {w w' : World σ}
    (hp : Store.patchOf p = .ok entries) (hw : w.inTransaction = false)
    (hl : ∀ l ∈ w.listeners.values, Bystander functions calls n w.signals.effects l)
    (h : (Opening.patch p).run functions (level functions n) bound w = .ok () w') :
    ∃ v, writePatch functions (level functions n) entries
        { w with changes := {}, inTransaction := true } = .ok () v ∧
      Undisturbed { w with changes := {}, inTransaction := true } v ∧ v.changes.IsBare ∧
      Concludes calls v w' := by
  obtain ⟨event?, w₁, hg, hd⟩ := transaction_ok hw h
  obtain ⟨v, hv, rfl, hevent⟩ := gather_ok hg
  replace hv : (Run.ofExcept (Store.patchOf p) >>= writePatch functions (level functions n))
    { w with changes := {}, inTransaction := true } = .ok () v := hv
  rw [hp] at hv
  have hsame := undisturbed_writePatch hf hv
  refine ⟨v, hv, hsame, telling_writePatch hf rfl hv, ?_⟩
  split at hevent
  · rename_i hempty
    subst hevent
    subst hd
    exact .silent hempty
  · rename_i hempty
    subst hevent
    have hl : ∀ l ∈ v.listeners.values, Bystander functions calls n v.signals.effects l := by
      rw [show v.listeners = w.listeners from hsame.listeners,
        show v.signals = w.signals from hsame.signals]
      exact hl
    obtain ⟨hworld, hcalls, heffects⟩ :=
      bystanders_dispatch (w := { v with inTransaction := false }) hl hd
    rw [hworld]
    exact .told (Bool.eq_false_iff.mpr hempty) hcalls heffects

theorem writePatch_append (first second : List (Scalar × Value)) {w w' : World σ}
    (h : writePatch functions below (first ++ second) w = .ok () w') :
    ∃ u, writePatch functions below first w = .ok () u ∧
      writePatch functions below second u = .ok () w' := by
  induction first generalizing w with
  | nil => exact ⟨w, rfl, h⟩
  | cons e rest ih =>
    obtain ⟨_, v, hv, hrest⟩ := bind_ok_inv h
    obtain ⟨u, hu, hsecond⟩ := ih hrest
    exact ⟨u, (bind_ok hv).trans hu, hsecond⟩

/-- At the seam between two patches. Whether the writes of the second go on in the transaction of
the first or start one of their own, they do the same. -/
theorem agree_after_the_seam
    (hf : ∀ name identity args,
      Alike calls (functions name identity args) (functions name identity args)) {n : Nat}
    {entries : List (Scalar × Value)} {v₁ w₁ v v₂ : World σ} (hopen : v₁.inTransaction = true)
    (hbare₁ : v₁.changes.IsBare) (hend : Concludes calls v₁ w₁)
    (hv : writePatch functions (level functions n) entries v₁ = .ok () v)
    (hv₂ : writePatch functions (level functions n) entries
      { w₁ with changes := {}, inTransaction := true } = .ok () v₂) (hbare₂ : v₂.changes.IsBare) :
    Agree calls v v₂ ∧ v.changes.event? false =
      Event.together (v₁.changes.event? false) (v₂.changes.event? false) := by
  have hv₁ : { v₁ with inTransaction := true } = v₁ := by rw [← hopen]
  cases hend with
  | silent hempty =>
    have hsame : { v₁ with changes := {}, inTransaction := true } = v₁ := by
      rw [← hbare₁ hempty, hv₁]
    replace hv₂ : writePatch functions (level functions n) entries
      { v₁ with changes := {}, inTransaction := true } = .ok () v₂ := hv₂
    rw [hsame] at hv₂
    cases hv.symm.trans hv₂
    have hnone : v₁.changes.event? false = none := if_pos hempty
    rw [hnone]
    exact ⟨⟨rfl, rfl⟩, rfl⟩
  | @told host signals hsome hcalls _ =>
    have hlinked : Linked calls v₁.changes { v₁ with inTransaction := true }
        { v₁ with
          changes := {}
          inTransaction := true
          events := v₁.events ++ [v₁.changes.toEvent false]
          host := host
          signals := signals } :=
      .change { v₁ with
        inTransaction := true
        events := v₁.events ++ [v₁.changes.toEvent false]
        host := host
        signals := signals } hcalls.symm rfl .nil
    rw [hv₁] at hlinked
    obtain ⟨-, hlinked⟩ := linked_writePatch hf n entries _ _ hlinked _ _ _ _ hv hv₂
    obtain ⟨_, hcalls, -⟩ := hlinked
    exact ⟨⟨rfl, hcalls⟩, ChangeSet.event?_join hsome hbare₂ false⟩

/-- Whether two patches are written together or one after the other, they make the same of a
manager: the same state, the same assignments waiting, the same log of calls. The one event of the
first way tells what the two events of the second tell together. That two patches have no key in
common is said by the third having all the entries of both. -/
theorem batching_changes_only_the_grouping_of_events
    (hf : ∀ name identity args,
      Alike calls (functions name identity args) (functions name identity args)) {n bound : Nat}
    {w w₁ w₂ w' : World σ} (hw : w.inTransaction = false)
    (hl : ∀ l ∈ w.listeners.values, Bystander functions calls n w.signals.effects l)
    {p p₁ p₂ : Value} {e₁ e₂ : Dict Scalar Value} (hp : Store.patchOf p = .ok (e₁ ++ e₂))
    (hp₁ : Store.patchOf p₁ = .ok e₁) (hp₂ : Store.patchOf p₂ = .ok e₂)
    (h : (Opening.patch p).run functions (level functions n) bound w = .ok () w')
    (h₁ : (Opening.patch p₁).run functions (level functions n) bound w = .ok () w₁)
    (h₂ : (Opening.patch p₂).run functions (level functions n) bound w₁ = .ok () w₂) :
    Agree calls w' w₂ ∧ ∃ first second : Option Event,
      w₁.events = w.events ++ first.toList ∧ w₂.events = w₁.events ++ second.toList ∧
        w'.events = w.events ++ (Event.together first second).toList := by
  have hsilent : ∀ name identity args, Silent (functions name identity args) :=
    fun name identity args => (hf name identity args).silent
  obtain ⟨v, hv, hsame, -, hend⟩ := concludes_of_patch hsilent hp hw hl h
  obtain ⟨v₁, hv₁, hsame₁, hbare₁, hend₁⟩ := concludes_of_patch hsilent hp₁ hw hl h₁
  obtain ⟨hclosed, hlisteners, heffects⟩ := hend₁.ready
  have hl₁ : ∀ l ∈ w₁.listeners.values, Bystander functions calls n w₁.signals.effects l := by
    rw [heffects, hsame₁.signals, hlisteners, hsame₁.listeners]
    exact hl
  obtain ⟨v₂, hv₂, hsame₂, hbare₂, hend₂⟩ := concludes_of_patch hsilent hp₂ hclosed hl₁ h₂
  obtain ⟨u, hu, hrest⟩ := writePatch_append e₁ e₂ hv
  cases hu.symm.trans hv₁
  obtain ⟨hagree, hevent⟩ :=
    agree_after_the_seam hf hsame₁.inTransaction hbare₁ hend₁ hrest hv₂ hbare₂
  refine ⟨hend.agree.trans (hagree.close.trans hend₂.agree.symm),
    v₁.changes.event? false, v₂.changes.event? false, ?_, ?_, ?_⟩
  · rw [hend₁.events, hsame₁.events]
  · rw [hend₂.events, hsame₂.events]
  · rw [hend.events, hsame.events, hevent]

/-- A host that logs the calls of its functions, and counts the events it hears of. -/
structure Ledger where
  calls : List String
  heard : Nat
deriving DecidableEq

/-- A fee of one, whatever it is asked for. -/
def charges : Functions Ledger := fun name _ _ =>
  .note (fun s => { s with calls := s.calls ++ [name] }) fun _ => .done (.int 1)

theorem alike_charges (name : String) (identity : Nat) (args : List Value) :
    Alike Ledger.calls (charges name identity args) (charges name identity args) :=
  .note (fun _ _ h => congrArg (· ++ [name]) h) fun _ _ _ => .done _

/-- The total is the price of the count and a fee, and the label follows the total later. -/
def orders : World Ledger :=
  let total : Assignment := ⟨.text "total", .null,
    .binary (.text "+")
      (.binary (.text "*") (.identifier (.text "price")) (.identifier (.text "count")))
      (.call (.identifier (.text "fee")) []),
    none, .null⟩
  let label : Assignment := ⟨.text "label", .null, .identifier (.text "total"), none, .int 5⟩
  let w := Setup.world
    { state := [(.text "price", .int 2), (.text "count", .int 1)]
      context := [(.text "fee", .function (.host "fee"))] } (.ofNat 0) ⟨[], 0⟩
  { (w.linkAssignment total [.text "price", .text "count"]).linkAssignment label [.text "total"] with
    listeners := [(1, .host fun _ =>
      .note (fun s => { s with heard := s.heard + 1 }) fun _ => .done .null)] }

/-- A new price and a new count, one after the other and together. Each of them makes another total,
and this is told of twice or once. -/
theorem a_price_and_a_count_are_told_of_twice_or_once :
    ∃ (w₁ w₂ w' : World Ledger) (first second : Event),
      (Opening.patch (.map 0 [(.text "price", .int 5)])).run charges (level charges 9) 9 orders =
        .ok () w₁ ∧
      (Opening.patch (.map 1 [(.text "count", .int 3)])).run charges (level charges 9) 9 w₁ =
        .ok () w₂ ∧
      (Opening.patch (.map 2 [(.text "price", .int 5), (.text "count", .int 3)])).run charges
        (level charges 9) 9 orders = .ok () w' ∧
      Agree Ledger.calls w' w₂ ∧ w₂.host = ⟨["fee", "fee"], 2⟩ ∧ w'.host = ⟨["fee", "fee"], 1⟩ ∧
      w₂.events = [first, second] ∧ w'.events = [first.followedBy second] := by
  have hruns : ((Opening.patch (.map 0 [(.text "price", .int 5)])).run charges (level charges 9)
      9).yields orders (fun _ w₁ => w₁.events.length = 1 &&
        ((Opening.patch (.map 1 [(.text "count", .int 3)])).run charges (level charges 9)
          9).yields w₁ (fun _ w₂ => w₂.events.length = 2 ∧ w₂.host = ⟨["fee", "fee"], 2⟩)) = true := by
    decide +kernel
  have hrun : ((Opening.patch (.map 2 [(.text "price", .int 5), (.text "count", .int 3)])).run
      charges (level charges 9) 9).yields orders (fun _ w' => w'.host = ⟨["fee", "fee"], 1⟩) =
        true := by decide +kernel
  obtain ⟨_, w₁, h₁, hrest⟩ := Run.yields_ok hruns
  obtain ⟨hone, hsecond⟩ := Bool.and_eq_true_iff.mp hrest
  obtain ⟨_, w₂, h₂, htwo⟩ := Run.yields_ok hsecond
  obtain ⟨htwo, hhost₂⟩ := of_decide_eq_true htwo
  obtain ⟨_, w', h, hhost⟩ := Run.yields_ok hrun
  have hl : ∀ l ∈ orders.listeners.values,
      Bystander charges Ledger.calls 9 orders.signals.effects l := by
    intro l hm
    cases List.mem_singleton.mp hm
    refine bystander_host (fun _ => ?_) 9 _
    exact ⟨fun _ => rfl, fun _ => trivial⟩
  have hboth : Store.patchOf (.map 2 [(.text "price", .int 5), (.text "count", .int 3)]) =
      .ok ([(.text "price", .int 5)] ++ [(.text "count", .int 3)]) := rfl
  obtain ⟨hagree, first?, second?, hevents₁, hevents₂, hevents⟩ :=
    batching_changes_only_the_grouping_of_events alike_charges rfl hl hboth rfl rfl h h₁ h₂
  replace hevents₁ : w₁.events = first?.toList := hevents₁
  replace hevents : w'.events = (Event.together first? second?).toList := hevents
  replace hone := of_decide_eq_true hone
  cases first? with
  | none => rw [hevents₁] at hone; cases hone
  | some first =>
    cases second? with
    | none => rw [hevents₂, hevents₁] at htwo; cases htwo
    | some second =>
      rw [hevents₁] at hevents₂
      exact ⟨w₁, w₂, w', first, second, h₁, h₂, h, hagree, hhost₂, of_decide_eq_true hhost,
        hevents₂, hevents⟩

end Manager
end Switchboard
