-- A bridge as a mirror of its manager. Whatever is done in a run with manners, the cells of the
-- bridge hold what the state holds, but for what the bridge has not heard of yet; and what a
-- derived value remembers is what the manager made of its expression when the state was as the
-- cells of the versions that it has seen still tell.
import Switchboard.Proofs.Cells
import Switchboard.Proofs.Household
import Switchboard.Proofs.Reachable
import Switchboard.Proofs.Twins
namespace Switchboard.Manager

open World Conduct

variable {σ : Type}

/-! ## How managers go on -/

/-- Does a manager hold a value in its state, or did it hold it once? -/
def World.Holds (w : World σ) (v : Value) : Prop :=
  (∃ key, w.store.read key = v) ∨ ∃ c ∈ w.store.history, c.old = v

/-- What was there of a manager is there later. -/
structure World.Onward (w w' : World σ) : Prop where
  context : w'.context = w.context
  identities : w.nextIdentity ≤ w'.nextIdentity
  names : ∀ key, w.store.state.contains key = true → w'.store.state.contains key = true
  values : ∀ v, w.Holds v → w'.Holds v
  once : NoneTwice w.store.state.keys → NoneTwice w'.store.state.keys

theorem World.Onward.refl (w : World σ) : w.Onward w :=
  ⟨rfl, Nat.le_refl _, fun _ h => h, fun _ h => h, id⟩

theorem World.Onward.trans {w u w' : World σ} (h : w.Onward u) (h' : u.Onward w') :
    w.Onward w' where
  context := h'.context.trans h.context
  identities := Nat.le_trans h.identities h'.identities
  names key hkey := h'.names key (h.names key hkey)
  values v hv := h'.values v (h.values v hv)
  once hw := h'.once (h.once hw)

/-- As long as nothing is stored, all goes on. -/
theorem World.onward_of_same {w w' : World σ} (hcontext : w'.context = w.context)
    (hle : w.nextIdentity ≤ w'.nextIdentity) (hstate : w'.store.state = w.store.state)
    (hhistory : w'.store.history = w.store.history) : w.Onward w' := by
  refine ⟨hcontext, hle, fun key hkey => by rwa [hstate], fun v hv => ?_, fun h => by rwa [hstate]⟩
  unfold Holds Store.read at hv ⊢
  rwa [hstate, hhistory]

theorem World.onward_stored (w : World σ) (key : Scalar) (value : Value) :
    w.Onward (w.stored key value) where
  context := rfl
  identities := Nat.le_refl _
  names other hother := by
    change (w.store.state.put key value).contains other = true
    rw [Dict.contains_put, hother, Bool.true_or]
  values v hv := by
    have hhistory : (w.stored key value).store.history =
      w.store.history ++ [⟨key, w.store.read key, value⟩] := rfl
    unfold Holds
    rw [hhistory]
    rcases hv with ⟨other, hother⟩ | ⟨c, hc, hold⟩
    · by_cases hkey : (key == other) = true
      · refine .inr ⟨_, List.mem_append_right _ List.mem_cons_self, ?_⟩
        exact (read_congr w.store hkey).trans hother
      · refine .inl ⟨other, ?_⟩
        rw [stored_read, if_neg hkey, hother]
    · exact .inr ⟨c, List.mem_append_left _ hc, hold⟩
  once hw := Dict.noneTwice_put hw key value

theorem holdsOld_of_same {w w' : World σ} (h : w.holdsOld = true)
    (hcontext : w'.context = w.context) (hle : w.nextIdentity ≤ w'.nextIdentity)
    (hstate : w'.store.state = w.store.state) : w'.holdsOld = true := by
  obtain ⟨hc, hs⟩ := holdsOld_iff.mp h
  rw [holdsOld_iff, hcontext, hstate]
  exact ⟨Value.entriesFit_mono hle _ hc, Value.entriesFit_mono hle _ hs⟩

/-- Does the change set of a transaction tell of each changed key what the state holds? -/
def World.Tallies (w : World σ) : Prop :=
  NoneTwice w.changes.new.keys ∧
    ∀ {key v}, w.changes.new.get? key = some v → w.store.read key = v

/-! ## Mirrors -/

/-- Does each bridge that is subscribed know the number of its subscription? -/
def World.Numbered (w : World σ) : Prop :=
  ∀ number bridge, (number, .bridge bridge) ∈ w.listeners →
    bridge < w.signals.bridges.length ∧ (w.signals.bridge bridge).subscription = number

/-- A bridge of a manager that is made in a run. -/
structure Mirror (σ : Type) where
  bridge : Nat
  /-- The manager when the run began. -/
  base : World σ

/-- May the bridge not have heard what the state holds under a key? These are the keys of an event
of which it is still to be told, and those that the transaction under way has changed. -/
def Late (unheard : Option (List Scalar)) (w : World σ) (key : Scalar) : Prop :=
  (unheard.getD []).contains key = true ∨
    w.inTransaction = true ∧ w.changes.new.contains key = true

namespace Mirror

/-- May the bridge be there in the end: is the manager not disposed of, and the bridge subscribed or
still to be made? -/
def Stays (x : Mirror σ) (w : World σ) : Prop :=
  w.isLive = true ∧
    ((∃ number, (number, .bridge x.bridge) ∈ w.listeners) ∨ w.signals.bridges.length ≤ x.bridge)

/-- The cells of the bridge hold what the state holds, but for what it has not heard of. -/
def Reflects (x : Mirror σ) (unheard : Option (List Scalar)) (w : World σ) : Prop :=
  ∀ key number, w.signals.Names x.bridge key number →
    ∃ cell, w.signals.cells[number]? = some cell ∧ w.Holds cell.value ∧
      (Late unheard w key ∨ cell.value.looksLike (w.store.read key) = true)

/-- Did the state hold, in an earlier world, what cells still hold that have not changed since they
had these versions? If the bridge is still to be told of a key, the state may hold it instead. -/
def Dates (x : Mirror σ) (unheard : Option (List Scalar)) (s w : World σ)
    (seen : List (Nat × Nat)) : Prop :=
  ∀ e ∈ seen, ∀ key, w.signals.Names x.bridge key e.1 →
    ∃ cell, w.signals.cells[e.1]? = some cell ∧ e.2 ≤ cell.version ∧
      (e.2 = cell.version → (s.store.read key).looksLike cell.value = true ∨
        (unheard.getD []).contains key = true ∧
          (s.store.read key).looksLike (w.store.read key) = true)

/-- Is what is remembered what the manager made of the expression at a time when the state was as
the cells tell of which it was computed? -/
def Recalls (x : Mirror σ) (functions : Functions σ) (unheard : Option (List Scalar))
    (w : World σ) (d : Switchboard.Derived) (memo : Memo) : Prop :=
  ∃ n s s', evaluateNow functions (level functions (n + 1)) d.expression s = .ok memo.value s' ∧
    x.base.Onward s ∧ s.Onward w ∧ s.holdsOld = true ∧
    x.Dates unheard s w (d.reads.zip memo.seen)

end Mirror

/-- A manager with a bridge in a run with manners. While an event is told, some keys of it are still
unheard of by the bridge. -/
structure Mirroring (functions : Functions σ) (x : Mirror σ) (unheard : Option (List Scalar))
    (w : World σ) : Prop where
  onward : x.base.Onward w
  ordered : w.signals.InOrder
  numbered : w.Numbered
  hears : w.store.listeners = [] ∨ w.store.listeners = [(.null, [(1, ())])]
  telling : unheard.isSome = true → w.inTransaction = false ∧ w.holdsOld = true
  tallies : x.Stays w → w.inTransaction = true → w.Tallies
  reflects : x.Stays w → x.Reflects unheard w
  recalls : x.Stays w → ∀ {number : Nat} {d : Switchboard.Derived} {memo : Memo},
    x.base.signals.derived.length ≤ number → w.signals.derived[number]? = some d →
      d.memo = some memo → x.Recalls functions unheard w d memo

/-- How two managers of such a run are related. The bridge keeps its cells. While an event is told,
the state does not change. -/
structure Abides (x : Mirror σ) (unheard : Option (List Scalar)) (w w' : World σ) : Prop where
  within : w'.inTransaction = w.inTransaction
  computing : w'.computing = w.computing
  onward : w.Onward w'
  grows : w.signals.Grows x.bridge w'.signals
  stays : x.Stays w' → x.Stays w
  names : x.Stays w' → ∀ key number, w.signals.Names x.bridge key number →
    w'.signals.Names x.bridge key number
  still : unheard.isSome = true → w'.store.state = w.store.state

theorem Abides.refl (x : Mirror σ) (unheard : Option (List Scalar)) (w : World σ) :
    Abides x unheard w w :=
  ⟨rfl, rfl, .refl w, .refl _ _, id, fun _ _ _ h => h, fun _ => rfl⟩

theorem Abides.trans {x : Mirror σ} {unheard : Option (List Scalar)} {w u w' : World σ}
    (h : Abides x unheard w u) (h' : Abides x unheard u w') : Abides x unheard w w' where
  within := h'.within.trans h.within
  computing := h'.computing.trans h.computing
  onward := h.onward.trans h'.onward
  grows := h.grows.trans h'.grows
  stays := h.stays ∘ h'.stays
  names hx key number hname := h'.names hx key number (h.names (h'.stays hx) key number hname)
  still hu := (h'.still hu).trans (h.still hu)

/-- What a transaction does, and what is done once it is closed, seen from outside of it. -/
theorem Abides.outside {x : Mirror σ} {w v u : World σ} (hopen : w.inTransaction = false)
    (hv : Abides x none { w with changes := {}, inTransaction := true } v)
    (hu : Abides x none { v with inTransaction := false } u) : Abides x none w u where
  within := hu.within.trans hopen.symm
  computing := hu.computing.trans hv.computing
  onward := World.Onward.trans { hv.onward with } { hu.onward with }
  grows := hv.grows.trans hu.grows
  stays := hv.stays ∘ hu.stays
  names hx key number hname := hu.names hx key number (hv.names (hu.stays hx) key number hname)
  still := nofun

/-- A mirror is kept. -/
def mirroring (functions : Functions σ) (x : Mirror σ) (unheard : Option (List Scalar)) :
    Keeping (World σ) where
  inv := Mirroring functions x unheard
  rel := Abides x unheard
  refl := Abides.refl x unheard
  trans := Abides.trans

section

variable {functions : Functions σ} {x : Mirror σ} {unheard unheard' : Option (List Scalar)}
  {w w' : World σ}

/-- Cells still reflect the state if what is late stays late, and what is new, or set, is told
right. -/
theorem Mirror.Reflects.kept (h : x.Reflects unheard w) (hon : w.Onward w')
    (hnames : ∀ key number, w'.signals.Names x.bridge key number →
      (w.signals.Names x.bridge key number ∧
        w'.signals.cells[number]? = w.signals.cells[number]? ∧
        (Late unheard' w' key ∨
          ¬Late unheard w key ∧ w'.store.read key = w.store.read key)) ∨
      ∃ cell, w'.signals.cells[number]? = some cell ∧ w'.Holds cell.value ∧
        cell.value.looksLike (w'.store.read key) = true) : x.Reflects unheard' w' := by
  intro key number hname
  rcases hnames key number hname with ⟨hname, hsame, hlate⟩ | ⟨cell, hcell, hheld, hlooks⟩
  · obtain ⟨cell, hcell, hheld, htold⟩ := h key number hname
    refine ⟨cell, hsame.trans hcell, hon.values _ hheld, ?_⟩
    rcases hlate with hlate | ⟨hlate, hread⟩
    · exact .inl hlate
    · rw [hread]
      exact .inr (htold.resolve_left hlate)
  · exact ⟨cell, hcell, hheld, .inr hlooks⟩

/-- What is remembered is still as it was made, and dated by the cells. -/
theorem Mirror.Recalls.kept {d : Switchboard.Derived} {memo : Memo}
    (h : x.Recalls functions unheard w d memo) (hon : w.Onward w')
    (hgrows : w.signals.Grows x.bridge w'.signals)
    (hreads : ∀ number ∈ d.reads, number < w.signals.cells.length)
    (hstill : unheard.isSome = true →
      w'.inTransaction = false ∧ w'.store.state = w.store.state)
    (hreflects : x.Reflects unheard' w') : x.Recalls functions unheard' w' d memo := by
  obtain ⟨n, s, s', heval, hbase, hs, hold, hdates⟩ := h
  refine ⟨n, s, s', heval, hbase, hs.trans hon, hold, fun e he key hname => ?_⟩
  have hknown := hgrows.named_of_lt hname (hreads _ (List.of_mem_zip he).1)
  obtain ⟨cell, hcell, hle, htold⟩ := hdates e he key hknown
  obtain ⟨cell', hcell', hle', hsame⟩ := hgrows.cells hcell
  refine ⟨cell', hcell', Nat.le_trans hle hle', fun hv => ?_⟩
  have hversion : cell'.version = cell.version := Nat.le_antisymm (hv ▸ hle) hle'
  cases hsame hversion
  rcases htold hv with hlooks | ⟨hunheard, hlooks⟩
  · exact .inl hlooks
  · have hsome : unheard.isSome = true := by
      cases unheard with
      | none => cases hunheard
      | some keys => rfl
    obtain ⟨hclosed, hstate⟩ := hstill hsome
    have hread : w'.store.read key = w.store.read key := by
      unfold Store.read
      rw [hstate]
    obtain ⟨_, hcell'', -, htold'⟩ := hreflects key _ hname
    cases hcell'.symm.trans hcell''
    rcases htold' with (hlate | ⟨hopen, -⟩) | hlooks'
    · exact .inr ⟨hlate, hread ▸ hlooks⟩
    · rw [hclosed] at hopen
      cases hopen
    · exact .inl (Value.looksLike_trans (hread ▸ hlooks) (Value.looksLike_symm hlooks'))

theorem Mirroring.recalled (h : Mirroring functions x unheard w) (hon : w.Onward w')
    (hgrows : w.signals.Grows x.bridge w'.signals) (hstays : x.Stays w' → x.Stays w)
    (hstill : unheard.isSome = true →
      w'.inTransaction = false ∧ w'.store.state = w.store.state)
    (hreflects : x.Stays w' → x.Reflects unheard' w')
    (hx : x.Stays w')
    (hderived : ∀ {number : Nat} {d : Switchboard.Derived} {memo : Memo},
      w'.signals.derived[number]? = some d → d.memo = some memo →
        w.signals.derived[number]? = some d ∨ x.Recalls functions unheard' w' d memo)
    {number : Nat} {d : Switchboard.Derived} {memo : Memo}
    (hnumber : x.base.signals.derived.length ≤ number)
    (hd : w'.signals.derived[number]? = some d) (hmemo : d.memo = some memo) :
    x.Recalls functions unheard' w' d memo := by
  rcases hderived hd hmemo with hold | hnew
  · exact (h.recalls (hstays hx) hnumber hold hmemo).kept hon hgrows
      (h.ordered.read d (List.mem_of_getElem? hold)) hstill (hreflects hx)
  · exact hnew

/-! ## What the bridge does not see -/

/-- Is a change one of which the bridge sees nothing: not of the state, nor of what is noted, nor of
a cell or what is remembered? -/
structure Mirror.Unseen (x : Mirror σ) (w w' : World σ) : Prop where
  signals : w.signals.Spared w'.signals
  state : w'.store.state = w.store.state := by rfl
  history : w'.store.history = w.store.history := by rfl
  hears : w'.store.listeners = w.store.listeners ∨ w'.store.listeners = [] := by exact .inl rfl
  listeners : ∀ {number bridge}, (number, .bridge bridge) ∈ w'.listeners →
    (number, .bridge bridge) ∈ w.listeners ∨ w.signals.bridges.length ≤ bridge ∧
      bridge < w'.signals.bridges.length ∧ (w'.signals.bridge bridge).subscription = number := by
    exact .inl
  names : ∀ number, (number, .bridge x.bridge) ∈ w'.listeners → ∀ key cell,
    w.signals.Names x.bridge key cell → w'.signals.Names x.bridge key cell := by
    exact fun _ _ _ _ h => h
  context : w'.context = w.context := by rfl
  identities : w.nextIdentity ≤ w'.nextIdentity := by exact Nat.le_refl _
  new : w'.changes.new = w.changes.new := by rfl
  within : w'.inTransaction = w.inTransaction := by rfl
  computing : w'.computing = w.computing := by rfl

theorem late_of_same {key : Scalar} (hwithin : w'.inTransaction = w.inTransaction)
    (hnew : w'.changes.new = w.changes.new) : Late unheard w' key ↔ Late unheard w key := by
  unfold Late
  rw [hwithin, hnew]

theorem Mirror.Unseen.stays (h : x.Unseen w w') (hx : x.Stays w') : x.Stays w := by
  refine ⟨?_, ?_⟩
  · have hlive := hx.1
    unfold isLive at hlive ⊢
    rcases h.hears with hsame | hnone
    · rwa [hsame] at hlive
    · rw [hnone] at hlive
      cases hlive
  · rcases hx.2 with ⟨number, hsubscribed⟩ | hbridge
    · exact (h.listeners hsubscribed).imp (⟨number, ·⟩) (·.1)
    · exact .inr (Nat.le_trans h.signals.bridges hbridge)

theorem Mirror.Unseen.kept (h : x.Unseen w w') (hx : x.Stays w') (key : Scalar) (number : Nat)
    (hname : w.signals.Names x.bridge key number) : w'.signals.Names x.bridge key number := by
  rcases hx.2 with ⟨n, hsubscribed⟩ | hbridge
  · exact h.names n hsubscribed key number hname
  · exact absurd hname (Signals.not_names_of_le (Nat.le_trans h.signals.bridges hbridge))

theorem World.numbered_unseen (h : w.Numbered) (hun : x.Unseen w w') : w'.Numbered := by
  intro number bridge hsubscribed
  rcases hun.listeners hsubscribed with hsubscribed | ⟨-, hnew⟩
  · obtain ⟨hlt, hnumber⟩ := h number bridge hsubscribed
    refine ⟨Nat.lt_of_lt_of_le hlt hun.signals.bridges, ?_⟩
    rw [hun.signals.subscribed hlt, hnumber]
  · exact hnew

theorem Mirroring.unseen (h : Mirroring functions x unheard w) (hun : x.Unseen w w') :
    Mirroring functions x unheard w' ∧ Abides x unheard w w' := by
  have hon := onward_of_same hun.context hun.identities hun.state hun.history
  have hgrows := hun.signals.grows x.bridge
  have hread : ∀ key, w'.store.read key = w.store.read key := by
    intro key
    unfold Store.read
    rw [hun.state]
  have hreflects : x.Stays w' → x.Reflects unheard w' := by
    intro hx
    refine (h.reflects (hun.stays hx)).kept hon fun key number hname => .inl ?_
    refine ⟨hun.signals.named hname, by rw [hun.signals.cells], ?_⟩
    rw [late_of_same hun.within hun.new]
    exact (Classical.em _).imp_right fun hlate => ⟨hlate, hread key⟩
  refine ⟨⟨h.onward.trans hon, hun.signals.inOrder h.ordered, World.numbered_unseen h.numbered hun, ?_,
    fun hu => ?_, fun hx hopen => ?_, hreflects, fun hx => ?_⟩, hun.within, hun.computing, hon,
    hgrows, hun.stays, hun.kept, fun _ => hun.state⟩
  · rcases hun.hears with hsame | hnone
    · rw [hsame]
      exact h.hears
    · exact .inl hnone
  · obtain ⟨hclosed, hold⟩ := h.telling hu
    exact ⟨hun.within.trans hclosed, holdsOld_of_same hold hun.context hun.identities hun.state⟩
  · obtain ⟨honce, htold⟩ := h.tallies (hun.stays hx) (hun.within.symm.trans hopen)
    unfold Tallies
    rw [hun.new]
    exact ⟨honce, fun {key _} hkey => (hread key).trans (htold hkey)⟩
  · refine h.recalled hon hgrows hun.stays (fun hu => ?_) hreflects hx fun hd hmemo => ?_
    · exact ⟨hun.within.trans (h.telling hu).1, hun.state⟩
    · refine .inl ((hun.signals.added hd).resolve_right fun hnew => ?_)
      rw [hnew.1] at hmemo
      cases hmemo

theorem Mirror.unseen_of_busied (x : Mirror σ) (h : w.Busied w') : x.Unseen w w' := by
  obtain ⟨_, _, _, _, _, _, _, rfl, hle⟩ := h
  exact { signals := .refl _, identities := hle }

/-! ## Writes -/

theorem Mirroring.untold (h : Mirroring functions x unheard w) (hopen : w.inTransaction = true) :
    ¬unheard.isSome = true := by
  intro hu
  rw [(h.telling hu).1] at hopen
  cases hopen

/-- A manager that does not hear of its own state has no mirror left. -/
theorem Mirroring.stored (h : Mirroring functions x unheard w) (key : Scalar) (value : Value)
    (hopen : w.inTransaction = true) (hdeaf : w.store.listeners = []) :
    Mirroring functions x unheard (w.stored key value) ∧
      Abides x unheard w (w.stored key value) := by
  have hgone : ¬x.Stays (w.stored key value) := by
    intro hx
    have hlive : (w.stored key value).isLive = true := hx.1
    unfold isLive World.stored at hlive
    rw [hdeaf] at hlive
    cases hlive
  have hon := onward_stored w key value
  have huntold := h.untold hopen
  exact ⟨⟨h.onward.trans hon, h.ordered, h.numbered, .inl hdeaf, fun hu => absurd hu huntold,
    fun hx => absurd hx hgone, fun hx => absurd hx hgone, fun hx => absurd hx hgone⟩, rfl, rfl,
    hon, .refl _ _, id, fun _ _ _ h => h, fun hu => absurd hu huntold⟩

/-- What a transaction changes is late until it is told. -/
theorem Mirroring.noted (h : Mirroring functions x unheard w) (key : Scalar) (value : Value)
    (hopen : w.inTransaction = true) :
    Mirroring functions x unheard (w.noted key value) ∧
      Abides x unheard w (w.noted key value) := by
  have hon : w.Onward (w.noted key value) :=
    { onward_stored w key value with }
  have huntold := h.untold hopen
  have hread : ∀ other, (w.noted key value).store.read other =
      if key == other then value else w.store.read other :=
    fun other => stored_read w key other value
  have hnew : (w.noted key value).changes.new = w.changes.new.put key value := rfl
  have hlate : ∀ other, (key == other) = true ∨ Late unheard w other →
      Late unheard (w.noted key value) other := by
    intro other hother
    unfold Late
    rw [hnew, Dict.contains_put]
    rcases hother with hkey | hlate | ⟨-, hlate⟩
    · exact .inr ⟨hopen, by rw [hkey, Bool.or_true]⟩
    · exact .inl hlate
    · exact .inr ⟨hopen, by rw [hlate, Bool.true_or]⟩
  have hreflects : x.Stays w → x.Reflects unheard (w.noted key value) := by
    intro hx
    refine (h.reflects hx).kept hon fun other number hname => .inl ⟨hname, rfl, ?_⟩
    by_cases hkey : (key == other) = true
    · exact .inl (hlate other (.inl hkey))
    · refine (Classical.em (Late unheard w other)).imp (fun hl => hlate other (.inr hl))
        fun hl => ⟨hl, ?_⟩
      rw [hread, if_neg hkey]
  refine ⟨⟨h.onward.trans hon, h.ordered, h.numbered, h.hears, fun hu => absurd hu huntold,
    fun hx _ => ?_, hreflects, fun hx => ?_⟩,
    rfl, rfl, hon, .refl _ _, id, fun _ _ _ h => h, fun hu => absurd hu huntold⟩
  · obtain ⟨honce, htold⟩ := h.tallies hx hopen
    refine ⟨Dict.noneTwice_put honce key value, fun {other v} hother => ?_⟩
    rw [hnew, Dict.get?_put] at hother
    rw [hread]
    by_cases hkey : (key == other) = true
    · rw [if_pos hkey] at hother ⊢
      exact Option.some.inj hother
    · rw [if_neg hkey] at hother ⊢
      exact htold hother
  · exact h.recalled hon (.refl _ _) id (fun hu => absurd hu huntold) hreflects hx
      fun hd _ => .inl hd

/-! ## Signals -/

/-- What is done to signals is done to the mirror alone. -/
theorem Mirroring.signalled (h : Mirroring functions x unheard w)
    {s : Signals (Value → Act σ)} (hordered : s.InOrder)
    (hgrows : w.signals.Grows x.bridge s)
    (hnames : ∀ key number, w.signals.Names x.bridge key number → s.Names x.bridge key number)
    (htelling : unheard'.isSome = true → unheard.isSome = true)
    (hreflects : x.Stays w → x.Reflects unheard' { w with signals := s })
    (hderived : x.Stays w → ∀ {number : Nat} {d : Switchboard.Derived} {memo : Memo},
      s.derived[number]? = some d → d.memo = some memo →
        w.signals.derived[number]? = some d ∨
          x.Recalls functions unheard' { w with signals := s } d memo) :
    Mirroring functions x unheard' { w with signals := s } ∧
      Abides x unheard w { w with signals := s } := by
  have hon : w.Onward { w with signals := s } := onward_of_same rfl (Nat.le_refl _) rfl rfl
  have hstays : x.Stays { w with signals := s } → x.Stays w := fun hx =>
    ⟨hx.1, hx.2.imp_right (Nat.le_trans hgrows.bridges)⟩
  have hnumbered : World.Numbered { w with signals := s } := fun number bridge hsubscribed => by
    obtain ⟨hlt, hnumber⟩ := h.numbered number bridge hsubscribed
    exact ⟨Nat.lt_of_lt_of_le hlt hgrows.bridges, (hgrows.subscribed hlt).trans hnumber⟩
  refine ⟨⟨h.onward.trans hon, hordered, hnumbered, h.hears, fun hu => h.telling (htelling hu),
    fun hx => h.tallies (hstays hx), fun hx => hreflects (hstays hx), fun hx => ?_⟩, rfl, rfl, hon,
    hgrows, hstays, fun _ => hnames, fun _ => rfl⟩
  exact h.recalled hon hgrows hstays (fun hu => ⟨(h.telling hu).1, rfl⟩)
    (fun hx => hreflects (hstays hx)) hx (hderived (hstays hx))

/-- A new cell holds what the state holds. -/
theorem Mirroring.celled (h : Mirroring functions x unheard w) (bridge : Nat) (key : Scalar) :
    Mirroring functions x unheard
        { w with signals := (w.signals.cellOf bridge key (w.store.read key)).2 } ∧
      Abides x unheard w
        { w with signals := (w.signals.cellOf bridge key (w.store.read key)).2 } := by
  cases hget : (w.signals.bridge bridge).cells.get? key with
  | some number =>
    rw [Signals.cellOf_known _ hget]
    exact ⟨h, .refl x unheard w⟩
  | none =>
    obtain ⟨-, hopened⟩ := Signals.cellOf_opened (w.store.read key) hget
    refine h.signalled (hopened.inOrder h.ordered) (hopened.grows _)
      (fun _ _ => hopened.kept) id (fun hx => ?_)
      fun _ {_ _ _} hd _ => .inl (by rwa [hopened.derived] at hd)
    refine (h.reflects hx).kept (onward_of_same rfl (Nat.le_refl _) rfl rfl) ?_
    intro other number hname
    rcases hopened.named hname with hname | ⟨-, hkey, rfl⟩
    · refine .inl ⟨hname, ?_, (Classical.em _).imp_right fun hl => ⟨hl, rfl⟩⟩
      dsimp only
      rw [hopened.cells]
      exact List.getElem?_append_left (h.ordered.named hname)
    · refine .inr ⟨⟨w.store.read key, 0⟩, ?_, .inl ⟨key, rfl⟩, ?_⟩
      · dsimp only
        rw [hopened.cells]
        exact List.getElem?_concat_length
      · rw [← read_congr w.store hkey]
        exact Value.looksLike_refl _

/-- To remember what was made of an expression is to recall it. -/
theorem Mirroring.remembered (h : Mirroring functions x unheard w) {number : Nat}
    {d : Switchboard.Derived} {memo : Memo} (hd : w.signals.derived[number]? = some d)
    (hnew : x.Stays w → x.Recalls functions unheard w d memo) :
    Mirroring functions x unheard { w with signals := w.signals.remember number memo } ∧
      Abides x unheard w { w with signals := w.signals.remember number memo } := by
  have hon : w.Onward { w with signals := w.signals.remember number memo } :=
    onward_of_same rfl (Nat.le_refl _) rfl rfl
  have hgrows := w.signals.remember_grows number memo x.bridge
  have hreflects : x.Stays w →
      x.Reflects unheard { w with signals := w.signals.remember number memo } :=
    fun hx => (h.reflects hx).kept hon fun other n hname =>
      .inl ⟨hname, rfl, (Classical.em _).imp_right fun hl => ⟨hl, rfl⟩⟩
  refine h.signalled (Signals.remember_inOrder h.ordered memo) hgrows (fun _ _ h => h) id
    hreflects ?_
  intro hx n d' memo' hd' hmemo
  rw [Signals.derived_remember] at hd'
  obtain ⟨d₀, hd₀, hd'⟩ := Option.map_eq_some_iff.mp hd'
  split at hd'
  · rename_i hn
    subst hn
    cases hd₀.symm.trans hd
    cases hd'
    cases hmemo
    exact .inr ((hnew hx).kept hon hgrows (h.ordered.read d (List.mem_of_getElem? hd))
      (fun hu => ⟨(h.telling hu).1, rfl⟩) (hreflects hx))
  · cases hd'
    exact .inl hd₀

/-! ## What the bridge is told -/

/-- While an event is told, nothing but what is told of it is late. -/
theorem Mirroring.late_iff {keys : List Scalar} (h : Mirroring functions x (some keys) w)
    (key : Scalar) : Late (some keys) w key ↔ keys.contains key = true := by
  unfold Late
  rw [(h.telling rfl).1]
  simp

theorem Abides.widen {keys : List Scalar} (h : Abides x (some keys) w w') :
    Abides x unheard w w' :=
  { h with still := fun _ => h.still rfl }

/-- A cell of another bridge is set. -/
theorem Mirroring.passed {keys : List Scalar} (h : Mirroring functions x (some keys) w)
    {bridge number : Nat} {key : Scalar} {value : Value} {s : Signals (Value → Act σ)}
    (hother : bridge ≠ x.bridge) (hname : w.signals.Names bridge key number)
    (hset : w.signals.setCell? number value = some s) :
    Mirroring functions x (some keys) { w with signals := s } ∧
      Abides x (some keys) w { w with signals := s } := by
  have hturned := Signals.setCell_turned hset
  refine h.signalled (hturned.inOrder h.ordered) (hturned.grows _)
    (fun _ _ => hturned.named.mpr) id (fun hx => ?_)
    fun _ {_ _ _} hd _ => .inl (by rwa [hturned.derived] at hd)
  refine (h.reflects hx).kept (onward_of_same rfl (Nat.le_refl _) rfl rfl) ?_
  intro key' number' hname'
  have hname' := hturned.named.mp hname'
  refine .inl ⟨hname', hturned.others ?_, (Classical.em _).imp_right fun hl => ⟨hl, rfl⟩⟩
  rintro rfl
  exact hother (h.ordered.apart hname' hname).1

/-- When the bridge is told of a key, its cell reflects the state. -/
theorem Mirror.Reflects.told {keys : List Scalar} {key : Scalar} {s : Signals (Value → Act σ)}
    (h : Mirroring functions x (some (key :: keys)) w) (hx : x.Stays w)
    (hnames : ∀ {other number}, s.Names x.bridge other number →
      w.signals.Names x.bridge other number)
    (hcells : ∀ {number}, s.Names x.bridge key number → ∃ cell, s.cells[number]? = some cell ∧
      w.Holds cell.value ∧ cell.value.looksLike (w.store.read key) = true)
    (hothers : ∀ {other number}, s.Names x.bridge other number → ¬(key == other) = true →
      s.cells[number]? = w.signals.cells[number]?) :
    x.Reflects (some keys) { w with signals := s } := by
  refine (h.reflects hx).kept (onward_of_same rfl (Nat.le_refl _) rfl rfl) ?_
  intro other number hname
  by_cases hkey : (key == other) = true
  · have hsame : s.Names x.bridge key number := by
      unfold Signals.Names
      rw [Dict.get?_congr _ hkey]
      exact hname
    obtain ⟨cell, hcell, hheld, hlooks⟩ := hcells hsame
    refine .inr ⟨cell, hcell, hheld, ?_⟩
    dsimp only
    rwa [← read_congr w.store hkey]
  · refine .inl ⟨hnames hname, hothers hname hkey, ?_⟩
    by_cases hkeys : keys.contains other = true
    · exact .inl (.inl hkeys)
    · refine .inr ⟨fun hlate => ?_, rfl⟩
      rw [h.late_iff, List.contains_cons, BEq.comm, Bool.or_eq_true] at hlate
      rcases hlate with hlate | hlate
      · exact hkey hlate
      · exact hkeys hlate

/-- The cell of a key of which the bridge is told is set. -/
theorem Mirroring.turned {keys : List Scalar} {key : Scalar} {value : Value}
    (h : Mirroring functions x (some (key :: keys)) w)
    (hvalue : x.Stays w → w.store.read key = value) {number : Nat}
    {s : Signals (Value → Act σ)} (hname : w.signals.Names x.bridge key number)
    (hset : w.signals.setCell? number value = some s) :
    Mirroring functions x (some keys) { w with signals := s } ∧
      Abides x (some (key :: keys)) w { w with signals := s } := by
  have hturned := Signals.setCell_turned hset
  refine h.signalled (hturned.inOrder h.ordered) (hturned.grows _)
    (fun _ _ => hturned.named.mpr) id (fun hx => ?_)
    fun _ {_ _ _} hd _ => .inl (by rwa [hturned.derived] at hd)
  refine .told h hx hturned.named.mp (fun {n} hn => ?_) fun {other n} hn hkey => ?_
  · cases (hturned.named.mp hn).symm.trans hname
    obtain ⟨cell, -, hcell⟩ := hturned.there
    refine ⟨_, hcell, .inl ⟨key, hvalue hx⟩, ?_⟩
    rw [hvalue hx]
    exact Value.looksLike_refl _
  · refine hturned.others ?_
    rintro rfl
    exact hkey (h.ordered.apart (hturned.named.mp hn) hname).2

/-- A key of which the bridge is told may have no cell, or one that holds what it is told. -/
theorem Mirroring.turnedNot {keys : List Scalar} {key : Scalar} {value : Value}
    (h : Mirroring functions x (some (key :: keys)) w)
    (hvalue : x.Stays w → w.store.read key = value)
    (hcells : ∀ number, w.signals.Names x.bridge key number →
      w.signals.setCell? number value = none) : Mirroring functions x (some keys) w := by
  have hreflects : x.Stays w → x.Reflects (some keys) { w with signals := w.signals } := by
    intro hx
    refine .told h hx id (fun {number} hname => ?_) fun _ _ => rfl
    obtain ⟨cell, hcell, hheld, -⟩ := h.reflects hx key number hname
    refine ⟨cell, hcell, hheld, ?_⟩
    rw [hvalue hx]
    exact Signals.setCell_same (hcells number hname) hcell
  have hkept : Mirroring functions x (some keys) { w with signals := w.signals } ∧
      Abides x (some (key :: keys)) w { w with signals := w.signals } :=
    h.signalled h.ordered (.refl _ _) (fun _ _ h => h) id hreflects fun _ {_ _ _} hd _ => .inl hd
  exact hkept.1

/-- More may be taken for late than is. -/
theorem Mirroring.doubted {keys keys' : List Scalar} (h : Mirroring functions x (some keys) w)
    (hkeys : ∀ key, keys.contains key = true → keys'.contains key = true) :
    Mirroring functions x (some keys') w := by
  refine { h with telling := fun _ => h.telling rfl, reflects := fun hx key number hname => ?_,
                  recalls := fun hx _ d memo hnumber hd hmemo => ?_ }
  · obtain ⟨cell, hcell, hheld, htold⟩ := h.reflects hx key number hname
    exact ⟨cell, hcell, hheld, htold.imp_left (Or.imp_left (hkeys key))⟩
  · obtain ⟨n, s, s', heval, hbase, hs, hold, hdates⟩ := h.recalls hx hnumber hd hmemo
    refine ⟨n, s, s', heval, hbase, hs, hold, fun e he key hname => ?_⟩
    obtain ⟨cell, hcell, hle, htold⟩ := hdates e he key hname
    exact ⟨cell, hcell, hle, fun hv => (htold hv).imp_right (And.imp_left (hkeys key))⟩

/-- When the bridge has been told of all, the event is over. -/
theorem Mirroring.heard (h : Mirroring functions x (some []) w) : Mirroring functions x none w :=
  { h with telling := nofun }

/-- A bridge that is still to be made has heard of all. -/
theorem Mirroring.unmade {keys : List Scalar} (h : Mirroring functions x (some keys) w)
    (hbridge : w.signals.bridges.length ≤ x.bridge) : Mirroring functions x (some []) w := by
  refine { h with telling := fun _ => h.telling rfl, reflects := fun _ key number hname => ?_,
                  recalls := fun hx _ d memo hnumber hd hmemo => ?_ }
  · exact absurd hname (Signals.not_names_of_le hbridge)
  · obtain ⟨n, s, s', heval, hbase, hs, hold, -⟩ := h.recalls hx hnumber hd hmemo
    exact ⟨n, s, s', heval, hbase, hs, hold, fun e _ key hname =>
      absurd hname (Signals.not_names_of_le hbridge)⟩

/-- A bridge that is no longer subscribed mirrors nothing. -/
theorem Mirroring.gone {keys : List Scalar} (h : Mirroring functions x (some keys) w)
    (hx : ¬x.Stays w) : Mirroring functions x none w :=
  { h with
    telling := nofun
    reflects := fun h => absurd h hx
    recalls := fun h => absurd h hx }

/-! ## Transactions -/

/-- When a transaction is opened, it has changed nothing yet. -/
theorem Mirroring.opened (h : Mirroring functions x none w) (hclosed : w.inTransaction = false) :
    Mirroring functions x none { w with changes := {}, inTransaction := true } := by
  have hon : w.Onward { w with changes := {}, inTransaction := true } :=
    onward_of_same rfl (Nat.le_refl _) rfl rfl
  have hlate : ∀ key, ¬Late none w key := by
    rintro key (hlate | ⟨hopen, -⟩)
    · cases hlate
    · rw [hclosed] at hopen
      cases hopen
  have hreflects : x.Stays w →
      x.Reflects none { w with changes := {}, inTransaction := true } := fun hx =>
    (h.reflects hx).kept hon fun key number hname => .inl ⟨hname, rfl, .inr ⟨hlate key, rfl⟩⟩
  refine ⟨h.onward.trans hon, h.ordered, h.numbered, h.hears, nofun, fun _ _ => ?_,
    hreflects, fun hx => ?_⟩
  · exact ⟨List.Pairwise.nil, nofun⟩
  · exact h.recalled hon (.refl _ _) id nofun hreflects hx fun hd _ => .inl hd

/-- When a transaction is closed, the bridge has not heard of what it has changed. -/
theorem Mirroring.closed (h : Mirroring functions x none w) (hold : w.holdsOld = true)
    (events : List Event) :
    Mirroring functions x (some w.changes.new.keys)
      { w with inTransaction := false, events := events } := by
  have hon : w.Onward { w with inTransaction := false, events := events } :=
    onward_of_same rfl (Nat.le_refl _) rfl rfl
  have hlate : ∀ key, Late none w key →
      Late (some w.changes.new.keys) { w with inTransaction := false, events := events } key := by
    rintro key (hlate | ⟨-, hlate⟩)
    · cases hlate
    · rw [Dict.contains_eq] at hlate
      exact .inl hlate
  have hreflects : x.Stays w → x.Reflects (some w.changes.new.keys)
      { w with inTransaction := false, events := events } := fun hx =>
    (h.reflects hx).kept hon fun key number hname =>
      .inl ⟨hname, rfl, (Classical.em _).imp (hlate key) fun hl => ⟨hl, rfl⟩⟩
  refine ⟨h.onward.trans hon, h.ordered, h.numbered, h.hears, fun _ => ⟨rfl, hold⟩, nofun, hreflects,
    fun hx => ?_⟩
  exact h.recalled hon (.refl _ _) id nofun hreflects hx fun hd _ => .inl hd

/-- A transaction that has changed nothing is closed without a word. -/
theorem Mirroring.shut (h : Mirroring functions x none w) (hempty : w.changes.isEmpty = true) :
    Mirroring functions x none { w with inTransaction := false } := by
  have hon : w.Onward { w with inTransaction := false } :=
    onward_of_same rfl (Nat.le_refl _) rfl rfl
  have hlate : ∀ key, ¬Late none w key := by
    rintro key (hlate | ⟨-, hlate⟩)
    · cases hlate
    · rw [List.isEmpty_iff.mp hempty] at hlate
      cases hlate
  have hreflects : x.Stays w → x.Reflects none { w with inTransaction := false } := fun hx =>
    (h.reflects hx).kept hon fun key number hname => .inl ⟨hname, rfl, .inr ⟨hlate key, rfl⟩⟩
  refine ⟨h.onward.trans hon, h.ordered, h.numbered, h.hears, nofun, nofun, hreflects, fun hx => ?_⟩
  exact h.recalled hon (.refl _ _) id nofun hreflects hx fun hd _ => .inl hd

end

end Switchboard.Manager
