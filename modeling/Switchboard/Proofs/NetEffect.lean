-- What a transaction leaves behind, and what its event tells of it. The history of the state says
-- which values were replaced, in order. Through every nesting of writes, assignments and calls the
-- change set of the transaction stays the net effect of the history since the transaction began.
import Switchboard.Proofs.Cascade
import Switchboard.Proofs.Histories
import Switchboard.Proofs.Registry
namespace Switchboard

/-! ## Events that tell the net effect -/

/-- Does an event tell what the changes made of a state, key by key? -/
structure Tells (event : Event) (log : List Change) (s s' : Dict Scalar Value) : Prop where
  /-- The keys are those that were changed, in the order of their first change. -/
  new_keys : event.new.keys = distinct (log.map (·.key))
  old_keys : event.old.keys = distinct (log.map (·.key))
  new_value : ∀ k, event.new.keys.contains k = true → event.new.get? k = s'.get? k
  old_value : ∀ k, event.old.keys.contains k = true →
    event.old.get? k = some ((s.get? k).getD .null)
  unchanged : ∀ k, event.new.keys.contains k = false → s'.get? k = s.get? k

/-- A change set that took up the changes one by one makes an event that tells them. -/
theorem tells_of_leads {event : Event} {log : List Change} {s s' : Dict Scalar Value}
    (h : Leads s log s') (hnew : event.new = Dict.ofList (log.map Change.after))
    (hold : event.old =
      (log.map Change.before).foldl (fun d e => Dict.putNew d e.1 e.2) []) :
    Tells event log s s' := by
  have hread : ∀ k, s'.get? k = (event.new.get? k).or (s.get? k) := by
    intro k
    rw [h.state_eq, Dict.get?_merge, hnew]
  refine ⟨?_, ?_, fun k hk => ?_, fun k hk => ?_, fun k hk => ?_⟩
  · rw [hnew, Dict.ofList, Dict.keys_merge, Change.keys_after]
    rfl
  · rw [hold, Dict.keys_foldl_putNew, Change.keys_before]
    rfl
  · have hsome : event.new.get? k ≠ none := by
      rw [Ne, Dict.get?_eq_none_iff, hk]
      decide
    obtain ⟨v, hv⟩ := Option.ne_none_iff_exists'.mp hsome
    rw [hread, hv]
    rfl
  · have hsome : event.old.get? k ≠ none := by
      rw [Ne, Dict.get?_eq_none_iff, hk]
      decide
    obtain ⟨v, hv⟩ := Option.ne_none_iff_exists'.mp hsome
    rw [hv]
    rw [hold, Dict.get?_foldl_putNew] at hv
    rw [h.first_old hv]
  · rw [hread, (Dict.get?_eq_none_iff event.new k).mpr hk]
    rfl

namespace Manager

open World Conduct

variable {σ : Type}

/-! ## Inside a transaction -/

/-- A manager in the middle of a transaction, listening to its state. -/
structure Gathering (w : World σ) : Prop where
  listening : w.store.listeners = [(.null, [(1, ())])]
  open_ : w.inTransaction = true

/-- What happens between two worlds of one transaction, all changes listed. -/
structure Followed (w : World σ) (log : List Change) (w' : World σ) : Prop where
  gathering : Gathering w'
  history : w'.store.history = w.store.history ++ log
  leads : Leads w.store.state log w'.store.state
  new : w'.changes.new = w.changes.new.merge (log.map Change.after)
  old : w'.changes.old =
    (log.map Change.before).foldl (fun d e => Dict.putNew d e.1 e.2) w.changes.old
  events : w'.events = w.events
  context : w'.context = w.context
  /-- Identities are only given out. -/
  identities : w.nextIdentity ≤ w'.nextIdentity
  targets : w.changes.targets <+: w'.changes.targets
  readers : ∀ key, w.readersOf key ⊆ w'.readersOf key

/-- Are the controls that read a changed key among the targets? -/
def Named (w : World σ) (log : List Change) (w' : World σ) : Prop :=
  ∀ c ∈ log, ∀ id ∈ w.readersOf c.key, w'.changes.targets.any (·.sameKey id) = true

theorem Followed.trans {w u w' : World σ} {log log' : List Change} (h : Followed w log u)
    (h' : Followed u log' w') : Followed w (log ++ log') w' where
  gathering := h'.gathering
  history := by rw [h'.history, h.history, List.append_assoc]
  leads := h.leads.append h'.leads
  new := by
    rw [h'.new, h.new, List.map_append]
    exact List.foldl_append.symm
  old := by rw [h'.old, h.old, List.map_append, List.foldl_append]
  events := h'.events.trans h.events
  context := h'.context.trans h.context
  identities := Nat.le_trans h.identities h'.identities
  targets := h.targets.trans h'.targets
  readers key := fun _ hid => h'.readers key (h.readers key hid)

theorem Named.trans {w u w' : World σ} {log log' : List Change} (h : Followed w log u)
    (h' : Followed u log' w') (hn : Named w log u) (hn' : Named u log' w') :
    Named w (log ++ log') w' := by
  intro c hc id hid
  rcases List.mem_append.mp hc with hc | hc
  · exact any_of_prefix h'.targets (hn c hc id hid)
  · exact hn' c hc id (h.readers c.key hid)

/-- Where the state, the change set and the table of readers stay, nothing was changed. -/
theorem followed_of_same {w w' : World σ} (hw : Gathering w) (hstore : w'.store = w.store)
    (hchanges : w'.changes = w.changes) (hlinks : w'.readLinks = w.readLinks)
    (hevents : w'.events = w.events) (hopen : w'.inTransaction = w.inTransaction)
    (hcontext : w'.context = w.context) (hidentities : w.nextIdentity ≤ w'.nextIdentity) :
    Followed w [] w' := by
  refine ⟨⟨?_, ?_⟩, ?_, ?_, ?_, ?_, hevents, hcontext, hidentities, ?_, ?_⟩
  · rw [hstore]
    exact hw.listening
  · rw [hopen]
    exact hw.open_
  · rw [hstore, List.append_nil]
  · exact congrArg Store.state hstore
  · exact congrArg ChangeSet.new hchanges
  · exact congrArg ChangeSet.old hchanges
  · exact ⟨[], by rw [hchanges, List.append_nil]⟩
  · intro key id hid
    unfold readersOf at hid ⊢
    rwa [hlinks]

theorem followed_of_aside {w w' : World σ} (hw : Gathering w) (h : w.Aside w') :
    Followed w [] w' :=
  followed_of_same hw (congrArg Core.store h.1) (congrArg Core.changes h.1)
    (congrArg Core.readLinks h.1) (congrArg Core.events h.1) (congrArg Core.inTransaction h.1)
    (congrArg Core.context h.1) h.2

theorem named_nil {w w' : World σ} : Named w [] w' := fun _ hc => by cases hc

theorem followed_linkControl {w : World σ} (control : Control) (reads : List Scalar)
    (hw : Gathering w) : Followed w [] (w.linkControl control reads) := by
  refine ⟨⟨hw.listening, hw.open_⟩, (List.append_nil _).symm, rfl, rfl, rfl, rfl, rfl,
    Nat.le_refl _, List.prefix_refl _, fun key id hid => ?_⟩
  obtain ⟨c, hc, rfl⟩ := List.mem_map.mp hid
  exact List.mem_map_of_mem (mem_linked control reads _ c key (.inl hc))

/-- Staying inside a transaction whose change set keeps up with the history. A fault ends the
transaction, so nothing is asked of it. -/
def gathering : Conduct (World σ) where
  good w w' := Gathering w → ∃ log, Followed w log w' ∧ Named w log w'
  bad _ _ := True
  refl w hw := ⟨[], followed_of_aside hw ⟨rfl, Nat.le_refl _⟩, named_nil⟩
  trans h h' hw := by
    obtain ⟨log, hl, hn⟩ := h hw
    obtain ⟨log', hl', hn'⟩ := h' hl.gathering
    exact ⟨log ++ log', hl.trans hl', hn.trans hl hl' hn'⟩
  giveUp _ := trivial
  fail _ _ := trivial
  leave _ _ := trivial

/-- Equal keys read the same of a state. -/
theorem read_congr (store : Store Unit) {key other : Scalar} (h : (key == other) = true) :
    store.read key = store.read other := by
  unfold Store.read
  rw [Dict.get?_congr _ h]

/-- A world with a value stored and the change noted, ready for the assignments that listen. -/
def World.noted (w : World σ) (key : Scalar) (value : Value) : World σ :=
  { w.stored key value with
    depth := w.depth + 1
    changes := w.changes.record ⟨key, w.store.read key, value⟩ }

theorem followed_noted {w : World σ} (key : Scalar) (value : Value)
    (hs : (w.store.read key).strictEquals value = false) (hw : Gathering w) :
    Followed w [⟨key, w.store.read key, value⟩] (w.noted key value) where
  gathering := ⟨hw.listening, hw.open_⟩
  history := rfl
  leads := ⟨rfl, hs, rfl⟩
  new := rfl
  old := rfl
  events := rfl
  context := rfl
  identities := Nat.le_refl _
  targets := List.prefix_refl _
  readers _ := List.Subset.refl _

variable {functions : Functions σ} {below : Level σ}

/-- A write either finds the value there and does nothing, or it notes the change, applies the
assignments that listen and do not wait, and then names the readers and defers the rest. -/
theorem writeKey_ok {key : Scalar} {value : Value} {w w' : World σ} (hw : Gathering w)
    (h : writeKey functions below key value w = .ok () w') :
    ((w.store.read key).strictEquals value = true ∧ w' = w) ∨
      (w.store.read key).strictEquals value = false ∧
        ∃ v, ((w.listeningTo key).filter (!·.isDeferred)).forM (applyAssignment functions below)
            (w.noted key value) = .ok () v ∧
          (Gathering v → Followed v [] w') ∧
          (∀ id ∈ v.affected key (w.listeningTo key),
            w'.changes.targets.any (·.sameKey id) = true) ∧
          w'.registry = v.registry := by
  rw [writeKey_eq hw.listening] at h
  split at h
  · rename_i hs
    cases h
    exact .inl ⟨hs, rfl⟩
  · rename_i hs
    obtain ⟨t, ht, rfl⟩ := onChange_ok h
    obtain ⟨v, x, hv, hx, haside⟩ := followUp_ok ht
    obtain ⟨targets, rfl, hp, hids⟩ := addTargets_ok hx
    have hdeferred : t.changes.targets = targets :=
      congrArg ChangeSet.targets (congrArg Core.changes haside.1)
    have hregistry := registry_aside haside
    refine .inr ⟨Bool.eq_false_iff.mpr hs, v, hv, ?_, ?_, hregistry⟩
    · intro hgathering
      have htargets : Followed v [] { v with changes := { v.changes with targets := targets } } :=
        ⟨⟨hgathering.listening, hgathering.open_⟩, (List.append_nil _).symm, rfl, rfl, rfl, rfl,
          rfl, Nat.le_refl _, hp, fun _ => List.Subset.refl _⟩
      have hdefer := followed_of_aside htargets.gathering haside
      have hdepth : Followed t [] { t with depth := t.depth - 1 } :=
        followed_of_same hdefer.gathering rfl rfl rfl rfl rfl rfl (Nat.le_refl _)
      exact htargets.trans (hdefer.trans hdepth)
    · intro id hid
      change t.changes.targets.any _ = true
      rw [hdeferred]
      exact hids id hid

/-- A write, all that follows from it included, keeps the change set up with the history. -/
theorem gathering_writeKey (ha : ∀ a, gathering.Keeps (applyAssignment functions below a))
    (key : Scalar) (value : Value) : gathering.Keeps (writeKey functions below key value) := by
  refine fun w => keepsAt_of (fun _ w' h hw => ?_) fun _ _ _ => trivial
  rcases writeKey_ok hw h with ⟨-, rfl⟩ | ⟨hs, v, hv, hend, hreaders, -⟩
  · exact gathering.refl w' hw
  · have hnoted := followed_noted key value hs hw
    obtain ⟨log, hlog, hnamed⟩ :=
      ((keeps_forM _ fun a _ => ha a) _).good hv hnoted.gathering
    have hend := hend hlog.gathering
    refine ⟨_, hnoted.trans (hlog.trans hend), fun c hc id hid => ?_⟩
    -- The readers of the key itself are named last, those of what followed on the way.
    rcases List.mem_append.mp hc with hc | hc
    · cases List.mem_singleton.mp hc
      exact hreaders id (List.mem_append_left _ (hlog.readers key hid))
    · exact hnamed.trans hlog hend named_nil c hc id hid

/-- What a transaction keeps to as long as it is under way. -/
def gatherDiscipline (functions : Functions σ) : Discipline functions where
  toConduct := gathering
  lenient := False
  caught h := h.elim
  outside := fun _ {_ _} hopen =>
    ⟨fun hw => absurd (hopen.symm.trans hw.open_) Bool.false_ne_true, trivial⟩
  quiet h hw := ⟨[], followed_of_aside hw h, named_nil⟩
  control := fun _ {_ _ _ control reads} _ _ hw =>
    ⟨[], followed_linkControl control reads hw, named_nil⟩
  assignment _ _ _ hw :=
    ⟨[], followed_of_same hw rfl rfl rfl rfl rfl rfl (Nat.le_refl _), named_nil⟩
  dispose h := h.elim
  event h := h.elim
  gather h := h.elim
  write ha key value := gathering_writeKey ha key value

/-! ## Transactions from outside -/

/-- What opens a transaction: a patch, a value for a control, or a deferral that is due. -/
inductive Opening
  | patch (patch : Value)
  | slot (control : Control) (value : Value)
  | deferral (deferral : Deferral)

namespace Opening

def run (functions : Functions σ) (below : Level σ) (bound : Nat) : Opening → Run (World σ) Unit
  | patch p => exec functions below bound (.setState p) nofun
  | slot control value => exec functions below bound (.setValue control value) nofun
  | deferral d => fire functions below d

/-- The writes that the transaction is made for. -/
def writes (functions : Functions σ) (below : Level σ) : Opening → Run (World σ) Unit
  | patch p => do writePatch functions below (← .ofExcept (Store.patchOf p))
  | slot control value => do writeKey functions below (← .ofExcept control.storage.asKey) value
  | deferral d => applyAssignment functions below d.assignment

def isDelayed : Opening → Bool
  | deferral _ => true
  | _ => false

/-- The world that the transaction starts from. -/
def start (w : World σ) : Opening → World σ
  | deferral d => w.start d
  | _ => w

/-- Can the transaction be opened? A control without a storage refuses every value. -/
def isAllowed : Opening → Bool
  | slot control _ => control.isWritable
  | _ => true

theorem run_eq {o : Opening} (h : o.isAllowed = true) (bound : Nat) (w : World σ) :
    o.run functions below bound w =
      transaction functions below o.isDelayed (o.writes functions below) (o.start w) := by
  cases o with
  | patch p => rfl
  | deferral d => rfl
  | slot control value =>
    have hwritable : control.isWritable = true := h
    change (if control.isWritable then
        transaction functions below false ((slot control value).writes functions below)
      else .ofExcept (do .error (.notWritable (← control.id.written)))) w = _
    rw [if_pos hwritable]
    rfl

theorem run_ok {o : Opening} {bound : Nat} {w w' : World σ}
    (h : o.run functions below bound w = .ok () w') :
    transaction functions below o.isDelayed (o.writes functions below) (o.start w) = .ok () w' := by
  by_cases ho : o.isAllowed = true
  · rwa [run_eq ho] at h
  · cases o with
    | patch p => exact absurd rfl ho
    | deferral d => exact absurd rfl ho
    | slot control value =>
      change (if control.isWritable then
          transaction functions below false ((slot control value).writes functions below)
        else .ofExcept (do .error (.notWritable (← control.id.written)))) w = _ at h
      have hwritable : ¬control.isWritable = true := ho
      rw [if_neg hwritable] at h
      cases hid : control.id.written with
      | ok id => rw [hid] at h; cases h
      | error f => rw [hid] at h; cases h

end Opening

/-- What a transaction has done when its cascades are over, all its changes listed. -/
structure Gathered (w : World σ) (log : List Change) (event? : Option Event) (w₁ : World σ) :
    Prop where
  history : w₁.store.history = w.store.history ++ log
  leads : Leads w.store.state log w₁.store.state
  events : w₁.events = w.events
  context : w₁.context = w.context
  identities : w.nextIdentity ≤ w₁.nextIdentity
  closed : w₁.inTransaction = false
  /-- There is an event if and only if something was changed. -/
  silent : event? = none ↔ log = []
  tells : ∀ event ∈ event?, Tells event log w.store.state w₁.store.state
  /-- The controls that read a changed key are among the targets. -/
  named : ∀ event ∈ event?, ∀ c ∈ log, ∀ id ∈ w.readersOf c.key,
    event.targets.any (·.sameKey id) = true

theorem gathered_of_followed {w v : World σ} {log : List Change} (delayed : Bool)
    (h : Followed { w with changes := {}, inTransaction := true } log v)
    (hn : Named { w with changes := {}, inTransaction := true } log v) :
    Gathered w log (if v.changes.isEmpty then none else some (v.changes.toEvent delayed))
      { v with inTransaction := false } := by
  have hnew : v.changes.new = Dict.ofList (log.map Change.after) := h.new
  have htells : Tells (v.changes.toEvent delayed) log w.store.state v.store.state :=
    tells_of_leads h.leads hnew h.old
  have hempty : v.changes.isEmpty = true ↔ log = [] := by
    unfold ChangeSet.isEmpty
    rw [hnew]
    cases log with
    | nil => exact ⟨fun _ => rfl, fun _ => rfl⟩
    | cons c rest =>
      refine ⟨fun he => ?_, fun he => by cases he⟩
      have hkeys := htells.new_keys
      have hc : (distinct ((c :: rest).map (·.key))).contains c.key = true := by
        rw [contains_distinct]
        simp
      rw [← hkeys] at hc
      change (Dict.keys v.changes.new).contains c.key = true at hc
      rw [hnew, List.isEmpty_iff.mp he] at hc
      cases hc
  refine ⟨h.history, h.leads, h.events, h.context, h.identities, rfl, ?_, ?_, ?_⟩
  · split
    · rename_i he
      exact ⟨fun _ => hempty.mp he, fun _ => rfl⟩
    · rename_i he
      exact ⟨fun hs => (by cases hs), fun hl => absurd (hempty.mpr hl) he⟩
  · intro event he
    split at he
    · cases he
    · cases he
      exact htells
  · intro event he
    split at he
    · cases he
    · cases he
      exact hn

/-- Was each listener told of the event, once and in order? -/
inductive Told (functions : Functions σ) (below : Level σ) (event : Event) :
    List (Listener σ) → World σ → World σ → Prop
  | nil {w : World σ} : Told functions below event [] w w
  | cons {listener rest} {w u w' : World σ} :
    deliver functions below listener event w = .ok () u → Told functions below event rest u w' →
    Told functions below event (listener :: rest) w w'

theorem told_of_ok {event : Event} {listeners : List (Listener σ)} {w w' : World σ}
    (h : (listeners.forM fun l => deliver functions below l event) w = .ok () w') :
    Told functions below event listeners w w' := by
  induction listeners generalizing w with
  | nil =>
    cases h
    exact .nil
  | cons l rest ih =>
    obtain ⟨_, u, hu, hrest⟩ := bind_ok_inv h
    exact .cons hu (ih hrest)

theorem dispatch_ok {event : Event} {w w' : World σ}
    (h : dispatch functions below event w = .ok () w') :
    Told functions below event w.listeners.values { w with events := w.events ++ [event] } w' := by
  unfold dispatch at h
  obtain ⟨_, _, hm, h₁⟩ := bind_ok_inv h
  cases hm
  obtain ⟨_, _, hg, h₂⟩ := bind_ok_inv h₁
  cases hg
  exact told_of_ok h₂

/-- A transaction from outside, once its writes are over. -/
theorem transaction_eq {delayed : Bool} {writes : Run (World σ) Unit} {w : World σ}
    (hw : w.inTransaction = false) :
    transaction functions below delayed writes w =
      match writes { w with changes := {}, inTransaction := true } with
      | .error f v => .error f { v with inTransaction := false }
      | .ok _ v =>
        if v.changes.isEmpty then .ok () { v with inTransaction := false }
        else dispatch functions below (v.changes.toEvent delayed)
          { v with inTransaction := false } := by
  have hget : (get : Run (World σ) (World σ)) w = .ok w w := rfl
  have hgather := gather_eq delayed writes w
  unfold transaction
  rw [bind_ok hget, hw]
  cases hr : writes { w with changes := {}, inTransaction := true } with
  | error f v =>
    rw [hr] at hgather
    exact bind_error hgather
  | ok a v =>
    rw [hr] at hgather
    refine (bind_ok hgather).trans ?_
    dsimp only
    split <;> rfl

/-- One that changes nothing tells no one. -/
theorem transaction_empty {delayed : Bool} {writes : Run (World σ) Unit} {w v : World σ}
    (hw : w.inTransaction = false)
    (h : writes { w with changes := {}, inTransaction := true } = .ok () v)
    (hv : v.changes.isEmpty = true) :
    transaction functions below delayed writes w = .ok () { v with inTransaction := false } := by
  rw [transaction_eq hw, h]
  exact if_pos hv

/-- A transaction within another one is no more than its writes. -/
theorem transaction_within {delayed : Bool} {writes : Run (World σ) Unit} {w : World σ}
    (hw : w.inTransaction = true) : transaction functions below delayed writes w = writes w := by
  have hget : (get : Run (World σ) (World σ)) w = .ok w w := rfl
  unfold transaction
  rw [bind_ok hget, hw]
  rfl

theorem transaction_ok {delayed : Bool} {writes : Run (World σ) Unit} {w w' : World σ}
    (hw : w.inTransaction = false)
    (h : transaction functions below delayed writes w = .ok () w') :
    ∃ event? w₁, gather delayed writes w = .ok event? w₁ ∧
      match event? with
      | none => w' = w₁
      | some event => dispatch functions below event w₁ = .ok () w' := by
  unfold transaction at h
  obtain ⟨_, _, hg, h₁⟩ := bind_ok_inv h
  cases hg
  rw [hw] at h₁
  obtain ⟨event?, w₁, hr, h₂⟩ := bind_ok_inv h₁
  refine ⟨event?, w₁, hr, ?_⟩
  cases event? with
  | none =>
    cases h₂
    rfl
  | some event => exact h₂

/-- A transaction under functions that hide no fault gathers its net effect. -/
theorem gathered_of_gather {n : Nat} {o : Opening} {w w₁ : World σ} {event? : Option Event}
    (hf : ∀ name identity args, Candid (functions name identity args))
    (hw : w.store.listeners = [(.null, [(1, ())])])
    (h : gather o.isDelayed (o.writes functions (level functions n)) (o.start w) =
      .ok event? w₁) : ∃ log, Gathered w log event? w₁ := by
  obtain ⟨v, hv, rfl, rfl⟩ := gather_ok h
  have hb := Discipline.supports_level (d := gatherDiscipline functions)
    (fun name identity args => .inr (hf name identity args)) n
  have hk : gathering.Keeps (o.writes functions (level functions n)) := by
    cases o with
    | patch p => exact keeps_bind (keeps_ofExcept _) fun e => Discipline.keeps_writePatch hb e
    | slot control value =>
      exact keeps_bind (keeps_ofExcept _) fun key => Discipline.keeps_writeKey hb key value
    | deferral d => exact Discipline.keeps_applyAssignment hb d.assignment
  have hstart : (o.start w).store = w.store ∧ (o.start w).readLinks = w.readLinks ∧
      (o.start w).events = w.events ∧ (o.start w).context = w.context ∧
      (o.start w).nextIdentity = w.nextIdentity := by
    cases o <;> exact ⟨rfl, rfl, rfl, rfl, rfl⟩
  obtain ⟨log, hlog, hnamed⟩ := (hk _).good hv ⟨by rw [← hw, ← hstart.1], rfl⟩
  have hg := gathered_of_followed o.isDelayed hlog hnamed
  refine ⟨log, ?_, ?_, ?_, ?_, ?_, hg.closed, hg.silent, ?_, ?_⟩
  · rw [hg.history, hstart.1]
  · rw [← hstart.1]
    exact hg.leads
  · rw [hg.events, hstart.2.2.1]
  · rw [hg.context, hstart.2.2.2.1]
  · rw [← hstart.2.2.2.2]
    exact hg.identities
  · rw [← hstart.1]
    exact hg.tells
  · have hreaders : ∀ key, (o.start w).readersOf key = w.readersOf key := by
      intro key
      unfold readersOf
      rw [hstart.2.1]
    intro event he c hc id hid
    exact hg.named event he c hc id (by rw [hreaders]; exact hid)

/-- A transaction of a manager that is not disposed of, however it is opened and whatever it sets
off, dispatches one event if it changed anything and none if it did not. The event tells the net
effect of all its changes, and each listener that is subscribed when the dispatch begins is told
of it once. -/
theorem an_event_is_the_net_effect_of_its_transaction
    (hf : ∀ name identity args, Candid (functions name identity args)) (n bound : Nat)
    (o : Opening) {w w' : World σ} (hr : Reachable w) (hl : w.isLive = true)
    (hw : w.inTransaction = false)
    (h : o.run functions (level functions n) bound w = .ok () w') :
    ∃ (event? : Option Event) (w₁ : World σ) (log : List Change),
      gather o.isDelayed (o.writes functions (level functions n)) (o.start w) = .ok event? w₁ ∧
      Gathered w log event? w₁ ∧
      match event? with
      | none => w' = w₁
      | some event =>
        Told functions (level functions n) event w₁.listeners.values
          { w₁ with events := w₁.events ++ [event] } w' := by
  have hopen : (o.start w).inTransaction = false := by
    cases o <;> exact hw
  obtain ⟨event?, w₁, hg, hd⟩ := transaction_ok hopen (Opening.run_ok h)
  obtain ⟨log, hlog⟩ := gathered_of_gather hf (hr.listeners hl) hg
  refine ⟨event?, w₁, log, hg, hlog, ?_⟩
  cases event? with
  | none => exact hd
  | some event => exact dispatch_ok hd

/-- A fee of one, which is noted in the state whenever it is asked for. -/
def fees : Functions Unit := fun _ identity _ =>
  .ask (.setState (.map identity [(.text "billed", .bool true)])) nofun fun _ => .done (.int 1)

/-- A manager whose total is the price and the fee. -/
def billing : World Unit :=
  (Setup.world
    { state := [(.text "price", .int 2)]
      context := [(.text "fee", .function (.host "fee"))] } (.ofNat 0) ()).linkAssignment
    { storage := .text "total"
      source := .null
      expression := .binary (.text "+") (.identifier (.text "price"))
        (.call (.identifier (.text "fee")) [])
      condition := none
      timeout := .null } [.text "price"]

/-- The event of a new price tells of the fee too, which was noted while the total was computed. -/
theorem the_event_of_a_new_price :
    ∃ (event : Event) (w₁ w' : World Unit) (log : List Change),
      (Opening.patch (.map 0 [(.text "price", .int 5)])).run fees (level fees 9) 9 billing =
        .ok () w' ∧
      event.new.keys = [.text "price", .text "billed", .text "total"] ∧
      Gathered billing log (some event) w₁ ∧
      Told fees (level fees 9) event w₁.listeners.values
        { w₁ with events := w₁.events ++ [event] } w' := by
  have hf : ∀ name identity args, Candid (fees name identity args) :=
    fun _ _ _ => ⟨rfl, fun _ => rfl, fun _ => trivial⟩
  have hr : Reachable billing := ⟨_, _, _, .single (.assignment _ _)⟩
  have hruns : ((Opening.patch (.map 0 [(.text "price", .int 5)])).run fees (level fees 9)
      9).yields billing (fun _ _ => true) = true := by decide +kernel
  obtain ⟨_, w', hrun, -⟩ := Run.yields_ok hruns
  obtain ⟨event?, w₁, log, hg, hlog, htold⟩ :=
    an_event_is_the_net_effect_of_its_transaction hf 9 9 _ hr rfl rfl hrun
  have hevent : (gather false ((Opening.patch (.map 0 [(.text "price", .int 5)])).writes fees
      (level fees 9))).yields billing (fun e _ => e.any fun e =>
        e.new.keys = [.text "price", .text "billed", .text "total"]) = true := by decide +kernel
  obtain ⟨_, _, hg', hkeys⟩ := Run.yields_ok hevent
  cases hg'.symm.trans hg
  cases event? with
  | none => cases hkeys
  | some event => exact ⟨event, w₁, w', log, hrun, of_decide_eq_true hkeys, hlog, htold⟩

end Manager
end Switchboard
