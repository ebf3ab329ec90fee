-- Transactions that break off. However an activity of a manager ends, the manager is left with the
-- settings, the flag and the depth that it had. A transaction that fails before its event is
-- dispatched leaves the changes that it made, in order, and no other trace: all that the event of
-- a later transaction tells of was changed in that transaction.
import Switchboard.Proofs.NetEffect
namespace Switchboard.Manager

open World Conduct

variable {σ : Type} {functions : Functions σ} {below : Level σ}

/-! ## Balance -/

/-- Are the settings, the flag of a transaction and the depth of what is followed up as before? -/
structure Balanced (w w' : World σ) : Prop where
  config : w'.config = w.config
  inTransaction : w'.inTransaction = w.inTransaction
  depth : w'.depth = w.depth

theorem Balanced.trans {w u w' : World σ} (h : Balanced w u) (h' : Balanced u w') :
    Balanced w w' :=
  ⟨h'.config.trans h.config, h'.inTransaction.trans h.inTransaction, h'.depth.trans h.depth⟩

def balance : Conduct (World σ) := always Balanced (fun _ => ⟨rfl, rfl, rfl⟩) Balanced.trans

theorem balanced_of_aside {w w' : World σ} (h : w.Aside w') : Balanced w w' :=
  ⟨congrArg Core.config h.1, congrArg Core.inTransaction h.1, congrArg Core.depth h.1⟩

/-- One level deeper a change is followed up, and then the depth is what it was. -/
theorem balanced_onChange (ha : ∀ a, balance.Keeps (applyAssignment functions below a))
    (change : Change) : balance.Keeps (onChange functions below change) := by
  intro w
  have hfollow := keeps_followUp (c := balance) (fun _ _ => ⟨rfl, rfl, rfl⟩)
    (fun h => balanced_of_aside h.aside) ha change { w with depth := w.depth + 1 }
  have hback : ∀ v, Balanced { w with depth := w.depth + 1 } v →
      Balanced w { v with depth := v.depth - 1 } := by
    intro v hv
    have hdepth : v.depth = w.depth + 1 := hv.depth
    exact ⟨hv.config, hv.inTransaction, by simp [hdepth]⟩
  unfold KeepsAt at *
  rw [onChange_eq]
  cases hr : followUp functions below change { w with depth := w.depth + 1 } with
  | ok a v =>
    rw [hr] at hfollow
    exact hback v hfollow
  | error f v =>
    rw [hr] at hfollow
    exact hback v hfollow

theorem balanced_writeKey (ha : ∀ a, balance.Keeps (applyAssignment functions below a))
    (key : Scalar) (value : Value) : balance.Keeps (writeKey functions below key value) :=
  keeps_writeKey_of (fun _ _ => ⟨rfl, rfl, rfl⟩) (balanced_onChange ha)

/-- A transaction opens and closes. -/
theorem balanced_gather (delayed : Bool) {writes : Run (World σ) Unit} (h : balance.Keeps writes)
    {w : World σ} (hw : w.inTransaction = false) : balance.KeepsAt (gather delayed writes) w := by
  have hclose : ∀ v, Balanced { w with changes := {}, inTransaction := true } v →
      Balanced w { v with inTransaction := false } :=
    fun v hv => ⟨hv.config, hw.symm, hv.depth⟩
  refine keepsAt_of (fun event? w' hr => ?_) (fun f w' hr => ?_)
  · obtain ⟨v, hv, rfl, -⟩ := gather_ok hr
    exact hclose v ((h _).good hv)
  · obtain ⟨v, hv, rfl⟩ := gather_error hr
    exact hclose v ((h _).bad hv)

/-- Every activity of a manager is balanced. -/
def balanceDiscipline (functions : Functions σ) : Discipline functions where
  toConduct := balance
  lenient := True
  caught := fun _ {_ _} h => h
  outside h := absurd trivial h
  quiet h := balanced_of_aside h
  control := fun _ {_ _ _ _ _} _ _ => ⟨rfl, rfl, rfl⟩
  assignment _ _ _ := ⟨rfl, rfl, rfl⟩
  dispose _ _ := ⟨rfl, rfl, rfl⟩
  event _ _ _ _ := ⟨rfl, rfl, rfl⟩
  gather _ delayed _ h _ hw := balanced_gather delayed h hw
  write ha key value := balanced_writeKey ha key value

theorem balanced_level (functions : Functions σ) (n : Nat) :
    (balanceDiscipline functions).Supports (level functions n) :=
  Discipline.supports_level (fun _ _ _ => .inl trivial) n

/-- A manager that is back at the top level after commands of the host, however each of them
ended. -/
inductive Rested (functions : Functions σ) : World σ → Prop
  | new {bound : Nat} {setup : Setup} {host : σ} {w : World σ} :
    setup.create functions bound host = .ok w → Rested functions w
  | done {n bound : Nat} {c : Command} {callback : c.Input → Act σ} {w w' : World σ}
    {a : c.Answer} : Rested functions w →
    exec functions (level functions n) bound c callback w = .ok a w' → Rested functions w'
  | failed {n bound : Nat} {c : Command} {callback : c.Input → Act σ} {w w' : World σ}
    {f : Fault} : Rested functions w →
    exec functions (level functions n) bound c callback w = .error f w' → Rested functions w'
  /-- The host may do something of its own in between. -/
  | host {w : World σ} (host : σ) : Rested functions w → Rested functions { w with host := host }

/-- At the top level no transaction is open and nothing is being followed up. -/
theorem Rested.idle {w : World σ} (h : Rested functions w) :
    w.inTransaction = false ∧ w.depth = 0 := by
  have hexec : ∀ (n bound : Nat) (c : Command) (callback : c.Input → Act σ),
      balance.Keeps (exec functions (level functions n) bound c callback) :=
    fun n bound c callback =>
      Discipline.keeps_exec (balanced_level functions n) bound c (.inl trivial) callback
  induction h with
  | @new bound setup host w hcreate =>
    obtain ⟨generator, hw⟩ := create_ok hcreate
    have hb := (keeps_assignInitial (balanced_level functions bound) setup _).good hw
    exact ⟨hb.inTransaction, hb.depth⟩
  | done _ hr ih =>
    have hb := (hexec _ _ _ _ _).good hr
    exact ⟨hb.inTransaction.trans ih.1, hb.depth.trans ih.2⟩
  | failed _ hr ih =>
    have hb := (hexec _ _ _ _ _).bad hr
    exact ⟨hb.inTransaction.trans ih.1, hb.depth.trans ih.2⟩
  | host _ _ ih => exact ih

/-! ## Accounts of a transaction -/

/-- Was a control with this id named for a change of a key, some time between two worlds? Which
assignments listen is known before they are applied, and who reads their storages afterwards. -/
def NamedFor (start : World σ) (key : Scalar) (id : Value) (w : World σ) : Prop :=
  ∃ u v, Steps start u ∧ Steps u v ∧ Steps v w ∧ id ∈ v.affected key (u.listeningTo key)

/-- Does all that is told stem from these changes, made between two worlds? -/
structure Stems (start : World σ) (log : List Change) (w : World σ) (changes : ChangeSet) :
    Prop where
  new : ∀ e ∈ changes.new, ∃ c ∈ log, (c.key == e.1) = true ∧ c.new = e.2
  old : ∀ e ∈ changes.old, ∃ c ∈ log, (c.key == e.1) = true ∧ c.old = e.2
  targets : ∀ id ∈ changes.targets, ∃ c ∈ log, NamedFor start c.key id w

theorem Stems.later {start w w' : World σ} {log more : List Change} {changes : ChangeSet}
    (h : Stems start log w changes) (hs : Steps w w') :
    Stems start (log ++ more) w' changes where
  new e he := by
    obtain ⟨c, hc, hce⟩ := h.new e he
    exact ⟨c, List.mem_append_left more hc, hce⟩
  old e he := by
    obtain ⟨c, hc, hce⟩ := h.old e he
    exact ⟨c, List.mem_append_left more hc, hce⟩
  targets id hid := by
    obtain ⟨c, hc, u, v, hu, hv, hw, hnamed⟩ := h.targets id hid
    exact ⟨c, List.mem_append_left more hc, u, v, hu, hv, hw.trans hs, hnamed⟩

theorem Stems.record {start w : World σ} {log : List Change} {changes : ChangeSet}
    {change : Change} (h : Stems start log w changes) (hc : change ∈ log) :
    Stems start log w (changes.record change) where
  new e he := by
    rcases Dict.mem_put he with he | he
    · exact h.new e he
    · exact ⟨change, hc, he⟩
  old e he := by
    rcases Dict.mem_putNew he with he | he
    · exact h.old e he
    · exact ⟨change, hc, he⟩
  targets := h.targets

/-- A transaction that began at one world and has come to another by these changes. It may be that
the manager was disposed of on the way. -/
structure Accounts (start : World σ) (log : List Change) (w : World σ) : Prop where
  steps : Steps start w
  open_ : w.inTransaction = true
  listeners : w.store.listeners = [] ∨ w.store.listeners = [(.null, [(1, ())])]
  events : w.events = start.events
  history : w.store.history = start.store.history ++ log
  leads : Leads start.store.state log w.store.state
  stems : Stems start log w w.changes
  once : NamedOnce w.changes.targets

theorem Accounts.log_eq {start w : World σ} {log log' : List Change} (h : Accounts start log w)
    (h' : Accounts start log' w) : log = log' :=
  List.append_cancel_left (h.history.symm.trans h'.history)

/-- Where the state stays, the accounts do, if nothing is told that does not stem from them. -/
theorem Accounts.move {start w w' : World σ} {log : List Change} (h : Accounts start log w)
    (hs : Step w w') (hopen : w'.inTransaction = w.inTransaction)
    (hlisteners : w'.store.listeners = [] ∨ w'.store.listeners = w.store.listeners)
    (hevents : w'.events = w.events) (hhistory : w'.store.history = w.store.history)
    (hstate : w'.store.state = w.store.state) (hstems : Stems start log w w'.changes)
    (honce : NamedOnce w'.changes.targets) : Accounts start log w' where
  steps := h.steps.tail hs
  open_ := hopen.trans h.open_
  listeners := by
    rcases hlisteners with hl | hl
    · exact .inl hl
    · rw [hl]
      exact h.listeners
  events := hevents.trans h.events
  history := hhistory.trans h.history
  leads := by
    rw [hstate]
    exact h.leads
  stems := by
    have hlater : Stems start (log ++ []) w' w'.changes := hstems.later (.single hs)
    rwa [List.append_nil] at hlater
  once := honce

/-- Keeping accounts of a transaction that began at this world, in success and in fault. -/
def accounting (start : World σ) : Conduct (World σ) :=
  always (fun w w' => ∀ log, Accounts start log w →
      (∃ more, Accounts start (log ++ more) w') ∧ Steps w w')
    (fun _ log h => ⟨⟨[], by rwa [List.append_nil]⟩, .refl⟩)
    (by
      intro a b c h h' log hlog
      obtain ⟨⟨more, hmore⟩, hs⟩ := h log hlog
      obtain ⟨⟨rest, hrest⟩, hs'⟩ := h' _ hmore
      exact ⟨⟨more ++ rest, by rwa [← List.append_assoc]⟩, hs.trans hs'⟩)

section

variable {start : World σ}

/-- There is only something to show where there are accounts. -/
theorem keepsAt_accounting {α : Type} {act : Run (World σ) α} {w : World σ}
    (h : ∀ log, Accounts start log w → (accounting start).KeepsAt act w) :
    (accounting start).KeepsAt act w :=
  keepsAt_of (fun _ _ hr log hlog => (h log hlog).good hr log hlog)
    (fun _ _ hr log hlog => (h log hlog).bad hr log hlog)

theorem accounting_move {w w' : World σ} (hs : Step w w')
    (hopen : w'.inTransaction = w.inTransaction)
    (hlisteners : w'.store.listeners = [] ∨ w'.store.listeners = w.store.listeners)
    (hevents : w'.events = w.events) (hhistory : w'.store.history = w.store.history)
    (hstate : w'.store.state = w.store.state) (hchanges : w'.changes = w.changes) :
    (accounting start).good w w' := by
  intro log hlog
  refine ⟨⟨[], ?_⟩, .single hs⟩
  rw [List.append_nil]
  refine hlog.move hs hopen hlisteners hevents hhistory hstate ?_ ?_
  · rw [hchanges]
    exact hlog.stems
  · rw [hchanges]
    exact hlog.once

theorem accounting_aside {w w' : World σ} (h : w.Aside w') : (accounting start).good w w' := by
  have hstore : w'.store = w.store := congrArg Core.store h.1
  exact accounting_move (.aside h) (congrArg Core.inTransaction h.1) (.inr (by rw [hstore]))
    (congrArg Core.events h.1) (by rw [hstore]) (by rw [hstore]) (congrArg Core.changes h.1)

theorem accounting_depth (w : World σ) (depth : Nat) :
    (accounting start).good w { w with depth := depth } :=
  accounting_move (.account w.changes w.inTransaction depth) rfl (.inr rfl) rfl rfl rfl rfl

theorem accounting_changes (w : World σ) (changes : ChangeSet)
    (h : ∀ log, Accounts start log w → Stems start log w changes ∧ NamedOnce changes.targets) :
    (accounting start).good w { w with changes := changes } := by
  intro log hlog
  have hstep : Step w { w with changes := changes } := .account changes w.inTransaction w.depth
  refine ⟨⟨[], ?_⟩, .single hstep⟩
  rw [List.append_nil]
  exact hlog.move hstep rfl (.inr rfl) rfl rfl rfl (h log hlog).1 (h log hlog).2

/-- Naming the controls that a change concerns is accounted for by the change. -/
theorem accounting_addTargets {u w : World σ} {log : List Change} {change : Change}
    (hu : Steps start u) (hw : Steps u w) (hlog : Accounts start log w) (hc : change ∈ log) :
    (accounting start).KeepsAt
      (addTargets (w.affected change.key (u.listeningTo change.key))) w := by
  obtain ⟨targets, htargets, honce, hfrom⟩ :=
    changeSet_addTargets_from w.changes (w.affected change.key (u.listeningTo change.key))
  refine keepsAt_get (keepsAt_bind ?_ fun _ _ _ => keeps_ofExcept _ _)
  refine accounting_changes w _ fun log' hlog' => ?_
  rw [htargets]
  refine ⟨⟨hlog'.stems.new, hlog'.stems.old, fun id hid => ?_⟩, honce hlog'.once⟩
  rcases hfrom id hid with hid | hid
  · exact hlog'.stems.targets id hid
  · rw [hlog'.log_eq hlog]
    exact ⟨change, hc, u, w, hu, hw, .refl, hid⟩

theorem accounting_followUp
    (ha : ∀ a, (accounting start).Keeps (applyAssignment functions below a)) {change : Change}
    {log : List Change} {w : World σ} (hlog : Accounts start log w) (hc : change ∈ log) :
    (accounting start).KeepsAt (followUp functions below change) w := by
  refine keepsAt_bind (keeps_checkDepth _ w) fun _ _ hdepth => ?_
  cases checkDepth_ok hdepth
  have hrecord : (accounting start).good w { w with changes := w.changes.record change } := by
    refine accounting_changes w _ fun log' hlog' => ⟨hlog'.stems.record ?_, hlog'.once⟩
    rw [hlog'.log_eq hlog]
    exact hc
  obtain ⟨⟨more, hnoted⟩, hsteps⟩ := hrecord log hlog
  refine keepsAt_bind hrecord fun _ u hu => ?_
  cases hu
  have happlied := keeps_forM
    (({ w with changes := w.changes.record change } : World σ).listeningTo change.key |>.filter
      (!·.isDeferred)) (fun a _ => ha a) { w with changes := w.changes.record change }
  refine keepsAt_get (keepsAt_bind happlied fun _ v hv => ?_)
  obtain ⟨⟨rest, hlast⟩, hlater⟩ := happlied.good hv _ hnoted
  refine keepsAt_get (keepsAt_bind ?_ fun _ x _ => ?_)
  · exact accounting_addTargets hnoted.steps hlater hlast
      (List.mem_append_left _ (List.mem_append_left _ hc))
  · exact keeps_forM _ (fun a _ => keeps_defer (fun h => accounting_aside h.aside) a) x

theorem accounting_onChange
    (ha : ∀ a, (accounting start).Keeps (applyAssignment functions below a)) {change : Change}
    {log : List Change} {w : World σ} (hlog : Accounts start log w) (hc : change ∈ log) :
    (accounting start).KeepsAt (onChange functions below change) w := by
  refine keepsAt_bind (accounting_depth w (w.depth + 1)) fun _ u hu => ?_
  cases hu
  obtain ⟨⟨more, hdeeper⟩, -⟩ := accounting_depth w (w.depth + 1) log hlog
  refine keepsAt_ensuring ?_ fun v => accounting_depth v (v.depth - 1)
  exact accounting_followUp ha hdeeper (List.mem_append_left _ hc)

/-- A value that is stored is the next change of the transaction. -/
theorem Accounts.stored {log : List Change} {w : World σ} (h : Accounts start log w)
    {key : Scalar} {value : Value} (hs : (w.store.read key).strictEquals value = false) :
    Accounts start (log ++ [⟨key, w.store.read key, value⟩]) (w.stored key value) ∧
      Step w (w.stored key value) := by
  have hstep : Step w (w.stored key value) := .write (World.assign_stored hs)
  refine ⟨⟨h.steps.tail hstep, h.open_, h.listeners, h.events, ?_, ?_, ?_, h.once⟩, hstep⟩
  · change w.store.history ++ _ = _
    rw [h.history, List.append_assoc]
  · exact h.leads.append ⟨rfl, hs, rfl⟩
  · exact h.stems.later (.single hstep)

theorem accounting_writeKey
    (ha : ∀ a, (accounting start).Keeps (applyAssignment functions below a)) (key : Scalar)
    (value : Value) : (accounting start).Keeps (writeKey functions below key value) := by
  refine fun w => keepsAt_accounting fun log hlog => ?_
  cases hs : (w.store.read key).strictEquals value with
  | true =>
    refine keepsAt_after (pure ()) ?_ ((accounting start).refl w) (keeps_pure () w)
    rw [writeKey_eq_forM, hs]
    rfl
  | false =>
    obtain ⟨hstored, hstep⟩ := hlog.stored hs
    have hgood : (accounting start).good w (w.stored key value) := by
      intro log' hlog'
      rw [hlog'.log_eq hlog]
      exact ⟨⟨_, hstored⟩, .single hstep⟩
    rcases hlog.listeners with hl | hl
    · refine keepsAt_after (pure ()) ?_ hgood (keeps_pure () _)
      rw [writeKey_unheard hl, hs]
      rfl
    · refine keepsAt_after (onChange functions below ⟨key, w.store.read key, value⟩) ?_ hgood
        (accounting_onChange ha hstored (List.mem_append_right _ (List.mem_singleton.mpr rfl)))
      rw [writeKey_eq hl, hs]
      rfl

end

/-- As long as a transaction is open, every activity keeps its accounts, whatever faults are caught
on the way. -/
def accountDiscipline (functions : Functions σ) (start : World σ) : Discipline functions where
  toConduct := accounting start
  lenient := True
  caught := fun _ {_ _} h => h
  outside h := absurd trivial h
  quiet h := accounting_aside h
  control := fun _ {_ _ _ _ _} hm hr =>
    accounting_move (.control hm hr) rfl (.inr rfl) rfl rfl rfl rfl
  assignment _ a names :=
    accounting_move (.assignment a names) rfl (.inr rfl) rfl rfl rfl rfl
  dispose _ _ := accounting_move .dispose rfl (.inl rfl) rfl rfl rfl rfl
  event _ _ _ hw := fun _ hlog => absurd (hw.symm.trans hlog.open_) Bool.false_ne_true
  gather _ _ _ _ _ hw :=
    keepsAt_accounting fun _ hlog => absurd (hw.symm.trans hlog.open_) Bool.false_ne_true
  write ha key value := accounting_writeKey ha key value

theorem accounting_level (functions : Functions σ) (start : World σ) (n : Nat) :
    (accountDiscipline functions start).Supports (level functions n) :=
  Discipline.supports_level (fun _ _ _ => .inl trivial) n

/-! ## Transactions -/

/-- The writes of a transaction keep to a conduct that single writes and assignments keep to. -/
theorem keeps_writes {c : Conduct (World σ)}
    (hw : ∀ key value, c.Keeps (writeKey functions below key value))
    (ha : ∀ a, c.Keeps (applyAssignment functions below a)) (o : Opening) :
    c.Keeps (o.writes functions below) := by
  cases o with
  | patch p =>
    exact keeps_bind (keeps_ofExcept _) fun entries => keeps_forM entries fun e _ => hw e.1 e.2
  | slot control value => exact keeps_bind (keeps_ofExcept _) fun key => hw key value
  | deferral d => exact ha d.assignment

theorem Discipline.keeps_writes {d : Discipline functions} (hb : d.Supports below) (o : Opening) :
    d.Keeps (o.writes functions below) :=
  Manager.keeps_writes (keeps_writeKey hb) (keeps_applyAssignment hb) o

/-- The world that the writes of a transaction start from. -/
def Opening.begun (o : Opening) (w : World σ) : World σ :=
  { o.start w with changes := {}, inTransaction := true }

theorem Opening.begun_steps (o : Opening) (w : World σ) : Steps w (o.begun w) := by
  have hstart : Steps w (o.start w) := by
    cases o with
    | patch p => exact .refl
    | slot control value => exact .refl
    | deferral d => exact .single (.aside ⟨rfl, Nat.le_refl _⟩)
  exact hstart.tail (.account {} true (o.start w).depth)

theorem Opening.begun_store (o : Opening) (w : World σ) : (o.begun w).store = w.store := by
  cases o <;> rfl

theorem Opening.begun_events (o : Opening) (w : World σ) : (o.begun w).events = w.events := by
  cases o <;> rfl

theorem Opening.start_inTransaction (o : Opening) (w : World σ) :
    (o.start w).inTransaction = w.inTransaction := by
  cases o <;> rfl

theorem Opening.start_depth (o : Opening) (w : World σ) : (o.start w).depth = w.depth := by
  cases o <;> rfl

/-- What opening a transaction comes to, once its writes are over. -/
theorem Opening.run_begun {o : Opening} (ho : o.isAllowed = true) (bound : Nat) {w : World σ}
    (hw : w.inTransaction = false) :
    o.run functions below bound w =
      match o.writes functions below (o.begun w) with
      | .error f v => .error f { v with inTransaction := false }
      | .ok _ v =>
        if v.changes.isEmpty then .ok () { v with inTransaction := false }
        else dispatch functions below (v.changes.toEvent o.isDelayed)
          { v with inTransaction := false } := by
  rw [run_eq ho, transaction_eq ((o.start_inTransaction w).trans hw)]
  rfl

theorem transaction_error {delayed : Bool} {writes : Run (World σ) Unit} {w w₁ : World σ}
    {f : Fault} (hw : w.inTransaction = false)
    (h : gather delayed writes w = .error f w₁) :
    transaction functions below delayed writes w = .error f w₁ := by
  have hget : (get : Run (World σ) (World σ)) w = .ok w w := rfl
  unfold transaction
  rw [bind_ok hget, hw]
  exact bind_error h

/-- A transaction starts without an entry in its accounts. -/
theorem accounts_begun (o : Opening) {w : World σ} (hw : Reachable w) :
    Accounts (o.begun w) [] (o.begun w) where
  steps := .refl
  open_ := rfl
  listeners := (hw.steps (o.begun_steps w)).sound.listeners
  events := rfl
  history := (List.append_nil _).symm
  leads := rfl
  stems := by constructor <;> exact fun _ h => by cases h
  once := .nil

theorem accounts_writes (n : Nat) (o : Opening) {w v : World σ} (hw : Reachable w)
    (h : (∃ a, o.writes functions (level functions n) (o.begun w) = .ok a v) ∨
      ∃ f, o.writes functions (level functions n) (o.begun w) = .error f v) :
    ∃ log, Accounts (o.begun w) log v := by
  have hkeeps := Discipline.keeps_writes (accounting_level functions (o.begun w) n) o (o.begun w)
  rcases h with ⟨a, ha⟩ | ⟨f, hf⟩
  · exact (hkeeps.good ha [] (accounts_begun o hw)).1
  · exact (hkeeps.bad hf [] (accounts_begun o hw)).1

/-- What is left by a transaction that broke off: the changes that it made, one after the other, and
no event. -/
structure BrokenOff (w : World σ) (log : List Change) (w₁ : World σ) : Prop where
  history : w₁.store.history = w.store.history ++ log
  leads : Leads w.store.state log w₁.store.state
  events : w₁.events = w.events
  closed : w₁.inTransaction = false
  depth : w₁.depth = w.depth

theorem brokenOff_of_gather {n : Nat} {o : Opening} {w w₁ : World σ} {f : Fault}
    (hr : Reachable w) (hw : w.inTransaction = false)
    (h : gather o.isDelayed (o.writes functions (level functions n)) (o.start w) =
      .error f w₁) : ∃ log, BrokenOff w log w₁ := by
  have hopen : (o.start w).inTransaction = false := (o.start_inTransaction w).trans hw
  have hbalance := (balanced_gather o.isDelayed
    (Discipline.keeps_writes (balanced_level functions n) o) hopen).bad h
  obtain ⟨v, hv, rfl⟩ := gather_error h
  obtain ⟨log, hlog⟩ := accounts_writes n o hr (.inr ⟨f, hv⟩)
  refine ⟨log, ?_, ?_, hlog.events.trans (o.begun_events w), rfl, ?_⟩
  · exact hlog.history.trans (by rw [o.begun_store])
  · rw [← o.begun_store w]
    exact hlog.leads
  · exact hbalance.depth.trans (o.start_depth w)

/-- All that an event tells of was changed in its own transaction, and no control is named twice. -/
theorem stems_of_gather {n : Nat} {o : Opening} {w w₁ : World σ} {event : Event}
    (hr : Reachable w)
    (h : gather o.isDelayed (o.writes functions (level functions n)) (o.start w) =
      .ok (some event) w₁) :
    ∃ log, w₁.store.history = w.store.history ++ log ∧
      Stems w log w₁ ⟨event.targets, event.new, event.old⟩ ∧ NamedOnce event.targets := by
  obtain ⟨v, hv, rfl, hevent⟩ := gather_ok h
  obtain ⟨log, hlog⟩ := accounts_writes n o hr (.inl ⟨(), hv⟩)
  have hclose : Steps v { v with inTransaction := false } :=
    .single (.account v.changes false v.depth)
  refine ⟨log, hlog.history.trans (by rw [o.begun_store]), ?_⟩
  split at hevent
  · cases hevent
  · cases hevent
    refine ⟨⟨hlog.stems.new, hlog.stems.old, fun id hid => ?_⟩, hlog.once⟩
    obtain ⟨c, hc, u, x, hu, hx, hlast, hnamed⟩ := hlog.stems.targets id hid
    exact ⟨c, hc, u, x, (o.begun_steps w).trans hu, hx, hlast.trans hclose, hnamed⟩

theorem forM_error {α : Type} {items : List α} {act : α → Run (World σ) Unit} {w w' : World σ}
    {f : Fault} (h : items.forM act w = .error f w') :
    ∃ done a rest u, items = done ++ a :: rest ∧ done.forM act w = .ok () u ∧
      act a u = .error f w' := by
  induction items generalizing w with
  | nil => cases h
  | cons a rest ih =>
    rw [List.forM_eq_forM, List.forM_cons, ← List.forM_eq_forM] at h
    cases ha : act a w with
    | error f' v =>
      rw [bind_error ha] at h
      cases h
      exact ⟨[], a, rest, w, rfl, rfl, ha⟩
    | ok _ v =>
      rw [bind_ok ha] at h
      obtain ⟨done, b, last, u, rfl, hdone, hb⟩ := ih h
      refine ⟨a :: done, b, last, u, rfl, ?_, hb⟩
      rw [List.forM_eq_forM, List.forM_cons, ← List.forM_eq_forM, bind_ok ha]
      exact hdone

/-- Whenever control is back at the top level, however the commands of the host ended, no
transaction is open and nothing is being followed up. A transaction that fails before its event is
dispatched ends there: no listener is told, the state is what the single writes made of it up to
then, and the events of all later transactions tell of their own changes only, and of controls that
were named for these. -/
theorem every_run_returns_to_idle_and_an_aborted_transaction_leaks_nothing
    (functions : Functions σ) :
    (∀ w, Rested functions w → w.inTransaction = false ∧ w.depth = 0) ∧
    ∀ (n bound : Nat) (o : Opening) (w w₁ : World σ) (f : Fault), Reachable w →
      w.inTransaction = false → o.isAllowed = true →
      gather o.isDelayed (o.writes functions (level functions n)) (o.start w) = .error f w₁ →
      o.run functions (level functions n) bound w = .error f w₁ ∧
      (∃ log, BrokenOff w log w₁) ∧
      -- Of a patch, the entries up to the one that failed were written, and the others were not.
      (∀ p entries, o = .patch p → Store.patchOf p = .ok entries →
        ∃ done e rest u v, entries = done ++ e :: rest ∧
          writePatch functions (level functions n) done (o.begun w) = .ok () u ∧
          writeKey functions (level functions n) e.1 e.2 u = .error f v ∧
          w₁ = { v with inTransaction := false }) ∧
      ∀ (m : Nat) (o' : Opening) (w₂ w₃ : World σ) (event : Event), Steps w₁ w₂ →
        gather o'.isDelayed (o'.writes functions (level functions m)) (o'.start w₂) =
          .ok (some event) w₃ →
        ∃ log, w₃.store.history = w₂.store.history ++ log ∧
          Stems w₂ log w₃ ⟨event.targets, event.new, event.old⟩ := by
  refine ⟨fun w hw => hw.idle, ?_⟩
  intro n bound o w w₁ f hr hw ho h
  have hopen : (o.start w).inTransaction = false := (o.start_inTransaction w).trans hw
  obtain ⟨v, hv, hend⟩ := gather_error h
  refine ⟨?_, brokenOff_of_gather hr hw h, ?_, ?_⟩
  · rw [Opening.run_eq ho]
    exact transaction_error hopen h
  · intro p entries hp hentries
    subst hp
    have hpatch : writePatch functions (level functions n) entries ((Opening.patch p).begun w) =
        .error f v := by
      change (Run.ofExcept (Store.patchOf p) >>= writePatch functions (level functions n)) _ = _
        at hv
      rw [hentries] at hv
      exact hv
    obtain ⟨done, e, rest, u, rfl, hdone, he⟩ := forM_error hpatch
    exact ⟨done, e, rest, u, v, rfl, hdone, he, hend⟩
  · intro m o' w₂ w₃ event hlater hg
    have hwrites := Discipline.keeps_writes (steps_level functions n) o
    have hbroken : Steps w w₁ := by
      subst hend
      exact (o.begun_steps w).trans (((hwrites _).bad hv).tail (.account v.changes false v.depth))
    obtain ⟨log, hhistory, hstems, -⟩ := stems_of_gather ((hr.steps hbroken).steps hlater) hg
    exact ⟨log, hhistory, hstems⟩

/-- Does a computation end in a fault and a world of this kind? -/
def fails {α : Type} (act : Run (World σ) α) (w : World σ) (p : Fault → World σ → Bool) : Bool :=
  match act w with
  | .ok _ _ => false
  | .error f w' => p f w'

theorem fails_error {α : Type} {act : Run (World σ) α} {w : World σ} {p : Fault → World σ → Bool}
    (h : fails act w p = true) : ∃ f w', act w = .error f w' ∧ p f w' = true := by
  unfold fails at h
  split at h
  · cases h
  · rename_i f w' hr
    exact ⟨f, w', hr, h⟩

/-- A host without functions. -/
def unaided : Functions Unit := fun _ _ _ => .done .null

/-- The total follows the price, and then a quote is to be made by a function that there is not. -/
def quoting : List Prepared :=
  [⟨⟨.text "total", .null, .text "price", .null, .null⟩, .identifier (.text "price"), none⟩,
    ⟨⟨.text "quote", .null, .text "price", .null, .null⟩,
      .call (.identifier (.text "quoted")) [], none⟩]

/-- The manager that these are registered with. -/
def market : World Unit :=
  (quoting.filterMap fun p => p.registration.toOption.bind (·.2)).foldl
    (fun w a => w.linkAssignment a [.text "price"])
    ((Setup.world { state := [(.text "price", .int 2)] } (.ofNat 0) ()))

theorem market_rested : Rested unaided market := by
  have hnew : Rested unaided (Setup.world { state := [(.text "price", .int 2)] } (.ofNat 0) ()) :=
    @Rested.new Unit unaided 0 { state := [(.text "price", .int 2)] } () _ rfl
  have hregister : ∀ (w w' : World Unit) (p : Prepared) (names : List Scalar), Rested unaided w →
      exec unaided (level unaided 0) 0 (.register p) nofun w = .ok names w' →
      Rested unaided w' := fun _ _ _ _ h hr => .done h hr
  exact hregister _ _ quoting[1] [.text "price"]
    (hregister _ _ quoting[0] [.text "price"] hnew rfl) rfl

/-- A new price cannot be quoted. The total has followed it, no listener is told, and the event of
a later label tells of the label alone. -/
theorem a_price_that_cannot_be_quoted_leaks_nothing :
    market.inTransaction = false ∧ market.depth = 0 ∧
    ∃ (f : Fault) (w₁ w₂ : World Unit) (event : Event) (log later : List Change),
      (Opening.patch (.map 0 [(.text "price", .int 5)])).run unaided (level unaided 9) 9 market =
        .error f w₁ ∧
      BrokenOff market log w₁ ∧ (w₁.store.read (.text "total")).strictEquals (.int 5) = true ∧
      gather false ((Opening.patch (.map 1 [(.text "label", .int 1)])).writes unaided
        (level unaided 9)) w₁ = .ok (some event) w₂ ∧
      event.new.keys = [.text "label"] ∧
      Stems w₁ later w₂ ⟨event.targets, event.new, event.old⟩ := by
  obtain ⟨hidle, habort⟩ :=
    every_run_returns_to_idle_and_an_aborted_transaction_leaks_nothing unaided
  obtain ⟨hclosed, hdepth⟩ := hidle market market_rested
  have hfails : fails (gather false ((Opening.patch (.map 0 [(.text "price", .int 5)])).writes
      unaided (level unaided 9))) market (fun _ w =>
        (w.store.read (.text "total")).strictEquals (.int 5) &&
          (gather false ((Opening.patch (.map 1 [(.text "label", .int 1)])).writes
            unaided (level unaided 9))).yields w (fun event? _ =>
              event?.any fun event => event.new.keys = [.text "label"])) = true := by decide +kernel
  obtain ⟨f, w₁, hbroken, hrest⟩ := fails_error hfails
  obtain ⟨htotal, hlabel⟩ := Bool.and_eq_true_iff.mp hrest
  obtain ⟨event?, w₂, hgather, hkeys⟩ := Run.yields_ok hlabel
  have hreachable : Reachable market :=
    ⟨_, _, _, (Relation.ReflTransGen.single (.assignment _ _)).tail (.assignment _ _)⟩
  obtain ⟨hrun, ⟨log, hlog⟩, -, hlater⟩ :=
    habort 9 9 (.patch (.map 0 [(.text "price", .int 5)])) market w₁ f hreachable hclosed rfl
      hbroken
  cases event? with
  | none => cases hkeys
  | some event =>
    obtain ⟨later, -, hstems⟩ :=
      hlater 9 (.patch (.map 1 [(.text "label", .int 1)])) w₁ w₂ event .refl hgather
    exact ⟨hclosed, hdepth, f, w₁, w₂, event, log, later, hrun, hlog, htotal, hgather,
      of_decide_eq_true hkeys, hstems⟩

end Switchboard.Manager
