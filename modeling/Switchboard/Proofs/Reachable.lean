-- The worlds a manager can come to. Whatever is asked of a manager, its world moves by single
-- changes, and a world is reachable if such changes lead to it from a new manager. So the worlds in
-- the middle of an activity are reachable too, and what each change preserves holds in all of them.
import Mathlib.Logic.Relation
import Switchboard.Manager.Create
import Switchboard.Proofs.Cascade
import Switchboard.Proofs.Tables
namespace Switchboard.Manager

open World Conduct

variable {σ : Type}

/-! ## Single changes -/

inductive Step : World σ → World σ → Prop
  /-- A change of what serves the host, the clock or the signals. -/
  | aside {w w' : World σ} : w.Aside w' → Step w w'
  | control {w : World σ} {serial id runtime control reads} :
    Control.make serial id runtime = .ok control → control.reads = .ok reads →
    Step w (w.linkControl control reads)
  | assignment {w : World σ} (a : Assignment) (names : List Scalar) :
    Step w (w.linkAssignment a names)
  | write {w : World σ} {key value store change hearers} :
    w.store.assign key value = some (store, change, hearers) → Step w { w with store := store }
  /-- What is known of the transaction that is running. -/
  | account {w : World σ} (changes : ChangeSet) (inTransaction : Bool) (depth : Nat) :
    Step w { w with changes := changes, inTransaction := inTransaction, depth := depth }
  | event {w : World σ} (event : Event) : Step w { w with events := w.events ++ [event] }
  | dispose {w : World σ} : Step w w.dispose

/-- Single changes, one after the other. -/
abbrev Steps : World σ → World σ → Prop := Relation.ReflTransGen Step

/-- A world that changes lead to from a new manager. -/
def Reachable (w : World σ) : Prop :=
  ∃ (setup : Setup) (generator : Generator) (host : σ), Steps (setup.world generator host) w

/-! ## Activities go by single changes -/

/-- Moving by single changes. -/
def stepping : Conduct (World σ) where
  good := Steps
  bad := Steps
  refl _ := .refl
  trans h h' := h.trans h'
  giveUp _ := .refl
  fail h h' := h.trans h'
  leave h h' := h.trans h'

theorem steps_gather (delayed : Bool) {writes : Run (World σ) Unit}
    (h : stepping.Keeps writes) : stepping.Keeps (gather delayed writes) := by
  have hend : ∀ w : World σ, Steps w { w with inTransaction := false } :=
    fun w => .single (.account w.changes false w.depth)
  refine keeps_bind (fun w => .single (.account {} true w.depth)) fun _ => ?_
  refine keeps_bind (fun w => keepsAt_ensuring (h w) hend) fun _ => ?_
  exact keeps_get fun _ => keeps_pure _

/-- Following up a change goes by single changes if applying assignments does. -/
theorem steps_followUp {functions : Functions σ} {below : Level σ}
    (ha : ∀ a, stepping.Keeps (applyAssignment functions below a)) (change : Change) :
    stepping.Keeps (followUp functions below change) := by
  refine keeps_followUp (fun w changes => ?_) (fun h => ?_) ha change
  · exact Relation.ReflTransGen.single (.account changes w.inTransaction w.depth)
  · exact Relation.ReflTransGen.single (.aside h.aside)

theorem steps_writeKey {functions : Functions σ} {below : Level σ}
    (ha : ∀ a, stepping.Keeps (applyAssignment functions below a)) (key : Scalar) (value : Value) :
    stepping.Keeps (writeKey functions below key value) := by
  have hdepth : ∀ (w : World σ) depth, Steps w { w with depth := depth } :=
    fun w depth => .single (.account w.changes w.inTransaction depth)
  refine keeps_writeKey_of (fun w hs => .single (.write (World.assign_stored hs))) fun change => ?_
  refine keeps_bind (fun w => hdepth w _) fun _ w => ?_
  exact keepsAt_ensuring (steps_followUp ha change w) fun v => hdepth v _

/-- Every activity moves the world by single changes. -/
def stepDiscipline (functions : Functions σ) : Discipline functions where
  toConduct := stepping
  lenient := True
  caught := fun _ {_ _} h => h
  outside h := absurd trivial h
  quiet h := .single (.aside h)
  control := fun _ {_ _ _ _ _} hm hr => .single (.control hm hr)
  assignment _ a names := .single (.assignment a names)
  dispose _ _ := .single .dispose
  event _ _ e _ := .single (.event e)
  gather _ delayed _ h w _ := steps_gather delayed h w
  write ha key value := steps_writeKey ha key value

theorem steps_level (functions : Functions σ) (n : Nat) :
    (stepDiscipline functions).Supports (level functions n) :=
  Discipline.supports_level (fun _ _ _ => .inl trivial) n

/-- Whatever a command does, and however it ends, it goes by single changes. -/
theorem a_command_goes_by_single_changes (functions : Functions σ) (n bound : Nat)
    (command : Command) (callback : command.Input → Act σ) :
    stepping.Keeps (exec functions (level functions n) bound command callback) :=
  Discipline.keeps_exec (steps_level functions n) bound command (.inl trivial) callback

/-- So does a program of the host. -/
theorem a_program_goes_by_single_changes (functions : Functions σ) (bound : Nat)
    (program : Act σ) : stepping.Keeps (run functions bound program) :=
  (steps_level functions bound).act program (.inl trivial)

/-- A manager is made if its generator can be seeded and its initial assignments succeed. -/
theorem create_ok {functions : Functions σ} {bound : Nat} {setup : Setup} {host : σ} {w : World σ}
    (h : setup.create functions bound host = .ok w) :
    ∃ generator, setup.assignInitial functions (level functions bound)
      (setup.world generator host) = .ok () w := by
  unfold Setup.create at h
  dsimp only [bind, Except.bind] at h
  split at h
  · cases h
  · rename_i generator _
    split at h
    · rename_i u hu
      cases h
      exact ⟨generator, hu⟩
    · cases h

/-- The initial assignments obey a law if evaluations and writes do, and looks at the manager. -/
theorem Serves.assignInitial {ι : Type} {L : Law ι (World σ)} {functions : Functions σ}
    {below : ι → Level σ} (h : Serves L functions below)
    (hsees : ∀ {α : Type} {next : ι → World σ → Run (World σ) α},
      (∀ w, L.holds fun i => next i w) → L.holds fun i => get >>= next i)
    (hw : ∀ key value, L.holds fun i => writeKey functions (below i) key value) (setup : Setup) :
    L.holds fun i => (setup.assignInitial functions (below i) : Run (World σ) Unit) := by
  refine L.bind (L.mapM _ fun e => ?_) fun patch => L.forM _ fun e _ => hw e.1 e.2
  refine L.bind (L.ofExcept (Expr.ordinary_ofValue e.2)) fun expression => ?_
  refine L.bind h.fresh fun _ => hsees fun w => ?_
  exact L.bind (h.evaluate _ expression) fun _ => L.answer _

/-- The initial assignments keep to every discipline. -/
theorem keeps_assignInitial {functions : Functions σ} {below : Level σ}
    {d : Discipline functions} (hb : d.Supports below) (setup : Setup) :
    d.Keeps (setup.assignInitial functions below : Run (World σ) Unit) :=
  (Discipline.serves hb).assignInitial keeps_get (Discipline.keeps_writeKey hb) setup

/-- A new manager is reachable, its initial assignments made. -/
theorem a_new_manager_is_reachable {functions : Functions σ} {bound : Nat} {setup : Setup}
    {host : σ} {w : World σ} (h : setup.create functions bound host = .ok w) : Reachable w := by
  obtain ⟨generator, hw⟩ := create_ok h
  exact ⟨setup, generator, host,
    (keeps_assignInitial (steps_level functions bound) setup _).good hw⟩

/-- Reachability is kept, by success and by fault. -/
theorem Reachable.steps {w w' : World σ} (h : Reachable w) (hs : Steps w w') : Reachable w' := by
  obtain ⟨setup, generator, host, h⟩ := h
  exact ⟨setup, generator, host, h.trans hs⟩

/-! ## What is so in every reachable world -/

/-- Has a manager not been disposed of? Then it listens to its state. -/
def World.isLive (w : World σ) : Bool := !w.store.listeners.isEmpty

/-- A control that was made of readable slots and is found under every variable it reads. -/
structure Indexed (w : World σ) (control : Control) : Prop where
  made : ∃ serial id runtime, Control.make serial id runtime = .ok control
  linked : ∃ reads, control.reads = .ok reads ∧
    ∀ v ∈ reads, control ∈ (w.readLinks.get? v).getD []

/-- What every single change preserves. -/
structure Sound (w : World σ) : Prop where
  /-- The manager hears of every change of its state, or it was disposed of and hears of none. -/
  listeners : w.store.listeners = [] ∨ w.store.listeners = [(.null, [(1, ())])]
  indexed : ∀ control ∈ w.controls, Indexed w control

theorem sound_world (setup : Setup) (generator : Generator) (host : σ) :
    Sound (setup.world generator host) where
  listeners := .inr rfl
  indexed _ h := by cases h

/-- The table of readers after a control was linked: it has the new control under the variables it
reads, and all that it had before. -/
theorem mem_linked (control : Control) (reads : List Scalar) (links : Dict Scalar (List Control))
    (c : Control) (v : Scalar)
    (h : c ∈ (links.get? v).getD [] ∨ (c = control ∧ v ∈ reads)) :
    c ∈ ((reads.foldl
      (fun links v => Dict.put links v (((links.get? v).getD []) ++ [control])) links).get? v).getD
        [] := by
  induction reads generalizing links with
  | nil =>
    rcases h with h | ⟨-, h⟩
    · exact h
    · cases h
  | cons u rest ih =>
    refine ih _ ?_
    rw [Dict.get?_put]
    rcases h with h | ⟨rfl, h⟩
    · left
      split
      · rename_i hu
        rw [Option.getD_some, Dict.get?_congr links hu]
        exact List.mem_append_left _ h
      · exact h
    · rcases List.mem_cons.mp h with rfl | h
      · left
        simp
      · exact .inr ⟨rfl, h⟩

theorem Indexed.linkControl {w : World σ} {c : Control} (h : Indexed w c) (control : Control)
    (reads : List Scalar) : Indexed (w.linkControl control reads) c := by
  obtain ⟨names, hn, hl⟩ := h.linked
  exact ⟨h.made, names, hn, fun v hv => mem_linked control reads _ c v (.inl (hl v hv))⟩

/-- Only the listeners of the state, the controls and the table of readers matter. -/
theorem Sound.congr {w w' : World σ} (h : Sound w)
    (hl : w'.store.listeners = w.store.listeners) (hc : w'.controls = w.controls)
    (hr : w'.readLinks = w.readLinks) : Sound w' := by
  refine ⟨by rw [hl]; exact h.listeners, fun c hm => ?_⟩
  rw [hc] at hm
  obtain ⟨hmade, names, hn, hv⟩ := h.indexed c hm
  exact ⟨hmade, names, hn, by rw [hr]; exact hv⟩

theorem assign_some {κ : Type} {store store' : Store κ} {key : Scalar} {value : Value}
    {change : Change} {hearers : List κ}
    (h : store.assign key value = some (store', change, hearers)) :
    store'.listeners = store.listeners ∧ hearers = store.hearers key := by
  unfold Store.assign at h
  dsimp only at h
  split at h
  · cases h
  · cases h
    exact ⟨rfl, rfl⟩

theorem Sound.step {w w' : World σ} (h : Sound w) (hs : Step w w') : Sound w' := by
  cases hs with
  | aside ha =>
    have hstore : w'.store = w.store := congrArg Core.store ha.1
    exact h.congr (by rw [hstore]) (congrArg Core.controls ha.1) (congrArg Core.readLinks ha.1)
  | @control serial id runtime control reads hm hr =>
    refine ⟨h.listeners, fun c hc => ?_⟩
    rcases List.mem_append.mp hc with hc | hc
    · exact (h.indexed c hc).linkControl control reads
    · cases List.mem_singleton.mp hc
      have hv : ∀ v ∈ reads, control ∈ ((w.linkControl control reads).readLinks.get? v).getD [] :=
        fun v hv => mem_linked control reads _ control v (.inr ⟨rfl, hv⟩)
      exact ⟨⟨_, _, _, hm⟩, reads, hr, hv⟩
  | assignment a names => exact h.congr rfl rfl rfl
  | write ha => exact h.congr (assign_some ha).1 rfl rfl
  | account changes inTransaction depth => exact h.congr rfl rfl rfl
  | event e => exact h.congr rfl rfl rfl
  | dispose => exact ⟨.inl rfl, fun c hc => by cases hc⟩

theorem Reachable.sound {w : World σ} (h : Reachable w) : Sound w := by
  obtain ⟨setup, generator, host, h⟩ := h
  induction h with
  | refl => exact sound_world setup generator host
  | tail _ hs ih => exact ih.step hs

/-- A manager that was not disposed of listens to all keys of its state. -/
theorem Reachable.listeners {w : World σ} (h : Reachable w) (hl : w.isLive = true) :
    w.store.listeners = [(.null, [(1, ())])] := by
  refine h.sound.listeners.resolve_left fun hn => ?_
  unfold isLive at hl
  rw [hn] at hl
  cases hl

end Switchboard.Manager
