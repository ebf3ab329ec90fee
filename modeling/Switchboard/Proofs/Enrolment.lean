-- Calls that register controls and assignments. What a sequence of calls registers is a function of
-- the calls alone: a call that faults registers nothing, and none looks at the state. The tables in
-- which a change is looked up are then a function of what was registered, whatever failed between.
import Switchboard.Proofs.Targets
namespace Switchboard.Manager

open World Conduct

variable {σ : Type}

/-! ## Calls -/

/-- A control to be added, an assignment that is asked for, or one that is ready-made. -/
inductive Enrolment
  | control (id : Value) (runtime : Dict Scalar Value)
  | draft (draft : Draft)
  | ready (prepared : Prepared)

namespace Enrolment

def command : Enrolment → Command
  | control id runtime => .addControl id runtime
  | draft d => .assign d
  | ready prepared => .register prepared

/-- Nothing is handed to a program that is given with a call. -/
def unheard (call : Enrolment) : call.command.Input → Act σ :=
  match call with
  | control .. | draft _ | ready _ => nofun

/-- The assignment that is registered, unless it listens to nothing. -/
def filing (prepared : Prepared) : Except Fault (Option Registration) := do
  let (names, a?) ← prepared.registration
  return a?.map fun a => .assignment a names

/-- What a call registers, if it does not fault. A control is given the serial number. -/
def registers (serial : Nat) : Enrolment → Except Fault (Option Registration)
  | control id runtime => do
    let c ← Control.make serial id runtime
    return some (.control c (← c.reads))
  | draft d => do filing (← d.prepareGiven)
  | ready prepared => filing prepared

end Enrolment

namespace Registration

def control? : Registration → Option Control
  | control c _ => some c
  | assignment .. => none

/-- The assignment that is registered, if it listens to a key. -/
def writer? (key : Scalar) : Registration → Option Assignment
  | control .. => none
  | assignment a names => if names.contains key then some a else none

/-- The serial number of the next control. -/
def next (serial : Nat) : Registration → Nat
  | control .. => serial + 1
  | assignment .. => serial

end Registration

/-- What calls register, one after the other. -/
def registrations (serial : Nat) : List Enrolment → List Registration
  | [] => []
  | call :: rest =>
    match call.registers serial with
    | .ok (some r) => r :: registrations (r.next serial) rest
    | .ok none | .error _ => registrations serial rest

/-- A manager with one more registration. -/
def World.enrol (w : World σ) : Registration → World σ
  | .control c reads => { w.linkControl c reads with nextControl := w.nextControl + 1 }
  | .assignment a names => w.linkAssignment a names

theorem World.enrol_next (w : World σ) (r : Registration) :
    (w.enrol r).nextControl = r.next w.nextControl := by
  cases r <;> rfl

section

variable (functions : Functions σ) (below : Level σ) (bound : Nat)

/-- A manager after a call, which may have faulted. -/
def World.called (w : World σ) (call : Enrolment) : World σ :=
  Run.ending (exec functions below bound call.command call.unheard w)

end

/-! ## What one call does -/

section

variable {functions : Functions σ} {below : Level σ} {bound : Nat}

theorem register_eq (prepared : Prepared) (w : World σ) :
    (∃ r? names, Enrolment.filing prepared = .ok r? ∧
      register prepared w = .ok names (r?.elim w w.enrol)) ∨
    ∃ f, Enrolment.filing prepared = .error f ∧ register prepared w = .error f w := by
  unfold Enrolment.filing register
  cases hp : prepared.registration with
  | error f => exact .inr ⟨f, rfl, rfl⟩
  | ok filed =>
    obtain ⟨names, a?⟩ := filed
    cases a? with
    | none => exact .inl ⟨none, names, rfl, rfl⟩
    | some a => exact .inl ⟨some (.assignment a names), names, rfl, rfl⟩

/-- A call succeeds with what it registers, or it faults and nothing is another. -/
theorem exec_enrolment (functions : Functions σ) (below : Level σ) (bound : Nat)
    (call : Enrolment) (w : World σ) :
    (∃ r? answer, call.registers w.nextControl = .ok r? ∧
      exec functions below bound call.command call.unheard w =
        .ok answer (r?.elim w w.enrol)) ∨
    ∃ f, call.registers w.nextControl = .error f ∧
      exec functions below bound call.command call.unheard w = .error f w := by
  cases call with
  | ready prepared => exact register_eq prepared w
  | draft d =>
    change (∃ r? answer, (do Enrolment.filing (← d.prepareGiven)) = .ok r? ∧
      (do register (← .ofExcept d.prepareGiven) : Run (World σ) _) w = .ok answer _) ∨
      ∃ f, (do Enrolment.filing (← d.prepareGiven)) = .error f ∧
        (do register (← .ofExcept d.prepareGiven) : Run (World σ) _) w = .error f w
    cases d.prepareGiven with
    | error f => exact .inr ⟨f, rfl, rfl⟩
    | ok prepared => exact register_eq prepared w
  | control id runtime =>
    have hget : (get : Run (World σ) (World σ)) w = .ok w w := rfl
    simp only [Enrolment.command, Enrolment.registers, exec, bind_ok hget]
    cases hm : Control.make w.nextControl id runtime with
    | error f => exact .inr ⟨f, rfl, rfl⟩
    | ok c =>
      have hmade : (Run.ofExcept (.ok c) : Run (World σ) Control) w = .ok c w := rfl
      rw [bind_ok hmade]
      cases hr : c.reads with
      | error f =>
        refine .inr ⟨f, ?_, rfl⟩
        simp only [bind, Except.bind, hr]
      | ok reads =>
        refine .inl ⟨some (.control c reads), c, ?_, rfl⟩
        simp only [bind, Except.bind, hr]
        rfl

theorem called_eq (call : Enrolment) (w : World σ) :
    w.called functions below bound call =
      match call.registers w.nextControl with
      | .ok (some r) => w.enrol r
      | .ok none | .error _ => w := by
  unfold World.called
  rcases exec_enrolment functions below bound call w with ⟨r?, answer, hr, he⟩ | ⟨f, hr, he⟩
  · rw [hr, he]
    cases r? <;> rfl
  · rw [hr, he]
    rfl

end

/-! ## What a control that is registered reads -/

theorem noneTwice_distinct (keys : List Scalar) : NoneTwice (distinct keys) := by
  have h : ∀ seen, NoneTwice seen → NoneTwice (keys.foldl addKey seen) := by
    induction keys with
    | nil => exact fun _ h => h
    | cons key rest ih => exact fun seen h => ih _ (noneTwice_addKey h key)
  exact h [] .nil

/-- A control reads each key once. -/
theorem noneTwice_reads {c : Control} {reads : List Scalar} (h : c.reads = .ok reads) :
    NoneTwice reads := by
  obtain ⟨names, -, hreads⟩ := ok_of_bind_ok h
  cases hreads
  exact noneTwice_distinct _

/-- Does a control read a key? -/
def readsKey (key : Scalar) (c : Control) : Bool :=
  match c.reads with
  | .ok reads => reads.contains key
  | .error _ => false

/-- What is in a list once is found there once. -/
theorem length_filter_beq {keys : List Scalar} (h : NoneTwice keys) (key : Scalar) :
    (keys.filter (· == key)).length = if keys.contains key then 1 else 0 := by
  induction keys with
  | nil => rfl
  | cons k rest ih =>
    obtain ⟨hk, hrest⟩ := List.pairwise_cons.mp h
    rw [List.filter_cons, List.contains_cons, BEq.comm (a := key)]
    cases hkey : k == key with
    | false => simpa using ih hrest
    | true =>
      have hnone : rest.contains key = false := by
        rw [Bool.eq_false_iff]
        intro hin
        obtain ⟨other, hother, hsame⟩ := List.contains_iff_exists_mem_beq.mp hin
        exact absurd (BEq.trans hkey hsame) (by simp [hk other hother])
      have hempty : (rest.filter (· == key)).length = 0 := by
        rw [ih hrest, hnone]
        rfl
      simp [hempty]

namespace Registration

/-- Is a control registered with the keys that it reads? -/
def IsFaithful : Registration → Prop
  | control c reads => c.reads = .ok reads
  | assignment .. => True

/-- A control that is registered so is found once under each key that it reads. -/
theorem readers_eq {r : Registration} (h : r.IsFaithful) (key : Scalar) :
    r.readers key = r.control?.toList.filter (readsKey key) := by
  cases r with
  | assignment a names => rfl
  | control c reads =>
    have hreads : c.reads = .ok reads := h
    have hkey : readsKey key c = reads.contains key := by rw [readsKey, hreads]
    have hfound : (reads.filter (· == key)).length = if reads.contains key then 1 else 0 :=
      length_filter_beq (noneTwice_reads hreads) key
    rw [readers, List.map_const', hfound]
    cases hk : reads.contains key <;> simp [control?, hkey, hk]

/-- So the controls under a key are those registered that read it. -/
theorem flatMap_readers {regs : List Registration} (h : ∀ r ∈ regs, r.IsFaithful) (key : Scalar) :
    regs.flatMap (·.readers key) = (regs.filterMap control?).filter (readsKey key) := by
  induction regs with
  | nil => rfl
  | cons r rest ih =>
    obtain ⟨hr, hrest⟩ := List.forall_mem_cons.mp h
    rw [List.flatMap_cons, readers_eq hr, ih hrest]
    cases r with
    | assignment a names => rfl
    | control c reads => exact (List.filter_append [c] _).symm

end Registration

/-! ## What calls register -/

/-- What is registered is a control that was made under the serial number and is found under what
it reads, or an assignment. -/
theorem registers_inv {serial : Nat} {call : Enrolment} {r : Registration}
    (h : call.registers serial = .ok (some r)) :
    (∃ id runtime c reads, Control.make serial id runtime = .ok c ∧ c.reads = .ok reads ∧
      r = .control c reads) ∨ ∃ a names, r = .assignment a names := by
  have hfiling : ∀ prepared, Enrolment.filing prepared = .ok (some r) →
      ∃ a names, r = .assignment a names := by
    intro prepared hp
    obtain ⟨⟨names, a?⟩, -, hr⟩ := ok_of_bind_ok hp
    cases a? with
    | none => cases hr
    | some a =>
      cases hr
      exact ⟨a, names, rfl⟩
  cases call with
  | ready prepared => exact .inr (hfiling prepared h)
  | draft d =>
    obtain ⟨prepared, -, hp⟩ := ok_of_bind_ok h
    exact .inr (hfiling prepared hp)
  | control id runtime =>
    obtain ⟨c, hm, h⟩ := ok_of_bind_ok h
    obtain ⟨reads, hr, h⟩ := ok_of_bind_ok h
    cases h
    exact .inl ⟨id, runtime, c, reads, hm, hr, rfl⟩

theorem faithful_registrations (serial : Nat) (calls : List Enrolment) :
    ∀ r ∈ registrations serial calls, r.IsFaithful := by
  fun_induction registrations serial calls with
  | case1 => exact fun _ h => by cases h
  | case2 serial call rest r hr ih =>
    refine List.forall_mem_cons.mpr ⟨?_, ih⟩
    obtain ⟨_, _, c, reads, -, hreads, rfl⟩ | ⟨a, names, rfl⟩ := registers_inv hr
    · exact hreads
    · trivial
  | case3 serial call rest hr ih => exact ih
  | case4 serial call rest f hr ih => exact ih

/-- Controls are numbered as they come in. -/
theorem serials_registrations (serial : Nat) (calls : List Enrolment) :
    let controls := (registrations serial calls).filterMap Registration.control?
    (∀ c ∈ controls, serial ≤ c.serial) ∧ controls.Pairwise (·.serial < ·.serial) := by
  fun_induction registrations serial calls with
  | case1 => exact ⟨fun _ h => (by cases h), .nil⟩
  | case2 serial call rest r hr ih =>
    obtain ⟨_, _, c, reads, hm, hreads, rfl⟩ | ⟨a, names, rfl⟩ := registers_inv hr
    · obtain ⟨hle, hsorted⟩ := ih
      obtain ⟨slots, -, hc⟩ := ok_of_bind_ok hm
      have hserial : c.serial = serial := by
        cases hc
        rfl
      refine ⟨List.forall_mem_cons.mpr ⟨Nat.le_of_eq hserial.symm, fun d hd => ?_⟩,
        List.pairwise_cons.mpr ⟨fun d hd => ?_, hsorted⟩⟩
      · exact Nat.le_of_succ_le (hle d hd)
      · rw [hserial]
        exact hle d hd
    · exact ih
  | case3 serial call rest hr ih => exact ih
  | case4 serial call rest f hr ih => exact ih

section

variable {functions : Functions σ} {below : Level σ} {bound : Nat}

theorem Registered.enrol {regs : List Registration} {w : World σ} {call : Enrolment}
    {r : Registration} (h : Registered regs w)
    (hr : call.registers w.nextControl = .ok (some r)) : Registered (regs ++ [r]) (w.enrol r) := by
  obtain ⟨_, _, c, reads, hm, hreads, rfl⟩ | ⟨a, names, rfl⟩ := registers_inv hr
  · exact (h.control hm hreads).other rfl
  · exact h.assignment a names

theorem registered_calls (calls : List Enrolment) {regs : List Registration} {w : World σ}
    (h : Registered regs w) :
    Registered (regs ++ registrations w.nextControl calls)
      (calls.foldl (World.called functions below bound) w) := by
  induction calls generalizing regs w with
  | nil => rwa [registrations, List.append_nil]
  | cons call rest ih =>
    rw [List.foldl_cons, called_eq, registrations]
    split
    · rename_i r hr
      have hrest := ih (h.enrol hr)
      rwa [World.enrol_next, List.append_assoc] at hrest
    · exact ih h
    · exact ih h

theorem controls_calls (functions : Functions σ) (below : Level σ) (bound : Nat)
    (calls : List Enrolment) (w : World σ) :
    (calls.foldl (World.called functions below bound) w).controls =
      w.controls ++ (registrations w.nextControl calls).filterMap Registration.control? := by
  induction calls generalizing w with
  | nil => exact (List.append_nil _).symm
  | cons call rest ih =>
    rw [List.foldl_cons, called_eq, registrations]
    split
    · rename_i r hr
      rw [ih, World.enrol_next]
      cases r with
      | control c reads =>
        change w.controls ++ [c] ++ _ = _
        rw [List.append_assoc]
        rfl
      | assignment a names => rfl
    · exact ih w
    · exact ih w

end

/-! ## The table of assignments -/

/-- Assignments under their storages, where of two with one storage the second counts. -/
def filed (writers : List Assignment) : Dict Scalar Assignment :=
  Dict.ofList (writers.map fun a => (a.storage, a))

theorem keys_filed (writers : List Assignment) :
    (filed writers).keys = distinct (writers.map (·.storage)) := by
  unfold filed Dict.ofList
  rw [Dict.keys_merge, distinct_eq]
  simp [Dict.keys, Function.comp_def]

theorem get?_filed (writers : List Assignment) (storage : Scalar) :
    (filed writers).get? storage = writers.reverse.find? (·.storage == storage) := by
  induction writers using List.reverseRecOn with
  | nil => rfl
  | append_singleton writers a ih =>
    have hput : filed (writers ++ [a]) = (filed writers).put a.storage a := by
      simp [filed, Dict.ofList, Dict.merge]
    rw [hput, Dict.get?_put, ih, List.reverse_append]
    cases hs : a.storage == storage <;> simp [hs]

theorem retained_eq (regs : List Registration) (key : Scalar) :
    regs.foldl (Registration.retain key) [] = filed (regs.filterMap (·.writer? key)) := by
  induction regs using List.reverseRecOn with
  | nil => rfl
  | append_singleton regs r ih =>
    rw [List.foldl_append, ih, List.filterMap_append]
    cases r with
    | control c reads => simp [Registration.retain, Registration.writer?]
    | assignment a names =>
      cases hk : names.contains key <;>
        simp [Registration.retain, Registration.writer?, hk, filed, Dict.ofList, Dict.merge]

/-! ## The tables after calls -/

theorem created_bare {functions : Functions σ} {bound : Nat} {setup : Setup} {host : σ}
    {w : World σ} (hf : ∀ name identity args, Silent (functions name identity args))
    (h : setup.create functions bound host = .ok w) : w.registry = ([], [], []) := by
  have hallows : Allows (unregistering : Conduct (World σ)) := allows_unregistering
  have hact : ∀ n name identity args,
      unregistering.Keeps ((level functions n).act (functions name identity args)) :=
    fun n name identity args => keeps_silent hallows.spent (hf name identity args) n
  have hserves := serves_of_spent hallows.spent (hact bound)
  have hinitial : unregistering.Keeps
      (setup.assignInitial functions (level functions bound) : Run (World σ) Unit) :=
    hserves.assignInitial keeps_get
      (hallows.keeps_writeKey (hallows.keeps_applyAssignment hact bound)) setup
  obtain ⟨generator, hw⟩ := create_ok h
  exact (hinitial _).good hw

/-- After calls of which any may have faulted, the controls are those that were made, in order; a
key leads to those of them that read it, each once, and for every storage to the last assignment
that listens to the key, in the order in which the storages first came. A call that faults changes
nothing. -/
theorem the_indices_are_a_function_of_the_registrations (functions : Functions σ)
    (below : Level σ) (bound : Nat) (calls : List Enrolment) {w : World σ}
    (hw : w.registry = ([], [], [])) :
    let regs := registrations w.nextControl calls
    let w' := calls.foldl (World.called functions below bound) w
    (w'.controls = regs.filterMap Registration.control? ∧
      w'.controls.Pairwise (·.serial < ·.serial)) ∧
    (∀ key, (w'.readLinks.get? key).getD [] = w'.controls.filter (readsKey key)) ∧
    (∀ key,
      let table := (w'.assignments.get? key).getD []
      let writers := regs.filterMap (·.writer? key)
      table.keys = distinct (writers.map (·.storage)) ∧
      ∀ storage, table.get? storage = writers.reverse.find? (·.storage == storage)) ∧
    ∀ (call : Enrolment) (u u' : World σ) (f : Fault),
      exec functions below bound call.command call.unheard u = .error f u' ↔
        call.registers u.nextControl = .error f ∧ u' = u := by
  intro regs w'
  have hbare : Registered [] w := .other (.new {} w.generator w.host) hw
  have hregs : Registered regs w' := registered_calls calls hbare
  have hcontrols : w'.controls = regs.filterMap Registration.control? := by
    have hnone : w.controls = [] := congrArg (·.1) hw
    have happend := controls_calls functions below bound calls w
    rwa [hnone, List.nil_append] at happend
  refine ⟨⟨hcontrols, ?_⟩, fun key => ?_, fun key => ?_, fun call u u' f => ?_⟩
  · rw [hcontrols]
    exact (serials_registrations w.nextControl calls).2
  · rw [hregs.readers_eq, hcontrols]
    exact Registration.flatMap_readers (faithful_registrations w.nextControl calls) key
  · rw [hregs.assignments_eq, retained_eq]
    exact ⟨keys_filed _, get?_filed _⟩
  · rcases exec_enrolment functions below bound call u with ⟨r?, answer, hr, he⟩ | ⟨g, hr, he⟩
    · rw [hr, he]
      exact ⟨fun h => (by cases h), fun h => (by cases h.1)⟩
    · rw [hr, he]
      simp [eq_comm]

/-- Two controls show the price and one between them cannot be read. The total is the price at once,
then a request lacks its expression, and then the total is to follow the price later. -/
def fitting : List Enrolment :=
  [.control (.text "tag") [(Control.storageSlot, .text "price")],
    .control (.text "sign") [(.text "label", .int 5)],
    .ready ⟨⟨.text "total", .null, .text "price, stock", .null, .null⟩,
      .identifier (.text "price"), none⟩,
    .draft ⟨.text "offer", .null, .text "price", .null, .null⟩,
    .ready ⟨⟨.text "total", .null, .text "price", .null, .int 5⟩,
      .identifier (.text "price"), none⟩,
    .control (.text "shelf") [(Control.storageSlot, .text "price")]]

/-- The price leads to the two controls and to the later total, the stock still to the total at
once. The control that cannot be read left no trace. -/
theorem a_later_total_replaces_one_under_the_price_alone :
    ∃ w : World Unit,
      Setup.create unaided 0 { state := [(.text "price", .int 2)] } () = .ok w ∧
      let w' := fitting.foldl (World.called unaided (level unaided 9) 9) w
      ((w'.readLinks.get? (.text "price")).getD []).map (·.serial) = [0, 1] ∧
      (((w'.assignments.get? (.text "price")).getD []).get? (.text "total")).map
        (·.isDeferred) = some true ∧
      (((w'.assignments.get? (.text "stock")).getD []).get? (.text "total")).map
        (·.isDeferred) = some false ∧
      ∃ f, exec unaided (level unaided 9) 9 (.addControl (.text "sign") [(.text "label", .int 5)])
        nofun w' = .error f w' := by
  have hsilent : ∀ name identity args, Silent (unaided name identity args) :=
    fun _ _ _ => trivial
  have hcreate : Setup.create unaided 0 { state := [(.text "price", .int 2)] } () =
      .ok (Setup.world { state := [(.text "price", .int 2)] } (.ofNat 0) ()) := rfl
  obtain ⟨⟨hcontrols, -⟩, hlinks, htables, hfaults⟩ :=
    the_indices_are_a_function_of_the_registrations unaided (level unaided 9) 9 fitting
      (created_bare hsilent hcreate)
  refine ⟨_, hcreate, ?_, ?_, ?_, ?_⟩
  · rw [hlinks, hcontrols]
    decide +kernel
  · rw [(htables _).2]
    decide +kernel
  · rw [(htables _).2]
    decide +kernel
  · exact ⟨_, (hfaults (.control (.text "sign") [(.text "label", .int 5)]) _ _ _).mpr ⟨rfl, rfl⟩⟩

end Switchboard.Manager
