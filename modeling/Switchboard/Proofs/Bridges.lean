-- A bridge mirrors its manager. In every run in which no call raises and no one who is told of an
-- event writes, the cells of a bridge hold at rest what the state holds, and what it derives reads
-- as the manager evaluates it. There are two exceptions, because a derived value is evaluated by
-- the manager but kept for as long as no cell changes: a null that comes over a value of the
-- context changes no cell, and neither does a key that a transaction changes and changes back.
import Switchboard.Proofs.Reflection
namespace Switchboard

/-- Does a derived value read for each free variable of its expression the cell of a bridge? -/
def Signals.Derives {κ : Type} (s : Signals κ) (bridge number : Nat) (e : Expr) : Prop :=
  ∃ d names, s.derived[number]? = some d ∧ d.expression = e ∧ e.freeVariables = .ok names ∧
    List.Forall₂ (s.Names bridge) names d.reads

namespace Manager

open World Conduct

variable {σ : Type}

/-! ## Managers at rest -/

/-- A manager that does nothing, with a state in which no key stands twice, cells that are numbered as
they were made, and bridges that know their subscriptions. -/
structure World.AtRest (w : World σ) : Prop where
  closed : w.inTransaction = false
  idle : w.computing = []
  once : NoneTwice w.store.state.keys
  ordered : w.signals.InOrder
  numbered : w.Numbered

/-- Of the containers that a manager holds, or held, are those of one identity the same? -/
def World.Coherent (w : World σ) : Prop :=
  ∀ u v, w.Holds u → w.Holds v → u.looksLike v = true → u = v

/-- Does a null of the state hide a value that the context has under a key? -/
def World.Hides (w : World σ) (key : Scalar) : Prop :=
  w.store.state.get? key = some .null ∧ w.context.valueAt key ≠ .null

/-- Does an expression take parts of the context only by name, and call none but pure functions of
the context, by names that the state does not define? -/
structure Followable (functions : Functions σ) (base w : World σ) (e : Expr) : Prop where
  named : e.thisNamed = true
  dotted : ∀ f ∈ e.callees, f.isDotted = true
  pure : Likeness.CallsOnly (IsPure functions base.nextIdentity) (.map 0 base.context) e.callees
  apart : ∀ f ∈ e.callees, ∀ s ∈ f.root, w.store.state.contains (.text s) = false

/-- Do two computations end alike: in values that are, or in the same fault? -/
def EndsAlike (n : Nat) : EStateM.Result Fault (World σ) Value →
    EStateM.Result Fault (World σ) Value → Prop
  | .ok v _, .ok u _ => v.alike n u = true
  | .error f _, .error g _ => f = g
  | _, _ => False

/-- A bridge that was made since a world, of a manager that is not disposed of, and is itself still
subscribed. -/
structure Bridged (base w : World σ) (number bridge : Nat) : Prop where
  live : w.isLive = true
  subscribed : (number, .bridge bridge) ∈ w.listeners
  made : base.signals.bridges.length ≤ bridge
  coherent : w.Coherent

/-- A value that a bridge derives from a text since a world. The manager carries no identity that is
still to be given out. -/
structure Computed (functions : Functions σ) (base u w : World σ) (bridge derived : Nat)
    (text : Value) (e : Expr) : Prop where
  read : Expr.ofValue text = .ok e
  made : base.signals.derived.length ≤ derived
  derives : u.signals.Derives bridge derived e
  followable : Followable functions base w e
  held : w.holdsOld = true

/-- Does a derived value read as the manager evaluates its text? -/
def ReadsAlike (functions : Functions σ) (base w : World σ) (derived : Nat) (text : Value) : Prop :=
  ∀ bound k j, EndsAlike base.nextIdentity
    (exec functions (level functions (k + 1)) bound (.readComputed derived) nofun w)
    (exec functions (level functions (j + 1)) bound (.evaluateText text) nofun w)

variable {functions : Functions σ} {base s w : World σ} {e : Expr}

/-! ## What an expression reads -/

theorem World.table_valueAt (h : NoneTwice w.store.state.keys) (key : Scalar) :
    w.table.valueAt key = (w.store.state.get? key).getD (w.context.valueAt key) := by
  unfold table Dict.valueAt
  rw [Dict.get?_merge, Dict.get?_ofList h]
  cases w.store.state.get? key <;> rfl

/-- If the state reads the same, so does the table, unless a null has come over a value. -/
theorem World.table_unhidden (hon : s.Onward w) (honce : NoneTwice s.store.state.keys)
    {key : Scalar} (hread : s.store.read key = w.store.read key) (hshown : ¬w.Hides key) :
    w.table.valueAt key = s.table.valueAt key := by
  rw [table_valueAt honce, table_valueAt (hon.once honce), hon.context]
  unfold Store.read at hread
  cases hs : s.store.state.get? key with
  | some u =>
    cases hw : w.store.state.get? key with
    | some v =>
      rw [hs, hw] at hread
      exact hread.symm
    | none =>
      have hkept := hon.names key
      rw [Dict.contains_eq, Dict.contains_eq, (Dict.get?_eq_none_iff _ _).mp hw] at hkept
      have habsent : s.store.state.keys.contains key = false :=
        Bool.eq_false_iff.mpr fun hin => Bool.false_ne_true (hkept hin)
      rw [(Dict.get?_eq_none_iff _ _).mpr habsent] at hs
      cases hs
  | none =>
    cases hw : w.store.state.get? key with
    | some v =>
      rw [hs, hw] at hread
      have hnull : v = .null := hread.symm
      subst hnull
      refine Classical.byContradiction fun hne => hshown ⟨hw, fun hcontext => hne ?_⟩
      rw [hon.context] at hcontext
      exact hcontext.symm
    | none => rfl

theorem Followable.repeatable (h : Followable functions base w e) (hs : e.isSpelled = true)
    (hbase : base.Onward s) (hon : s.Onward w) : Repeatable functions s e where
  spelled := hs
  named := h.named
  pure := by
    rw [hbase.context]
    exact fun f hf path ha g hg => (h.pure f hf path ha g hg).mono hbase.identities
  apart f hf name hname := by
    rw [Bool.eq_false_iff]
    intro hin
    have habsent := h.apart f hf name hname
    rw [hon.names _ hin] at habsent
    cases habsent

/-- What an expression reads is the same if its free variables read the same. -/
theorem Followable.agrees (h : Followable functions base w e) (hs : e.isSpelled = true)
    (hon : s.Onward w) (honce : NoneTwice s.store.state.keys) {names : List Scalar}
    (hnames : e.freeVariables = .ok names)
    (hread : ∀ key ∈ names, s.store.read key = w.store.read key)
    (hshown : ∀ key ∈ names, ¬w.Hides key) :
    ∀ name ∈ e.inputs, w.table.valueAt (.text name) = s.table.valueAt (.text name) := by
  intro name hname
  rcases e.inputs_accounted name hname with hm | ⟨f, hf, hm | hm⟩
  · have hkey := Expr.freeVariables_contains hs hnames hm BEq.rfl
    obtain ⟨key, hin, hsame⟩ := List.contains_iff_exists_mem_beq.mp hkey
    rw [w.table.valueAt_congr hsame, s.table.valueAt_congr hsame]
    exact table_unhidden hon honce (hread key hin) (hshown key hin)
  · have habsent := h.apart f hf name hm
    have hbefore : s.store.state.contains (.text name) = false :=
      Bool.eq_false_iff.mpr fun hin => by rw [hon.names _ hin] at habsent; cases habsent
    rw [table_valueAt_of_absent habsent, table_valueAt_of_absent hbefore, hon.context]
  · rw [Expr.pathInputs_of_dotted (h.dotted f hf)] at hm
    cases hm

/-! ## Reading a mirror -/

section

variable {x : Mirror σ} (h : Mirroring functions x none w) (hx : x.Stays w)
  (hclosed : w.inTransaction = false) (hcoherent : w.Coherent)

include h hx hclosed

theorem Mirroring.reflected {key : Scalar} {number : Nat}
    (hname : w.signals.Names x.bridge key number) :
    ∃ cell, w.signals.cells[number]? = some cell ∧ w.Holds cell.value ∧
      cell.value.looksLike (w.store.read key) = true := by
  obtain ⟨cell, hcell, hheld, (hlate | ⟨hopen, -⟩) | hlooks⟩ := h.reflects hx key number hname
  · cases hlate
  · rw [hclosed] at hopen
    cases hopen
  · exact ⟨cell, hcell, hheld, hlooks⟩

include hcoherent

/-- At rest, a cell of the bridge holds what the state holds. -/
theorem Mirroring.cell_value {key : Scalar} {number : Nat}
    (hname : w.signals.Names x.bridge key number) :
    w.signals.cellValue number = w.store.read key := by
  obtain ⟨cell, hcell, hheld, hlooks⟩ := h.reflected hx hclosed hname
  unfold Signals.cellValue
  rw [hcell]
  exact hcoherent _ _ hheld (.inl ⟨key, rfl⟩) hlooks

/-- What is remembered from cells that have not changed was made of what the state holds now. -/
theorem Mirroring.recalled_now {number : Nat} {d : Switchboard.Derived} {v : Value}
    (hnumber : x.base.signals.derived.length ≤ number)
    (hd : w.signals.derived[number]? = some d) (hfresh : w.signals.fresh? d = some v)
    {names : List Scalar} (hreads : List.Forall₂ (w.signals.Names x.bridge) names d.reads) :
    ∃ n s s', evaluateNow functions (level functions (n + 1)) d.expression s = .ok v s' ∧
      x.base.Onward s ∧ s.Onward w ∧ s.holdsOld = true ∧
      ∀ key ∈ names, s.store.read key = w.store.read key := by
  obtain ⟨memo, hmemo, hseen, rfl⟩ := Signals.fresh_some hfresh
  obtain ⟨n, s, s', heval, hbase, hon, hold, hdates⟩ := h.recalls hx hnumber hd hmemo
  refine ⟨n, s, s', heval, hbase, hon, hold, fun key hkey => ?_⟩
  obtain ⟨number, hread, hname⟩ := exists_of_forall₂ hreads hkey
  rw [hseen] at hdates
  obtain ⟨cell, hcell, -, htold⟩ :=
    hdates (number, (w.signals.cells[number]?.map (·.version)).getD 0)
      (Signals.mem_zip_map.mpr ⟨hread, rfl⟩) key hname
  obtain ⟨cell', hcell', -, hlooks⟩ := h.reflected hx hclosed hname
  cases hcell.symm.trans hcell'
  have hversion : (w.signals.cells[number]?.map (·.version)).getD 0 = cell.version := by
    rw [hcell]
    rfl
  rcases htold hversion with hlooks' | ⟨hlate, -⟩
  · exact hcoherent _ _ (hon.values _ (.inl ⟨key, rfl⟩)) (.inl ⟨key, rfl⟩)
      (Value.looksLike_trans hlooks' hlooks)
  · cases hlate

/-- At rest, a derived value reads as the manager evaluates its expression. -/
theorem Mirroring.reading_alike (hidle : w.computing = [])
    (honce : NoneTwice x.base.store.state.keys) (hold : w.holdsOld = true) {number : Nat}
    (hnumber : x.base.signals.derived.length ≤ number)
    (hd : w.signals.Derives x.bridge number e) (hs : e.isSpelled = true)
    (hf : Followable functions x.base w e)
    (hshown : ∀ names, e.freeVariables = .ok names → ∀ key ∈ names, ¬w.Hides key) (k j : Nat) :
    EndsAlike x.base.nextIdentity (readComputed functions (level functions (k + 1)) number w)
      (evaluateNow functions (level functions (j + 1)) e w) := by
  obtain ⟨d, names, hd, rfl, hnames, hreads⟩ := hd
  have hread : (signalsPart.read : Run (World σ) _) w = .ok w.signals w := rfl
  unfold readComputed
  rw [bind_ok hread, hd]
  dsimp only
  cases hfresh : w.signals.fresh? d with
  | some v =>
    obtain ⟨n, s, s', heval, hbase, hon, holds, hsame⟩ :=
      h.recalled_now hx hclosed hcoherent hnumber hd hfresh hreads
    have hagrees := hf.agrees hs hon (hbase.once honce) hnames hsame (hshown names hnames)
    obtain ⟨-, -, w', hagain⟩ :=
      (hf.repeatable hs hbase hon).again holds hon.identities hagrees heval j
    rw [hagain]
    exact Value.alike_renamed hbase.identities v
  | none =>
    have hon : w.Onward { w with computing := [number] } :=
      onward_of_same rfl (Nat.le_refl _) rfl rfl
    have hback : World.Onward { w with computing := [number] } w :=
      onward_of_same rfl (Nat.le_refl _) rfl rfl
    have htwins := (hf.repeatable hs (h.onward.trans hon) hback).twins (d := 0) hold rfl
      (fun _ _ => rfl) k j
    have hcompute : compute functions (level functions (k + 1)) number d w =
        (evaluateNow functions (level functions (k + 1)) d.expression).ensuring
          (fun u => { u with computing := [] }) { w with computing := [number] } := by
      rw [compute_eq, hidle]
      rfl
    rw [Run.ensuring_eq] at hcompute
    unfold Likeness.Alike at htwins
    dsimp only at htwins
    cases ha : evaluateNow functions (level functions (k + 1)) d.expression
        { w with computing := [number] } with
    | ok a u =>
      rw [ha] at htwins hcompute
      dsimp only
      rw [bind_ok hcompute]
      cases hb : evaluateNow functions (level functions (j + 1)) d.expression w with
      | ok b u' =>
        rw [hb] at htwins
        obtain ⟨-, -, hb⟩ := htwins
        rw [hb]
        exact Value.alike_renamed h.onward.identities a
      | error g u' =>
        rw [hb] at htwins
        exact htwins.elim
    | error f u =>
      rw [ha] at htwins hcompute
      dsimp only
      rw [bind_error hcompute]
      cases hb : evaluateNow functions (level functions (j + 1)) d.expression w with
      | ok b u' =>
        rw [hb] at htwins
        exact htwins.elim
      | error g u' =>
        rw [hb] at htwins
        exact htwins.1

end

/-! ## New cells and derived values of a bridge -/

/-- The cells of some keys are those that the bridge has for them. -/
theorem cellsFor_names {bridge : Nat} (hb : bridge < w.signals.bridges.length)
    (names : List Scalar) : ∃ numbers s, cellsFor bridge names w =
        .ok numbers { w with signals := s } ∧ bridge < s.bridges.length ∧
      (∀ key n, w.signals.Names bridge key n → s.Names bridge key n) ∧
      List.Forall₂ (s.Names bridge) names numbers := by
  induction names generalizing w with
  | nil => exact ⟨[], w.signals, rfl, hb, fun _ _ h => h, .nil⟩
  | cons key rest ih =>
    obtain ⟨hname, hkept, hlength⟩ := w.signals.cellOf_names hb key (w.store.read key)
    obtain ⟨numbers, s, hrest, hb', hkept', hnumbers⟩ :=
      @ih { w with signals := (w.signals.cellOf bridge key (w.store.read key)).2 } (hlength ▸ hb)
    exact ⟨(w.signals.cellOf bridge key (w.store.read key)).1 :: numbers, s, cellsFor_cons hrest,
      hb', fun key' n h => hkept' _ _ (hkept _ _ h), .cons (hkept' _ _ hname) hnumbers⟩

/-- What is computed on a bridge reads the cells of the bridge for its free variables. -/
theorem derive_derives {bridge number : Nat} {text : Value} {w' : World σ}
    (hb : bridge < w.signals.bridges.length) (he : Expr.ofValue text = .ok e)
    (hr : derive bridge text w = .ok number w') : w'.signals.Derives bridge number e := by
  unfold derive at hr
  obtain ⟨e', u, hparse, hnext⟩ := bind_ok_inv hr
  obtain ⟨he', rfl⟩ := ofExcept_ok hparse
  cases he.symm.trans he'
  obtain ⟨names, v, hread, hlast⟩ := bind_ok_inv hnext
  obtain ⟨hnames, rfl⟩ := ofExcept_ok hread
  obtain ⟨numbers, s, hcells, -, -, hnumbers⟩ := cellsFor_names hb names
  rw [bind_ok hcells] at hlast
  cases hlast
  exact ⟨⟨e, numbers, none⟩, names, List.getElem?_concat_length, rfl, hnames, hnumbers⟩

/-! ## Runs -/

/-- A bridge that is still to be made is a mirror already. -/
theorem mirroring_start {bridge : Nat} (hr : Reachable w) (hrest : w.AtRest)
    (hb : w.signals.bridges.length ≤ bridge) : Mirroring functions ⟨bridge, w⟩ none w where
  onward := .refl w
  ordered := hrest.ordered
  numbered := hrest.numbered
  hears := hr.sound.listeners
  telling := nofun
  tallies _ hopen := by
    rw [hrest.closed] at hopen
    cases hopen
  reflects _ _ _ hname := absurd hname (Signals.not_names_of_le hb)
  recalls _ number d memo hnumber hd _ := by
    rw [List.getElem?_eq_none hnumber] at hd
    cases hd

theorem mirroring_run {bound : Nat} {p : Act σ} {x : Mirror σ} {v : Value} {w' : World σ}
    (hw : Mirroring functions x none w) (h : mirrorly.run functions bound p w = .ok v w') :
    Mirroring functions x none w' ∧ Abides x none w w' :=
  Keeping.ok_of_law
    ((mirroring_household.tidy (fun _ _ _ => trivial) bound).act none trivial) hw h

/-- A new manager is at rest. -/
theorem world_atRest {setup : Setup} (h : NoneTwice setup.state.keys) (generator : Generator)
    (host : σ) : (setup.world generator host).AtRest :=
  ⟨rfl, rfl, h, Signals.inOrder_empty, nofun⟩

/-- A manager at rest comes to rest again. -/
theorem World.AtRest.run {bound : Nat} {p : Act σ} {v : Value} {w' : World σ} (hrest : w.AtRest)
    (hr : Reachable w) (h : mirrorly.run functions bound p w = .ok v w') : w'.AtRest := by
  obtain ⟨hw', ha⟩ := mirroring_run (mirroring_start hr hrest (Nat.le_refl _)) h
  exact ⟨ha.within.trans hrest.closed, ha.computing.trans hrest.idle, ha.onward.once hrest.once,
    hw'.ordered, hw'.numbered⟩

/-- A derived value goes on reading the cells of its bridge. -/
theorem Abides.derives {x : Mirror σ} {w' : World σ} {number : Nat} (ha : Abides x none w w')
    (hx : x.Stays w') (h : w.signals.Derives x.bridge number e) :
    w'.signals.Derives x.bridge number e := by
  obtain ⟨d, names, hd, he, hnames, hreads⟩ := h
  obtain ⟨memo, hd'⟩ := ha.grows.derived hd
  exact ⟨_, names, hd', he, hnames, hreads.imp (ha.names hx)⟩

/-- In every run in which no call raises and no one who is told of an event writes, a bridge that is
made in it and not disposed of mirrors the manager, whenever that is at rest. Whatever signals it
has handed out hold what the state holds, and what it has derived reads as the manager evaluates it,
unless a null of the state hides a value of the context under a name that it reads. No value may be
derived while a transaction is under way. -/
theorem a_bridge_mirrors_its_manager_unless_a_null_hides_a_value (functions : Functions σ)
    (bound bound' : Nat) (p q : Act σ) {w u w' : World σ} {a b : Value} (hr : Reachable w)
    (hrest : w.AtRest) (hp : mirrorly.run functions bound p w = .ok a u)
    (hq : mirrorly.run functions bound' q u = .ok b w') :
    run functions bound p w = .ok a u ∧ run functions bound' q u = .ok b w' ∧ w'.AtRest ∧
    ∀ number bridge, Bridged w w' number bridge →
      (∀ key cell, u.signals.Names bridge key cell →
        w'.signals.cellValue cell = w'.store.read key) ∧
      ∀ derived text e, Computed functions w u w' bridge derived text e →
        (∀ names, e.freeVariables = .ok names → ∀ key ∈ names, ¬w'.Hides key) →
        ReadsAlike functions w w' derived text := by
  have hplain := Manners.run_ok hp
  have hu : Reachable u :=
    hr.steps ((a_program_goes_by_single_changes functions bound p w).good hplain)
  have hidle : w'.AtRest := (hrest.run hr hp).run hu hq
  refine ⟨hplain, Manners.run_ok hq, hidle, fun number bridge hb => ?_⟩
  obtain ⟨hmiddle, -⟩ := mirroring_run (mirroring_start hr hrest hb.made) hp
  obtain ⟨hw', ha⟩ := mirroring_run hmiddle hq
  have hstays : Mirror.Stays ⟨bridge, w⟩ w' := ⟨hb.live, .inl ⟨number, hb.subscribed⟩⟩
  refine ⟨fun key cell hname => ?_, fun derived text e hf hshown bound k j => ?_⟩
  · exact hw'.cell_value hstays hidle.closed hb.coherent (ha.names hstays key cell hname)
  · have hparse : (Run.ofExcept (Expr.ofValue text) : Run (World σ) Expr) w' = .ok e w' := by
      rw [hf.read]
      rfl
    have htext : exec functions (level functions (j + 1)) bound (.evaluateText text) nofun w' =
        evaluateNow functions (level functions (j + 1)) e w' := bind_ok hparse
    rw [htext]
    exact hw'.reading_alike hstays hidle.closed hb.coherent hidle.idle hrest.once hf.held hf.made
      (ha.derives hstays hf.derives) (Expr.ofValue_spelled hf.read) hf.followable hshown k j

/-! ## A stall -/

/-- The sum of a price and a tax. -/
def bill : Expr :=
  .binary (.text "+") (.identifier (.text "price")) (.identifier (.text "tax"))

def isBill : Expr → Bool
  | .binary (.text "+") (.identifier (.text "price")) (.identifier (.text "tax")) => true
  | _ => false

theorem eq_bill {e : Expr} (h : isBill e = true) : e = bill := by
  unfold isBill at h
  split at h
  · rfl
  · cases h

theorem read_bill : Expr.ofValue (.text "price + tax") = .ok bill := by
  have hread : (match Expr.ofValue (.text "price + tax") with
    | .ok e => isBill e
    | .error _ => false) = true := by decide +kernel
  split at hread
  · rename_i e he
    rw [he, eq_bill hread]
  · cases hread

theorem bill_followable (functions : Functions σ) (base w : World σ) :
    Followable functions base w bill where
  named := rfl
  dotted f hf := by cases hf
  pure f hf := by cases hf
  apart f hf := by cases hf

/-- Has the first bridge, still subscribed, derived the bill as the first of its values, and does the
manager hold scalars only? -/
def World.bills (w : World Unit) : Bool :=
  w.isLive && w.holdsOld &&
    w.listeners.any (fun | (1, .bridge 0) => true | _ => false) &&
    w.store.state.values.all (·.isScalar) && w.store.history.all (·.old.isScalar) &&
    (w.signals.bridge 0).cells.get? (.text "price") = some 0 &&
    (w.signals.bridge 0).cells.get? (.text "tax") = some 1 &&
    w.signals.derived[0]?.any fun d => isBill d.expression && d.reads = [0, 1]

theorem World.coherent_of_scalars {w : World σ}
    (hstate : w.store.state.values.all (·.isScalar) = true)
    (hhistory : w.store.history.all (·.old.isScalar) = true) : w.Coherent := by
  have hscalar : ∀ v, w.Holds v → v.isScalar = true := by
    rintro v (⟨key, rfl⟩ | ⟨c, hc, rfl⟩)
    · unfold Store.read
      cases hget : w.store.state.get? key with
      | none => rfl
      | some v => exact List.all_eq_true.mp hstate v (Dict.mem_values_of_get? hget)
    · exact List.all_eq_true.mp hhistory c hc
  intro u v hu hv hlooks
  have hu := hscalar u hu
  have hv := hscalar v hv
  cases u <;> cases hu
  cases v <;> cases hv
  exact congrArg Value.scalar (of_decide_eq_true hlooks)

theorem World.bills_ok {base w : World Unit} (h : w.bills = true)
    (hb : base.signals.bridges = []) (hd : base.signals.derived = []) (functions : Functions Unit) :
    Bridged base w 1 0 ∧ w.signals.Names 0 (.text "price") 0 ∧
      Computed functions base w w 0 0 (.text "price + tax") bill := by
  unfold bills at h
  simp only [Bool.and_eq_true, decide_eq_true_eq] at h
  obtain ⟨⟨⟨⟨⟨⟨⟨hlive, hold⟩, hlistener⟩, hstate⟩, hhistory⟩, hprice⟩, htax⟩, hderived⟩ := h
  refine ⟨⟨hlive, ?_, ?_, coherent_of_scalars hstate hhistory⟩, hprice, read_bill, ?_, ?_,
    bill_followable _ _ _, hold⟩
  · obtain ⟨e, he, hmatch⟩ := List.any_eq_true.mp hlistener
    split at hmatch
    · exact he
    · cases hmatch
  · rw [hb]
    exact Nat.zero_le _
  · rw [hd]
    exact Nat.zero_le _
  · obtain ⟨d, hd, hboth⟩ := (Option.any_eq_true _ _).mp hderived
    rw [Bool.and_eq_true] at hboth
    refine ⟨d, [.text "price", .text "tax"], hd, eq_bill hboth.1, rfl, ?_⟩
    rw [of_decide_eq_true hboth.2]
    exact .cons hprice (.cons htax .nil)

/-- A stall before it opens. -/
def stall (state context : Dict Scalar Value) : World Unit :=
  Setup.world { state := state, context := context } (.ofNat 0) ()

theorem stall_reachable (state context : Dict Scalar Value) : Reachable (stall state context) :=
  ⟨_, _, _, .refl⟩

theorem stall_atRest {state : Dict Scalar Value} (h : NoneTwice state.keys)
    (context : Dict Scalar Value) : (stall state context).AtRest :=
  @world_atRest Unit { state := state, context := context } h _ _

/-- A host with a function that reads the bill. -/
def peeks : Functions Unit := fun _ _ _ => .ask (.readComputed 0) nofun .done

def assigning : List Draft → Act Unit
  | [] => .done .null
  | draft :: rest => .ask (.assign draft) nofun fun _ => assigning rest

/-- The bill is derived, and read if someone asks for it, and some assignments are made. -/
def opening (asked : Bool) (drafts : List Draft) : Act Unit :=
  .ask .connect nofun fun bridge =>
    .ask (.compute bridge (.text "price + tax")) nofun fun derived =>
      if asked then .ask (.readComputed derived) nofun fun _ => assigning drafts
      else assigning drafts

def repricing (patch : Dict Scalar Value) : Act Unit :=
  .ask (.setState (.map 0 patch)) nofun fun _ => .done .null

/-- Does a stall that opens and is given a new price come to an end like this, the bill derived? -/
def trades (m : Manners Unit) (asked : Bool) (drafts : List Draft) (patch : Dict Scalar Value)
    (w : World Unit) (ends : World Unit → Bool) : Bool :=
  (m.run peeks 9 (opening asked drafts)).yields w fun _ u => u.bills &&
    (m.run peeks 9 (repricing patch)).yields u fun _ w' => w'.bills && ends w'

theorem trades_ok {m : Manners Unit} {asked : Bool} {drafts : List Draft}
    {patch : Dict Scalar Value} {w : World Unit} {ends : World Unit → Bool}
    (h : trades m asked drafts patch w ends = true)
    (hb : w.signals.bridges = []) (hd : w.signals.derived = []) :
    ∃ a u b w', m.run peeks 9 (opening asked drafts) w = .ok a u ∧
      m.run peeks 9 (repricing patch) u = .ok b w' ∧ Bridged w w' 1 0 ∧
      u.signals.Names 0 (.text "price") 0 ∧
      Computed peeks w u w' 0 0 (.text "price + tax") bill ∧ ends w' = true := by
  obtain ⟨a, u, hp, hchecks⟩ := Run.yields_ok h
  obtain ⟨hu, hruns⟩ := Bool.and_eq_true_iff.mp hchecks
  obtain ⟨b, w', hq, hchecks'⟩ := Run.yields_ok hruns
  obtain ⟨hw', hends⟩ := Bool.and_eq_true_iff.mp hchecks'
  obtain ⟨-, hname, hderived⟩ := World.bills_ok hu hb hd peeks
  obtain ⟨hbridged, -, hcomputed⟩ := World.bills_ok hw' hb hd peeks
  exact ⟨a, u, b, w', hp, hq, hbridged, hname, { hcomputed with derives := hderived.derives },
    hends⟩

/-- The bill is that of the new price, and of the new tax that takes the place of that of the
context. -/
theorem the_bill_follows_the_price :
    ∃ a u b w', run peeks 9 (opening true [])
          (stall [(.text "price", .int 1)] [(.text "tax", .int 3)]) = .ok a u ∧
      run peeks 9 (repricing [(.text "price", .int 5), (.text "tax", .int 2)]) u = .ok b w' ∧
      w'.signals.cellValue 0 = w'.store.read (.text "price") ∧
      ReadsAlike peeks (stall [(.text "price", .int 1)] [(.text "tax", .int 3)]) w' 0
        (.text "price + tax") := by
  have hruns : trades mirrorly true [] [(.text "price", .int 5), (.text "tax", .int 2)]
      (stall [(.text "price", .int 1)] [(.text "tax", .int 3)])
      (fun w' => w'.store.state.values.all (!·.sameKey .null)) = true := by decide +kernel
  obtain ⟨a, u, b, w', hp, hq, hbridged, hname, hcomputed, hshown⟩ := trades_ok hruns rfl rfl
  obtain ⟨hp', hq', -, hmirrors⟩ := a_bridge_mirrors_its_manager_unless_a_null_hides_a_value peeks
    9 9 _ _ (stall_reachable _ _) (stall_atRest (by exact List.pairwise_singleton _ _) _) hp hq
  obtain ⟨hcells, hreads⟩ := hmirrors 1 0 hbridged
  refine ⟨a, u, b, w', hp', hq', hcells _ 0 hname, hreads 0 _ _ hcomputed fun _ _ key _ hhides => ?_⟩
  have hnull := List.all_eq_true.mp hshown _ (Dict.mem_values_of_get? hhides.1)
  cases hnull

/-! ## What a bridge does not see -/

/-- Is the bill read as one value, and evaluated as another? -/
def World.misread (w : World Unit) : Bool :=
  (exec peeks (level peeks 1) 9 (.readComputed 0) nofun).yields w fun v _ =>
    (exec peeks (level peeks 1) 9 (.evaluateText (.text "price + tax")) nofun).yields w
      fun v' _ => !v.alike 0 v'

theorem World.misread_ok {w : World Unit} (h : w.misread = true) (state context : Dict Scalar Value) :
    ¬ReadsAlike peeks (stall state context) w 0 (.text "price + tax") := by
  intro hreads
  obtain ⟨v, u, hv, h⟩ := Run.yields_ok h
  obtain ⟨v', u', hv', hunlike⟩ := Run.yields_ok h
  have halike : EndsAlike _ (exec peeks (level peeks 1) 9 (.readComputed 0) nofun w)
      (exec peeks (level peeks 1) 9 (.evaluateText (.text "price + tax")) nofun w) := hreads 9 0 0
  rw [hv, hv'] at halike
  rw [show v.alike 0 v' = true from halike] at hunlike
  cases hunlike

def draft (storage expression listen : String) : Draft :=
  ⟨.text storage, .text expression, .text listen, .null, .null⟩

/-- The bill is derived from a price of the context. If an assignment makes a null of a price that
is entered, the null hides the price of the context, but it changes no cell, and the bill is read as
it was. -/
theorem a_null_that_hides_a_price_leaves_the_bill_as_it_was :
    ¬ ∀ (bound bound' : Nat) (p q : Act Unit) (w u w' : World Unit) (a b : Value),
      Reachable w → w.AtRest →
      ({ hushed := fun _ => true } : Manners Unit).run peeks bound p w = .ok a u →
      ({ hushed := fun _ => true } : Manners Unit).run peeks bound' q u = .ok b w' →
      ∀ number bridge, Bridged w w' number bridge → ∀ derived text e,
        Computed peeks w u w' bridge derived text e → ReadsAlike peeks w w' derived text := by
  intro h
  have hruns : trades { hushed := fun _ => true } true [draft "price" "null" "price"]
      [(.text "price", .int 5)] (stall [] [(.text "price", .int 7), (.text "tax", .int 3)])
      World.misread = true := by decide +kernel
  obtain ⟨a, u, b, w', hp, hq, hbridged, -, hcomputed, hmisread⟩ := trades_ok hruns rfl rfl
  exact World.misread_ok hmisread _ _ (h 9 9 _ _ _ u w' a b (stall_reachable _ _)
    (stall_atRest (by exact .nil) _) hp hq 1 0 hbridged 0 _ _ hcomputed)

/-- The bill is first read while a price is entered that an assignment takes back. In the end no cell
has changed, and the bill is read as it was meanwhile. -/
theorem a_price_that_is_taken_back_leaves_its_bill :
    ¬ ∀ (bound bound' : Nat) (p q : Act Unit) (w u w' : World Unit) (a b : Value),
      Reachable w → w.AtRest →
      ({ hushed := fun _ => true } : Manners Unit).run peeks bound p w = .ok a u →
      ({ hushed := fun _ => true } : Manners Unit).run peeks bound' q u = .ok b w' →
      ∀ number bridge, Bridged w w' number bridge → ∀ derived text e,
        Computed peeks w u w' bridge derived text e →
        (∀ names, e.freeVariables = .ok names → ∀ key ∈ names, ¬w'.Hides key) →
        ReadsAlike peeks w w' derived text := by
  intro h
  have hruns : trades { hushed := fun _ => true } false
      [draft "seen" "peek()" "price", draft "price" "1" "seen"] [(.text "price", .int 5)]
      (stall [(.text "price", .int 1)]
        [(.text "tax", .int 3), (.text "peek", .function (.host "peek"))])
      (fun w' => w'.misread && w'.store.state.values.all (!·.sameKey .null)) = true := by
    decide +kernel
  obtain ⟨a, u, b, w', hp, hq, hbridged, -, hcomputed, hends⟩ := trades_ok hruns rfl rfl
  obtain ⟨hmisread, hshown⟩ := Bool.and_eq_true_iff.mp hends
  refine World.misread_ok hmisread _ _ (h 9 9 _ _ _ u w' a b (stall_reachable _ _)
    (stall_atRest (by exact List.pairwise_singleton _ _) _) hp hq 1 0 hbridged 0 _ _ hcomputed ?_)
  intro _ _ key _ hhides
  have hnull := List.all_eq_true.mp hshown _ (Dict.mem_values_of_get? hhides.1)
  cases hnull

end Manager
end Switchboard
