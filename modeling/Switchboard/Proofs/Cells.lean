-- What the cells of a bridge go through. Cells are numbered as they are made, and a cell that is
-- set has a new version, so who remembers the versions of some cells can tell whether they still
-- hold what they held.
import Switchboard.Signals
import Switchboard.Proofs.Tables
namespace Switchboard

/-! ## Values that look alike -/

namespace Value

theorem looksLike_refl (v : Value) : v.looksLike v = true := by
  cases v <;> simp [looksLike, isIdentical]

theorem looksLike_symm {v u : Value} (h : v.looksLike u = true) : u.looksLike v = true := by
  cases v <;> cases u <;> simp_all [looksLike, isIdentical]

theorem looksLike_trans {v u t : Value} (h : v.looksLike u = true) (h' : u.looksLike t = true) :
    v.looksLike t = true := by
  cases v <;> cases u <;> cases t <;> simp_all [looksLike, isIdentical]

theorem looksLike_of_isSame {v u : Value} (h : v.isSame u = true) : v.looksLike u = true := by
  cases v <;> cases u <;> simp_all [looksLike, isSame]

end Value

namespace Signals

variable {κ : Type} {s s' s'' : Signals κ} {bridge bridge' number : Nat} {key : Scalar}

/-! ## Numbers -/

/-- Does a bridge have this cell for a key? -/
def Names (s : Signals κ) (bridge : Nat) (key : Scalar) (number : Nat) : Prop :=
  (s.bridge bridge).cells.get? key = some number

theorem bridge_eq (s : Signals κ) (number : Nat) :
    s.bridge number = s.bridges[number]?.getD ⟨0, [], []⟩ := by
  unfold bridge
  cases s.bridges[number]? <;> rfl

/-- Cells are numbered as they are made. Bridges and derived values know none but these, and no cell
is there for two keys. -/
structure InOrder (s : Signals κ) : Prop where
  named : ∀ {bridge key number}, s.Names bridge key number → number < s.cells.length
  apart : ∀ {bridge bridge' key key' number}, s.Names bridge key number →
    s.Names bridge' key' number → bridge' = bridge ∧ (key' == key) = true
  read : ∀ d ∈ s.derived, ∀ number ∈ d.reads, number < s.cells.length

theorem inOrder_empty : ({} : Signals κ).InOrder where
  named h := by cases h
  apart h := by cases h
  read _ h := by cases h

/-! ## What becomes of cells -/

/-- What may become of signals, as one bridge knows them. A cell that has changed has a new version,
a derived value is what it was, whatever it remembers, and the bridge only takes cells that are
new. No bridge changes its subscription. -/
structure Grows (bridge : Nat) (s s' : Signals κ) : Prop where
  cells : ∀ {number : Nat} {cell : Cell}, s.cells[number]? = some cell →
    ∃ cell', s'.cells[number]? = some cell' ∧ cell.version ≤ cell'.version ∧
      (cell'.version = cell.version → cell' = cell)
  derived : ∀ {number : Nat} {d : Derived}, s.derived[number]? = some d →
    ∃ memo, s'.derived[number]? = some { d with memo := memo }
  named : ∀ {key number}, s'.Names bridge key number →
    s.Names bridge key number ∨ s.cells.length ≤ number
  bridges : s.bridges.length ≤ s'.bridges.length
  subscribed : ∀ {b : Nat}, b < s.bridges.length →
    (s'.bridge b).subscription = (s.bridge b).subscription

theorem Grows.refl (bridge : Nat) (s : Signals κ) : s.Grows bridge s where
  cells h := ⟨_, h, Nat.le_refl _, fun _ => rfl⟩
  derived h := ⟨_, h⟩
  named h := .inl h
  bridges := Nat.le_refl _
  subscribed _ := rfl

theorem Grows.length_le (h : s.Grows bridge s') : s.cells.length ≤ s'.cells.length := by
  rcases Nat.lt_or_ge s'.cells.length s.cells.length with hlt | hle
  · obtain ⟨cell, hcell, -⟩ := h.cells (List.getElem?_eq_getElem hlt)
    rw [List.getElem?_eq_none (Nat.le_refl _)] at hcell
    cases hcell
  · exact hle

theorem Grows.trans (h : s.Grows bridge s') (h' : s'.Grows bridge s'') : s.Grows bridge s'' where
  cells hcell := by
    obtain ⟨cell', hcell', hle, heq⟩ := h.cells hcell
    obtain ⟨cell'', hcell'', hle', heq'⟩ := h'.cells hcell'
    refine ⟨cell'', hcell'', Nat.le_trans hle hle', fun hsame => ?_⟩
    have hmiddle : cell'.version = _ := Nat.le_antisymm (hsame ▸ hle') hle
    rw [heq' (hsame.trans hmiddle.symm), heq hmiddle]
  derived hd := by
    obtain ⟨memo, hd'⟩ := h.derived hd
    obtain ⟨memo', hd''⟩ := h'.derived hd'
    exact ⟨memo', hd''⟩
  named hname := by
    rcases h'.named hname with hname | hle
    · exact h.named hname
    · exact .inr (Nat.le_trans h.length_le hle)
  bridges := Nat.le_trans h.bridges h'.bridges
  subscribed hb := (h'.subscribed (Nat.lt_of_lt_of_le hb h.bridges)).trans (h.subscribed hb)

/-- A cell that a derived value reads has been there all the time, if the bridge has it. -/
theorem Grows.named_of_lt (h : s.Grows bridge s') (hname : s'.Names bridge key number)
    (hlt : number < s.cells.length) : s.Names bridge key number :=
  (h.named hname).resolve_right (Nat.not_le.mpr hlt)

/-- A bridge that is still to be made has no cells. -/
theorem not_names_of_le (h : s.bridges.length ≤ bridge) : ¬s.Names bridge key number := by
  unfold Names
  rw [bridge_eq, List.getElem?_eq_none h]
  exact nofun

/-! ## What leaves cells alone -/

/-- No cell and nothing remembered is touched. Derived values may be added, and bridges may forget
their cells. -/
structure Spared (s s' : Signals κ) : Prop where
  cells : s'.cells = s.cells
  named : ∀ {bridge key number}, s'.Names bridge key number → s.Names bridge key number
  kept : ∀ {number : Nat} {d : Derived}, s.derived[number]? = some d → s'.derived[number]? = some d
  added : ∀ {number : Nat} {d : Derived}, s'.derived[number]? = some d →
    s.derived[number]? = some d ∨ d.memo = none ∧ ∀ n ∈ d.reads, n < s.cells.length
  bridges : s.bridges.length ≤ s'.bridges.length
  subscribed : ∀ {b : Nat}, b < s.bridges.length →
    (s'.bridge b).subscription = (s.bridge b).subscription

theorem Spared.refl (s : Signals κ) : s.Spared s :=
  ⟨rfl, id, id, .inl, Nat.le_refl _, fun _ => rfl⟩

theorem Spared.grows (h : s.Spared s') (bridge : Nat) : s.Grows bridge s' where
  cells hcell := ⟨_, by rw [h.cells]; exact hcell, Nat.le_refl _, fun _ => rfl⟩
  derived hd := ⟨_, h.kept hd⟩
  named hname := .inl (h.named hname)
  bridges := h.bridges
  subscribed := h.subscribed

theorem Spared.inOrder (h : s.Spared s') (hs : s.InOrder) : s'.InOrder where
  named hname := by
    rw [h.cells]
    exact hs.named (h.named hname)
  apart hname hname' := hs.apart (h.named hname) (h.named hname')
  read d hd n hn := by
    rw [h.cells]
    obtain ⟨i, hi⟩ := List.mem_iff_getElem?.mp hd
    rcases h.added hi with hi | ⟨-, hreads⟩
    · exact hs.read d (List.mem_of_getElem? hi) n hn
    · exact hreads n hn

theorem length_updateBridge (s : Signals κ) (number : Nat) (change : Bridge → Bridge) :
    (s.updateBridge number change).bridges.length = s.bridges.length :=
  List.length_modify ..

theorem bridge_updateBridge (s : Signals κ) (number : Nat) (change : Bridge → Bridge)
    (other : Nat) : (s.updateBridge number change).bridge other =
      if number = other ∧ other < s.bridges.length then change (s.bridge other)
      else s.bridge other := by
  rw [bridge_eq, bridge_eq]
  unfold updateBridge
  dsimp only
  rw [List.getElem?_modify]
  cases hb : s.bridges[other]? with
  | none =>
    have hout : ¬(number = other ∧ other < s.bridges.length) :=
      fun h => Nat.not_le.mpr h.2 (List.getElem?_eq_none_iff.mp hb)
    rw [if_neg hout]
    rfl
  | some b =>
    have hin : other < s.bridges.length := (List.getElem?_eq_some_iff.mp hb).1
    by_cases hn : number = other <;> simp [hn, hin]

/-- To change something else of a bridge does not change its cells. -/
theorem names_updateBridge {change : Bridge → Bridge} (hc : ∀ b, (change b).cells = b.cells)
    {n : Nat} : (s.updateBridge number change).Names bridge key n ↔ s.Names bridge key n := by
  unfold Names
  rw [bridge_updateBridge]
  split
  · rw [hc]
  · rfl

theorem subscription_updateBridge {change : Bridge → Bridge}
    (hc : ∀ b, (change b).subscription = b.subscription) (b : Nat) :
    ((s.updateBridge number change).bridge b).subscription = (s.bridge b).subscription := by
  rw [bridge_updateBridge]
  split
  · exact hc _
  · rfl

theorem bridge_addBridge_old (subscription : Nat) (h : bridge < s.bridges.length) :
    (s.addBridge subscription).2.bridge bridge = s.bridge bridge := by
  have hold : (s.addBridge subscription).2.bridges[bridge]? = s.bridges[bridge]? :=
    List.getElem?_append_left h
  rw [bridge_eq, bridge_eq, hold]

theorem bridge_addBridge_new (s : Signals κ) (subscription : Nat) :
    (s.addBridge subscription).2.bridge s.bridges.length = ⟨subscription, [], []⟩ := by
  have hnew : (s.addBridge subscription).2.bridges[s.bridges.length]? =
      some ⟨subscription, [], []⟩ := List.getElem?_concat_length
  rw [bridge_eq, hnew]
  rfl

theorem length_addBridge (s : Signals κ) (subscription : Nat) :
    (s.addBridge subscription).2.bridges.length = s.bridges.length + 1 :=
  List.length_append

theorem names_addBridge {subscription n : Nat} :
    (s.addBridge subscription).2.Names bridge key n ↔ s.Names bridge key n := by
  unfold Names
  rcases Nat.lt_trichotomy bridge s.bridges.length with hlt | rfl | hgt
  · rw [bridge_addBridge_old _ hlt]
  · rw [bridge_addBridge_new, bridge_eq, List.getElem?_eq_none (Nat.le_refl _)]
    rfl
  · rw [bridge_eq, bridge_eq, List.getElem?_eq_none (Nat.le_of_lt hgt), List.getElem?_eq_none]
    rw [length_addBridge]
    exact hgt

theorem addBridge_spared (s : Signals κ) (subscription : Nat) :
    s.Spared (s.addBridge subscription).2 where
  cells := rfl
  named := names_addBridge.mp
  kept := id
  added := .inl
  bridges := (length_addBridge s subscription).symm ▸ Nat.le_succ _
  subscribed hb := by rw [bridge_addBridge_old _ hb]

theorem closeBridge_spared (s : Signals κ) (number : Nat) : s.Spared (s.closeBridge number) where
  cells := rfl
  named {bridge key n} h := by
    unfold Names closeBridge at h
    rw [bridge_updateBridge] at h
    split at h
    · cases h
    · exact h
  kept := id
  added := .inl
  bridges := Nat.le_of_eq (length_updateBridge _ _ _).symm
  subscribed _ := subscription_updateBridge (by intro; rfl) _

/-- A bridge that is closed is the only one to forget its cells. -/
theorem names_closeBridge (h : bridge ≠ number) {n : Nat} (hname : s.Names bridge key n) :
    (s.closeBridge number).Names bridge key n := by
  unfold Names closeBridge at *
  rwa [bridge_updateBridge, if_neg fun hsame => h hsame.1.symm]

theorem addEffect_spared (s : Signals κ) (bridge derived : Nat) (callback : κ) :
    s.Spared (s.addEffect bridge derived callback).2 where
  cells := rfl
  named := (names_updateBridge (by intro; rfl)).mp
  kept := id
  added := .inl
  bridges := Nat.le_of_eq (length_updateBridge _ _ _).symm
  subscribed _ := subscription_updateBridge (by intro; rfl) _

theorem see_spared (s : Signals κ) (number version : Nat) : s.Spared (s.see number version) :=
  ⟨rfl, id, id, .inl, Nat.le_refl _, fun _ => rfl⟩

theorem addDerived_spared (s : Signals κ) (e : Expr) {reads : List Nat}
    (h : ∀ n ∈ reads, n < s.cells.length) : s.Spared (s.addDerived e reads).2 where
  cells := rfl
  named := id
  bridges := Nat.le_refl _
  subscribed _ := rfl
  kept hd := (List.getElem?_append_left (List.getElem?_eq_some_iff.mp hd).1).trans hd
  added {number d} hd := by
    rcases Nat.lt_or_ge number s.derived.length with hlt | hge
    · exact .inl ((List.getElem?_append_left hlt).symm.trans hd)
    · have hd := (List.getElem?_append_right hge).symm.trans hd
      cases hi : number - s.derived.length with
      | zero =>
        rw [hi] at hd
        cases hd
        exact .inr ⟨rfl, h⟩
      | succ i =>
        rw [hi] at hd
        cases hd

/-! ## New cells, and cells that are set -/

/-- A key that the bridge has no cell for is given a new one. -/
structure Opened (s s' : Signals κ) (bridge : Nat) (key : Scalar) (value : Value) : Prop where
  cells : s'.cells = s.cells ++ [⟨value, 0⟩]
  derived : s'.derived = s.derived
  named : ∀ {bridge' key' number}, s'.Names bridge' key' number → s.Names bridge' key' number ∨
    bridge' = bridge ∧ (key == key') = true ∧ number = s.cells.length
  kept : ∀ {bridge' key' number}, s.Names bridge' key' number → s'.Names bridge' key' number
  bridges : s'.bridges.length = s.bridges.length
  subscribed : ∀ b, (s'.bridge b).subscription = (s.bridge b).subscription

theorem cellOf_opened (value : Value) (h : (s.bridge bridge).cells.get? key = none) :
    (s.cellOf bridge key value).1 = s.cells.length ∧
      s.Opened (s.cellOf bridge key value).2 bridge key value := by
  unfold cellOf
  rw [h]
  refine ⟨rfl, rfl, rfl, fun {bridge' key' number} hname => ?_,
    fun {bridge' key' number} hname => ?_,
    length_updateBridge _ _ _, subscription_updateBridge (by intro; rfl)⟩
  · unfold Names at hname
    dsimp only at hname
    rw [bridge_updateBridge] at hname
    split at hname
    · rename_i hsame
      dsimp only at hname
      rw [Dict.get?_put] at hname
      split at hname
      · rename_i hkey
        exact .inr ⟨hsame.1.symm, hkey, (Option.some.inj hname).symm⟩
      · exact .inl hname
    · exact .inl hname
  · unfold Names at hname ⊢
    dsimp only
    rw [bridge_updateBridge]
    split
    · rename_i hsame
      dsimp only
      rw [Dict.get?_put]
      split
      · rename_i hkey
        rw [← hsame.1, ← Dict.get?_congr _ hkey, h] at hname
        cases hname
      · exact hname
    · exact hname

theorem cellOf_known (value : Value) (h : s.Names bridge key number) :
    s.cellOf bridge key value = (number, s) := by
  unfold Names at h
  unfold cellOf
  rw [h]

theorem Opened.grows {value : Value} (h : s.Opened s' bridge key value) (other : Nat) :
    s.Grows other s' where
  cells hcell := by
    refine ⟨_, ?_, Nat.le_refl _, fun _ => rfl⟩
    rw [h.cells]
    exact (List.getElem?_append_left (List.getElem?_eq_some_iff.mp hcell).1).trans hcell
  derived hd := ⟨_, by rw [h.derived]; exact hd⟩
  named hname := (h.named hname).imp_right fun hnew => Nat.le_of_eq hnew.2.2.symm
  bridges := Nat.le_of_eq h.bridges.symm
  subscribed _ := h.subscribed _

theorem Opened.inOrder {value : Value} (h : s.Opened s' bridge key value) (hs : s.InOrder) :
    s'.InOrder where
  named hname := by
    rw [h.cells, List.length_append]
    rcases h.named hname with hname | ⟨-, -, rfl⟩
    · exact Nat.lt_succ_of_lt (hs.named hname)
    · exact Nat.lt_succ_self _
  apart hname hname' := by
    rcases h.named hname with hname | ⟨rfl, hkey, rfl⟩
    · rcases h.named hname' with hname' | ⟨rfl, hkey', rfl⟩
      · exact hs.apart hname hname'
      · exact absurd (hs.named hname) (Nat.lt_irrefl _)
    · rcases h.named hname' with hname' | ⟨rfl, hkey', -⟩
      · exact absurd (hs.named hname') (Nat.lt_irrefl _)
      · exact ⟨rfl, BEq.trans (BEq.symm hkey') hkey⟩
  read d hd n hn := by
    rw [h.derived] at hd
    exact Nat.lt_of_lt_of_le (hs.read d hd n hn) (h.grows bridge).length_le

theorem cellOf_lt (hs : s.InOrder) (bridge : Nat) (key : Scalar) (value : Value) :
    (s.cellOf bridge key value).1 < (s.cellOf bridge key value).2.cells.length := by
  cases hget : (s.bridge bridge).cells.get? key with
  | some number =>
    rw [cellOf_known value hget]
    exact hs.named hget
  | none =>
    obtain ⟨hnumber, hopened⟩ := cellOf_opened value hget
    rw [hnumber, hopened.cells, List.length_append]
    exact Nat.lt_succ_self _

theorem cellOf_names (s : Signals κ) (hb : bridge < s.bridges.length) (key : Scalar)
    (value : Value) :
    (s.cellOf bridge key value).2.Names bridge key (s.cellOf bridge key value).1 ∧
      (∀ key' n, s.Names bridge key' n → (s.cellOf bridge key value).2.Names bridge key' n) ∧
      s.bridges.length = (s.cellOf bridge key value).2.bridges.length := by
  cases hget : (s.bridge bridge).cells.get? key with
  | some number =>
    rw [cellOf_known value hget]
    exact ⟨hget, fun _ _ h => h, rfl⟩
  | none =>
    obtain ⟨hnumber, hopened⟩ := cellOf_opened value hget
    refine ⟨?_, fun _ _ => hopened.kept, hopened.bridges.symm⟩
    unfold Names cellOf
    rw [hget]
    dsimp only
    rw [bridge_updateBridge, if_pos ⟨rfl, hb⟩]
    exact (Dict.get?_put _ _ _ _).trans (if_pos BEq.rfl)

/-- A cell that is set holds another value under a new version. -/
structure Turned (s s' : Signals κ) (number : Nat) (value : Value) : Prop where
  there : ∃ cell, s.cells[number]? = some cell ∧
    s'.cells[number]? = some ⟨value, cell.version + 1⟩
  others : ∀ {n : Nat}, n ≠ number → s'.cells[n]? = s.cells[n]?
  derived : s'.derived = s.derived
  bridges : s'.bridges = s.bridges
  effects : s'.effects = s.effects

theorem setCell_turned {value : Value} (h : s.setCell? number value = some s') :
    s.Turned s' number value := by
  unfold setCell? at h
  split at h
  · cases h
  · rename_i cell hcell
    split at h
    · cases h
    · cases h
      have hlt : number < s.cells.length := (List.getElem?_eq_some_iff.mp hcell).1
      refine ⟨⟨cell, hcell, List.getElem?_set_self hlt⟩, fun hn => ?_, rfl, rfl, rfl⟩
      exact List.getElem?_set_ne (Ne.symm hn)

/-- A cell that is not set holds the value, unless there is none. -/
theorem setCell_same {value : Value} {cell : Cell} (h : s.setCell? number value = none)
    (hcell : s.cells[number]? = some cell) : cell.value.looksLike value = true := by
  unfold setCell? at h
  rw [hcell] at h
  dsimp only at h
  split at h
  · rename_i hsame
    exact Value.looksLike_of_isSame hsame
  · cases h

theorem Turned.named {value : Value} (h : s.Turned s' number value) {n : Nat} :
    s'.Names bridge key n ↔ s.Names bridge key n := by
  unfold Names Signals.bridge
  rw [h.bridges]

theorem Turned.grows {value : Value} (h : s.Turned s' number value) (bridge : Nat) :
    s.Grows bridge s' where
  cells {n cell} hcell := by
    by_cases hn : n = number
    · subst hn
      obtain ⟨cell', hcell', hset⟩ := h.there
      cases hcell'.symm.trans hcell
      exact ⟨_, hset, Nat.le_succ _, fun hv => absurd hv (Nat.succ_ne_self _)⟩
    · exact ⟨cell, (h.others hn).trans hcell, Nat.le_refl _, fun _ => rfl⟩
  derived hd := ⟨_, by rw [h.derived]; exact hd⟩
  named hname := .inl (h.named.mp hname)
  bridges := Nat.le_of_eq (congrArg _ h.bridges.symm)
  subscribed _ := by rw [bridge_eq, bridge_eq, h.bridges]

theorem Turned.inOrder {value : Value} (h : s.Turned s' number value) (hs : s.InOrder) :
    s'.InOrder where
  named hname := Nat.lt_of_lt_of_le (hs.named (h.named.mp hname)) (h.grows 0).length_le
  apart hname hname' := hs.apart (h.named.mp hname) (h.named.mp hname')
  read d hd n hn := by
    rw [h.derived] at hd
    exact Nat.lt_of_lt_of_le (hs.read d hd n hn) (h.grows 0).length_le

/-! ## What is remembered -/

theorem mem_zip_map {α β : Type} {f : α → β} {items : List α} {e : α × β} :
    e ∈ items.zip (items.map f) ↔ e.1 ∈ items ∧ e.2 = f e.1 := by
  induction items with
  | nil => simp
  | cons a rest ih =>
    obtain ⟨b, c⟩ := e
    rw [List.map_cons, List.zip_cons_cons, List.mem_cons, ih, List.mem_cons, Prod.mk.injEq]
    constructor
    · rintro (⟨rfl, rfl⟩ | ⟨hb, hc⟩)
      · exact ⟨.inl rfl, rfl⟩
      · exact ⟨.inr hb, hc⟩
    · rintro ⟨rfl | hb, hc⟩
      · exact .inl ⟨rfl, hc⟩
      · exact .inr ⟨hb, hc⟩

/-- What is read without being computed is remembered, from cells of the versions of now. -/
theorem fresh_some {d : Derived} {v : Value} (h : s.fresh? d = some v) :
    ∃ memo, d.memo = some memo ∧ memo.seen = s.versions d ∧ memo.value = v := by
  unfold fresh? at h
  obtain ⟨memo, hmemo, hseen⟩ := Option.bind_eq_some_iff.mp h
  split at hseen
  · rename_i hversions
    exact ⟨memo, hmemo, hversions, Option.some.inj hseen⟩
  · cases hseen

theorem derived_remember (s : Signals κ) (number : Nat) (memo : Memo) (n : Nat) :
    (s.remember number memo).derived[n]? =
      s.derived[n]?.map fun d => if number = n then { d with memo := some memo } else d := by
  unfold remember
  dsimp only
  rw [List.getElem?_modify]
  cases s.derived[n]? with
  | none => split <;> rfl
  | some d => split <;> simp [*]

theorem remember_grows (s : Signals κ) (number : Nat) (memo : Memo) (bridge : Nat) :
    s.Grows bridge (s.remember number memo) where
  cells h := ⟨_, h, Nat.le_refl _, fun _ => rfl⟩
  derived {n d} hd := by
    rw [derived_remember, hd]
    by_cases hn : number = n
    · exact ⟨some memo, by simp [hn]⟩
    · exact ⟨d.memo, by simp [hn]⟩
  named h := .inl h
  bridges := Nat.le_refl _
  subscribed _ := rfl

theorem remember_inOrder (hs : s.InOrder) (memo : Memo) : (s.remember number memo).InOrder where
  named h := hs.named h
  apart h h' := hs.apart h h'
  read d hd n hn := by
    obtain ⟨i, hi⟩ := List.mem_iff_getElem?.mp hd
    rw [derived_remember] at hi
    obtain ⟨d', hd', rfl⟩ := Option.map_eq_some_iff.mp hi
    refine hs.read d' (List.mem_of_getElem? hd') n ?_
    split at hn
    · exact hn
    · exact hn

end Signals
end Switchboard
