-- What heaps hold. Adding an entry adds it and nothing else, and taking the top takes it and
-- nothing else, whether or not the entries can be compared: rising and sinking only change places.
-- Where all entries can be compared, each stays before those below it, so that the top comes first
-- of all.
import Switchboard.Heap
namespace Switchboard.Heap

variable {α : Type} (before : α → α → Bool)

theorem toList_of_top {h : Heap α} {x : α} (hx : h.top? = some x) :
    ∃ rest, h.toList = x :: rest ∧ ∀ y, (h.setTop y).toList = y :: rest := by
  cases h with
  | empty => cases hx
  | node top l r =>
    cases hx
    exact ⟨l.toList ++ r.toList, rfl, fun _ => rfl⟩

theorem toList_of_no_top {h : Heap α} (hx : h.top? = none) : h.toList = [] := by
  cases h with
  | empty => rfl
  | node top l r => cases hx

theorem toList_map (change : α → α) (h : Heap α) :
    (h.map change).toList = h.toList.map change := by
  induction h with
  | empty => rfl
  | node x l r ihl ihr => simp only [map, toList, List.map_cons, List.map_append, ihl, ihr]

/-! ## Rising -/

/-- Has an entry come to a heap, and to its top if it says so? -/
structure Holds (rest : List α) (x : α) (r : Bool × Heap α) : Prop where
  perm : r.2.toList.Perm (x :: rest)
  top : r.1 = true → r.2.top? = some x

theorem Holds.exchanged {rest : List α} {x : α} {r : Bool × Heap α} (h : Holds rest x r)
    (hrose : r.1 = true) (y : α) : (r.2.setTop y).toList.Perm (y :: rest) := by
  obtain ⟨others, hlist, hset⟩ := toList_of_top (h.top hrose)
  have hothers : others.Perm rest := (List.perm_cons x).mp (hlist ▸ h.perm)
  rw [hset y]
  exact hothers.cons y

theorem holds_riseLeft {below : List α} {x y : α} {left : Bool × Heap α} (r : Heap α)
    (h : Holds below x left) :
    Holds (y :: (below ++ r.toList)) x (riseLeft before x y left.1 left.2 r) := by
  unfold riseLeft
  split
  · rename_i hrises
    have hrose : left.1 = true := (Bool.and_eq_true_iff.mp hrises).1
    exact ⟨((h.exchanged hrose y).append_right r.toList).cons x, fun _ => rfl⟩
  · refine ⟨?_, by simp⟩
    have hplaces : (y :: (left.2.toList ++ r.toList)).Perm (y :: x :: (below ++ r.toList)) :=
      (h.perm.append_right r.toList).cons y
    exact hplaces.trans (List.Perm.swap x y _)

theorem holds_riseRight {below : List α} {x y : α} {right : Bool × Heap α} (l : Heap α)
    (h : Holds below x right) :
    Holds (y :: (l.toList ++ below)) x (riseRight before x y right.1 l right.2) := by
  unfold riseRight
  split
  · rename_i hrises
    have hrose : right.1 = true := (Bool.and_eq_true_iff.mp hrises).1
    have hplaces : (l.toList ++ (right.2.setTop y).toList).Perm (y :: (l.toList ++ below)) :=
      ((h.exchanged hrose y).append_left l.toList).trans List.perm_middle
    exact ⟨hplaces.cons x, fun _ => rfl⟩
  · refine ⟨?_, by simp⟩
    have hplaces : (l.toList ++ right.2.toList).Perm (x :: (l.toList ++ below)) :=
      (h.perm.append_left l.toList).trans List.perm_middle
    exact (hplaces.cons y).trans (List.Perm.swap x y _)

theorem holds_insertAt (x : α) (h : Heap α) (turns : List Bool) :
    Holds h.toList x (insertAt before x h turns) := by
  induction h generalizing turns with
  | empty => exact ⟨List.Perm.refl _, fun _ => rfl⟩
  | node y l r ihl ihr =>
    unfold insertAt
    split
    · exact holds_riseRight before l (ihr turns.tail)
    · exact holds_riseLeft before r (ihl turns.tail)

theorem toList_push (x : α) (h : Heap α) : (h.push before x).toList.Perm (x :: h.toList) :=
  (holds_insertAt before x h _).perm

/-! ## Sinking -/

/-- The gap is filled from the top of a side that has one. -/
theorem mover_cases (l r : Option α) :
    (l = none ∧ r = none ∧ mover before l r = none) ∨
      (∃ y, l = some y ∧ mover before l r = some (y, false)) ∨
      ∃ y, r = some y ∧ mover before l r = some (y, true) := by
  cases l with
  | none =>
    cases r with
    | none => exact .inl ⟨rfl, rfl, rfl⟩
    | some z => exact .inr (.inr ⟨z, rfl, rfl⟩)
  | some y =>
    cases r with
    | none => exact .inr (.inl ⟨y, rfl, rfl⟩)
    | some z =>
      unfold mover
      by_cases hb : before y z = true
      · exact .inr (.inl ⟨y, rfl, if_pos hb⟩)
      · exact .inr (.inr ⟨z, rfl, if_neg hb⟩)

theorem holds_refill {t : α} {rest : List α} (x : α) {h : Heap α} (hlist : h.toList = t :: rest) :
    Holds rest x (refill before x h) := by
  induction h generalizing t rest with
  | empty => cases hlist
  | node t' l r ihl ihr =>
    cases hlist
    obtain ⟨hl, hr, hm⟩ | ⟨y, hl, hm⟩ | ⟨y, hr, hm⟩ :=
      mover_cases before l.top? r.top?
    · unfold refill
      rw [hm]
      exact ⟨List.Perm.refl _, fun _ => rfl⟩
    · obtain ⟨others, hothers, -⟩ := toList_of_top hl
      unfold refill
      rw [hm, hothers]
      exact holds_riseLeft before r (ihl hothers)
    · obtain ⟨others, hothers, -⟩ := toList_of_top hr
      have hrise := holds_riseRight before l (y := y) (ihr hothers)
      unfold refill
      rw [hm, hothers]
      exact ⟨hrise.perm.trans (List.perm_middle.symm.cons x), hrise.top⟩

/-! ## Taking out -/

/-- Has an entry been taken from a heap? The top stays, unless it was the only entry. -/
structure Taken (h : Heap α) (r : α × Heap α) : Prop where
  perm : (r.1 :: r.2.toList).Perm h.toList
  top : h.toList = [r.1] ∧ r.2 = empty ∨ r.2.top? = h.top?

theorem taken_left {l : Heap α} {p : α × Heap α} (y : α) (r : Heap α) (h : Taken l p) :
    Taken (node y l r) (p.1, node y p.2 r) := by
  refine ⟨?_, .inr rfl⟩
  have hplaces : (p.1 :: (p.2.toList ++ r.toList)).Perm (l.toList ++ r.toList) :=
    h.perm.append_right r.toList
  exact (List.Perm.swap y p.1 _).trans (hplaces.cons y)

theorem taken_right {r : Heap α} {p : α × Heap α} (y : α) (l : Heap α) (h : Taken r p) :
    Taken (node y l r) (p.1, node y l p.2) := by
  refine ⟨?_, .inr rfl⟩
  have hplaces : (p.1 :: (l.toList ++ p.2.toList)).Perm (l.toList ++ r.toList) :=
    List.perm_middle.symm.trans (h.perm.append_left l.toList)
  exact (List.Perm.swap y p.1 _).trans (hplaces.cons y)

/-- Only from an empty heap is nothing taken. -/
theorem takeAt_cases (h : Heap α) (turns : List Bool) :
    (h = empty ∧ takeAt h turns = none) ∨ ∃ p, takeAt h turns = some p ∧ Taken h p := by
  induction h generalizing turns with
  | empty => exact .inl ⟨rfl, rfl⟩
  | node y l r ihl ihr =>
    right
    unfold takeAt
    obtain ⟨rfl, hl⟩ | ⟨p, hl, hp⟩ := ihl turns.tail <;>
      obtain ⟨rfl, hr⟩ | ⟨q, hr, hq⟩ := ihr turns.tail <;> simp only [hl, hr, Option.map_none,
        Option.map_some]
    · refine ⟨(y, empty), by split <;> rfl, List.Perm.refl _, .inl ⟨rfl, rfl⟩⟩
    · exact ⟨_, by split <;> rfl, taken_right y empty hq⟩
    · exact ⟨_, by split <;> rfl, taken_left y empty hp⟩
    · split
      · exact ⟨_, rfl, taken_right y l hq⟩
      · exact ⟨_, rfl, taken_left y r hp⟩

/-- Dropping the top drops it and nothing else. -/
theorem toList_pop {h : Heap α} {t : α} (ht : h.top? = some t) :
    (t :: (h.pop before).toList).Perm h.toList := by
  obtain ⟨rest, hlist, -⟩ := toList_of_top ht
  unfold pop
  obtain ⟨rfl, -⟩ | ⟨⟨x, left⟩, hp, htaken⟩ := takeAt_cases h (path h.size)
  · cases ht
  · rw [hp]
    rcases htaken.top with ⟨honly, rfl⟩ | htop
    · cases hlist.symm.trans honly
      rw [honly]
      exact List.Perm.refl _
    · obtain ⟨others, hothers, -⟩ := toList_of_top (htop.trans ht)
      have hfilled : (left.refill before x).2.toList.Perm (x :: others) :=
        (holds_refill before x hothers).perm
      have hall : (x :: t :: others).Perm h.toList := hothers ▸ htaken.perm
      exact ((hfilled.cons t).trans (List.Perm.swap x t others)).trans hall

/-! ## Order -/

/-- Can all entries be compared? Those of which neither stands before the other count as level. -/
structure Ranks (before : α → α → Bool) : Prop where
  asymm : ∀ {x y}, before x y = true → before y x = false
  trans : ∀ {x y z}, before y x = false → before z y = false → before z x = false

/-- Is no entry before one above it? -/
def Ordered : Heap α → Prop
  | empty => True
  | node x l r => (∀ y ∈ l.toList ++ r.toList, before y x = false) ∧ l.Ordered ∧ r.Ordered

variable {before}

/-- The top of an ordered heap comes first. -/
theorem Ordered.top_first (hb : Ranks before) {h : Heap α} (ho : h.Ordered before) {t : α}
    (ht : h.top? = some t) : ∀ y ∈ h.toList, before y t = false := by
  cases h with
  | empty => cases ht
  | node x l r =>
    cases ht
    intro y hy
    rcases List.mem_cons.mp hy with rfl | hy
    · cases hyy : before y y with
      | false => rfl
      | true => exact hyy.symm.trans (hb.asymm hyy)
    · exact ho.1 y hy

/-- Another entry may take the top if it is not after what is below. -/
theorem Ordered.setTop {h : Heap α} (ho : h.Ordered before) {y : α}
    (hy : ∀ z ∈ h.toList.tail, before z y = false) : (h.setTop y).Ordered before := by
  cases h with
  | empty => trivial
  | node x l r => exact ⟨hy, ho.2⟩

theorem Ordered.map {h : Heap α} (ho : h.Ordered before) {change : α → α}
    (hc : ∀ x y, before (change x) (change y) = before x y) : (h.map change).Ordered before := by
  induction h with
  | empty => trivial
  | node x l r ihl ihr =>
    obtain ⟨htop, hl, hr⟩ := ho
    refine ⟨fun y hy => ?_, ihl hl, ihr hr⟩
    rw [toList_map, toList_map, ← List.map_append] at hy
    obtain ⟨z, hz, rfl⟩ := List.mem_map.mp hy
    rw [hc]
    exact htop z hz

/-- Has an entry come to a heap that is in order? If it is not at the top, it is not before all
else. -/
structure Risen (before : α → α → Bool) (rest : List α) (x : α) (r : Bool × Heap α) : Prop
    extends Holds rest x r where
  ordered : r.2.Ordered before
  stays : r.1 = false → ∃ y ∈ rest, before x y = false

namespace Risen

variable {below : List α} {x y : α} {side : Bool × Heap α}

/-- An entry that changes places with the one above is before all else, and the other one is before
what it is put above. -/
theorem overtakes (hb : Ranks before) (h : Risen before below x side)
    (hy : ∀ z ∈ below, before z y = false) (hrises : (side.1 && before x y) = true) :
    (side.2.setTop y).Ordered before ∧ ∀ z ∈ (side.2.setTop y).toList, before z x = false := by
  obtain ⟨hrose, hxy⟩ := Bool.and_eq_true_iff.mp hrises
  constructor
  · obtain ⟨others, hlist, -⟩ := toList_of_top (h.top hrose)
    have hothers : others.Perm below := (List.perm_cons x).mp (hlist ▸ h.perm)
    refine h.ordered.setTop fun z hz => hy z (hothers.subset ?_)
    rwa [hlist] at hz
  · intro z hz
    rcases List.mem_cons.mp ((h.exchanged hrose y).subset hz) with rfl | hz
    · exact hb.asymm hxy
    · exact hb.trans (hb.asymm hxy) (hy z hz)

/-- One that does not is not before the one above, which is before all that is below it. -/
theorem rests (hb : Ranks before) (h : Risen before below x side)
    (hy : ∀ z ∈ below, before z y = false) (hrises : ¬ (side.1 && before x y) = true) :
    before x y = false ∧ ∀ z ∈ side.2.toList, before z y = false := by
  have hxy : before x y = false := by
    cases hrose : side.1 with
    | true => simpa [hrose] using hrises
    | false =>
      obtain ⟨w, hw, hxw⟩ := h.stays hrose
      exact hb.trans (hy w hw) hxw
  refine ⟨hxy, fun z hz => ?_⟩
  rcases List.mem_cons.mp (h.perm.subset hz) with rfl | hz
  · exact hxy
  · exact hy z hz

theorem riseLeft (hb : Ranks before) (h : Risen before below x side) {r : Heap α}
    (hr : r.Ordered before) (hy : ∀ z ∈ below ++ r.toList, before z y = false) :
    Risen before (y :: (below ++ r.toList)) x (riseLeft before x y side.1 side.2 r) := by
  obtain ⟨hbelow, hright⟩ := List.forall_mem_append.mp hy
  refine ⟨holds_riseLeft before r h.toHolds, ?_, ?_⟩ <;> unfold Heap.riseLeft <;> split
  · rename_i hrises
    obtain ⟨hordered, hfirst⟩ := h.overtakes hb hbelow hrises
    have hxy := (Bool.and_eq_true_iff.mp hrises).2
    exact ⟨List.forall_mem_append.mpr ⟨hfirst, fun z hz => hb.trans (hb.asymm hxy) (hright z hz)⟩,
      hordered, hr⟩
  · rename_i hrises
    exact ⟨List.forall_mem_append.mpr ⟨(h.rests hb hbelow hrises).2, hright⟩, h.ordered, hr⟩
  · simp
  · rename_i hrises
    exact fun _ => ⟨y, List.mem_cons_self, (h.rests hb hbelow hrises).1⟩

theorem riseRight (hb : Ranks before) (h : Risen before below x side) {l : Heap α}
    (hl : l.Ordered before) (hy : ∀ z ∈ l.toList ++ below, before z y = false) :
    Risen before (y :: (l.toList ++ below)) x (riseRight before x y side.1 l side.2) := by
  obtain ⟨hleft, hbelow⟩ := List.forall_mem_append.mp hy
  refine ⟨holds_riseRight before l h.toHolds, ?_, ?_⟩ <;> unfold Heap.riseRight <;> split
  · rename_i hrises
    obtain ⟨hordered, hfirst⟩ := h.overtakes hb hbelow hrises
    have hxy := (Bool.and_eq_true_iff.mp hrises).2
    exact ⟨List.forall_mem_append.mpr ⟨fun z hz => hb.trans (hb.asymm hxy) (hleft z hz), hfirst⟩,
      hl, hordered⟩
  · rename_i hrises
    exact ⟨List.forall_mem_append.mpr ⟨hleft, (h.rests hb hbelow hrises).2⟩, hl, h.ordered⟩
  · simp
  · rename_i hrises
    exact fun _ => ⟨y, List.mem_cons_self, (h.rests hb hbelow hrises).1⟩

end Risen

theorem risen_insertAt (hb : Ranks before) (x : α) {h : Heap α} (ho : h.Ordered before)
    (turns : List Bool) : Risen before h.toList x (insertAt before x h turns) := by
  induction h generalizing turns with
  | empty =>
    refine ⟨⟨List.Perm.refl _, fun _ => rfl⟩, ⟨fun y hy => ?_, trivial, trivial⟩, by simp [insertAt]⟩
    cases hy
  | node y l r ihl ihr =>
    obtain ⟨htop, hl, hr⟩ := ho
    unfold insertAt
    split
    · exact (ihr hr turns.tail).riseRight hb hl htop
    · exact (ihl hl turns.tail).riseLeft hb hr htop

/-- Adding an entry keeps the order. -/
theorem Ordered.push (hb : Ranks before) (x : α) {h : Heap α} (ho : h.Ordered before) :
    (h.push before x).Ordered before :=
  (risen_insertAt hb x ho _).ordered

/-- What fills the gap from the left is not after the top on the right. -/
theorem mover_left (hb : Ranks before) {l : Option α} {y z : α}
    (hm : mover before l (some z) = some (y, false)) : before z y = false := by
  cases l with
  | none => cases hm
  | some w =>
    by_cases hwz : before w z = true
    · cases (if_pos hwz).symm.trans hm
      exact hb.asymm hwz
    · cases (if_neg hwz).symm.trans hm

/-- What fills it from the right is not after the top on the left. -/
theorem mover_right {r : Option α} {y z : α} (hm : mover before (some z) r = some (y, true)) :
    before z y = false := by
  cases r with
  | none => cases hm
  | some w =>
    by_cases hzw : before z w = true
    · cases (if_pos hzw).symm.trans hm
    · cases (if_neg hzw).symm.trans hm
      exact Bool.eq_false_iff.mpr hzw

/-- What is not after the top of an ordered heap is not after anything in it. -/
theorem Ordered.before_all (hb : Ranks before) {h : Heap α} (ho : h.Ordered before) {y : α}
    (hy : ∀ z, h.top? = some z → before z y = false) : ∀ z ∈ h.toList, before z y = false := by
  intro z hz
  cases h with
  | empty => cases hz
  | node t l r => exact hb.trans (hy t rfl) (ho.top_first hb rfl z hz)

theorem risen_refill (hb : Ranks before) (x : α) {h : Heap α} (ho : h.Ordered before) {t : α}
    {rest : List α} (hlist : h.toList = t :: rest) : Risen before rest x (refill before x h) := by
  induction h generalizing t rest with
  | empty => cases hlist
  | node t' l r ihl ihr =>
    cases hlist
    obtain ⟨htop, hl, hr⟩ := ho
    obtain ⟨hnl, hnr, hm⟩ | ⟨y, hy, hm⟩ | ⟨y, hy, hm⟩ := mover_cases before l.top? r.top?
    · have hempty : l.toList ++ r.toList = [] := by
        rw [toList_of_no_top hnl, toList_of_no_top hnr, List.append_nil]
      refine ⟨holds_refill before x rfl, ?_, ?_⟩
      · unfold refill
        rw [hm]
        refine ⟨fun z hz => ?_, hl, hr⟩
        rw [hempty] at hz
        cases hz
      · unfold refill
        rw [hm]
        nofun
    · obtain ⟨others, hothers, -⟩ := toList_of_top hy
      have hright : ∀ z ∈ r.toList, before z y = false :=
        hr.before_all hb fun z hz => mover_left hb (hz ▸ hm)
      have hleft : ∀ z ∈ others, before z y = false := fun z hz =>
        hl.top_first hb hy z (hothers ▸ List.mem_cons_of_mem y hz)
      unfold refill
      rw [hm, hothers]
      exact (ihl hl hothers).riseLeft hb hr (List.forall_mem_append.mpr ⟨hleft, hright⟩)
    · obtain ⟨others, hothers, -⟩ := toList_of_top hy
      have hleft : ∀ z ∈ l.toList, before z y = false :=
        hl.before_all hb fun z hz => mover_right (hz ▸ hm)
      have hright : ∀ z ∈ others, before z y = false := fun z hz =>
        hr.top_first hb hy z (hothers ▸ List.mem_cons_of_mem y hz)
      have hrisen := (ihr hr hothers).riseRight hb hl (List.forall_mem_append.mpr ⟨hleft, hright⟩)
      unfold refill
      rw [hm, hothers]
      exact ⟨⟨hrisen.perm.trans (List.perm_middle.symm.cons x), hrisen.top⟩, hrisen.ordered,
        fun hrose => (hrisen.stays hrose).imp fun z hz => ⟨List.perm_middle.symm.subset hz.1, hz.2⟩⟩

/-- An entry is taken from one of the sides, or it was the only one. -/
theorem takeAt_node {y : α} {l r : Heap α} {turns : List Bool} {p : α × Heap α}
    (hp : takeAt (node y l r) turns = some p) :
    (∃ q, takeAt l turns.tail = some q ∧ p = (q.1, node y q.2 r)) ∨
      (∃ q, takeAt r turns.tail = some q ∧ p = (q.1, node y l q.2)) ∨ p = (y, empty) := by
  unfold takeAt at hp
  cases hl : takeAt l turns.tail <;> cases hr : takeAt r turns.tail <;>
    simp only [hl, hr, Option.map_none, Option.map_some] at hp <;> split at hp <;> cases hp
  · exact .inr (.inr rfl)
  · exact .inr (.inr rfl)
  · exact .inr (.inl ⟨_, rfl, rfl⟩)
  · exact .inr (.inl ⟨_, rfl, rfl⟩)
  · exact .inl ⟨_, rfl, rfl⟩
  · exact .inl ⟨_, rfl, rfl⟩
  · exact .inr (.inl ⟨_, rfl, rfl⟩)
  · exact .inl ⟨_, rfl, rfl⟩

theorem mem_of_takeAt {h : Heap α} {turns : List Bool} {p : α × Heap α}
    (hp : takeAt h turns = some p) : ∀ z ∈ p.2.toList, z ∈ h.toList := by
  intro z hz
  obtain ⟨-, hnone⟩ | ⟨p', hp', htaken⟩ := takeAt_cases h turns
  · cases hnone.symm.trans hp
  · cases hp'.symm.trans hp
    exact htaken.perm.subset (List.mem_cons_of_mem _ hz)

/-- Taking an entry from the end of a path leaves the others in order. -/
theorem ordered_takeAt {h : Heap α} (ho : h.Ordered before) {turns : List Bool} {p : α × Heap α}
    (hp : takeAt h turns = some p) : p.2.Ordered before := by
  induction h generalizing turns p with
  | empty => cases hp
  | node y l r ihl ihr =>
    obtain ⟨htop, hl, hr⟩ := ho
    obtain ⟨hleft, hright⟩ := List.forall_mem_append.mp htop
    obtain ⟨q, hq, rfl⟩ | ⟨q, hq, rfl⟩ | rfl := takeAt_node hp
    · refine ⟨List.forall_mem_append.mpr ⟨fun z hz => ?_, hright⟩, ihl hl hq, hr⟩
      exact hleft z (mem_of_takeAt hq z hz)
    · refine ⟨List.forall_mem_append.mpr ⟨hleft, fun z hz => ?_⟩, hl, ihr hr hq⟩
      exact hright z (mem_of_takeAt hq z hz)
    · trivial

/-- Dropping the top keeps the order. -/
theorem Ordered.pop (hb : Ranks before) {h : Heap α} (ho : h.Ordered before) :
    (h.pop before).Ordered before := by
  unfold Heap.pop
  cases hp : h.takeAt (path h.size) with
  | none => trivial
  | some p =>
    have hrest := ordered_takeAt ho hp
    dsimp only
    cases hlist : p.2.toList with
    | nil =>
      cases hp2 : p.2 with
      | empty => trivial
      | node t l r =>
        rw [hp2] at hlist
        cases hlist
    | cons t rest => exact (risen_refill hb p.1 hrest hlist).ordered

end Switchboard.Heap
