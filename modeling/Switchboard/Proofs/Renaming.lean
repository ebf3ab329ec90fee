-- Values up to the identities of freshly built lists. Two evaluations of an expression that start
-- with different supplies of identities build lists that differ in their identities alone: those
-- from a bound on are moved by the same distance. No operator can tell the difference.
import Switchboard.Proofs.Likeness
namespace Switchboard.Value

/-! ## Bounds on identities -/

mutual

/-- Does a value hold only lists below the second bound, and in its tables and objects only lists
below the first? So it is with what an evaluation has that began at the first bound and has come to
the second: the lists are its own, but it makes no tables and objects. -/
def fits (n m : Nat) : Value → Bool
  | list a items => decide (a < m) && allFit n m items
  | map _ entries => entriesFit n entries
  | object _ attributes => attributesFit n attributes
  | scalar _ | function _ => true

def allFit (n m : Nat) : List Value → Bool
  | [] => true
  | v :: rest => fits n m v && allFit n m rest

def entriesFit (n : Nat) : List (Scalar × Value) → Bool
  | [] => true
  | (_, v) :: rest => fits n n v && entriesFit n rest

def attributesFit (n : Nat) : List (String × Value) → Bool
  | [] => true
  | (_, v) :: rest => fits n n v && attributesFit n rest

end

/-- Does a value hold only lists below a bound? -/
def isOld (n : Nat) (v : Value) : Bool := v.fits n n

mutual

theorem fits_mono {n m n' m' : Nat} (hn : n ≤ n') (hm : m ≤ m') (v : Value)
    (h : v.fits n m = true) : v.fits n' m' = true := by
  cases v with
  | list a items =>
    simp only [fits, Bool.and_eq_true, decide_eq_true_eq] at h ⊢
    exact ⟨Nat.lt_of_lt_of_le h.1 hm, allFit_mono hn hm items h.2⟩
  | map a entries =>
    simp only [fits] at h ⊢
    exact entriesFit_mono hn entries h
  | object a attributes =>
    simp only [fits] at h ⊢
    exact attributesFit_mono hn attributes h
  | scalar s => rfl
  | function f => rfl

theorem allFit_mono {n m n' m' : Nat} (hn : n ≤ n') (hm : m ≤ m') (items : List Value)
    (h : allFit n m items = true) : allFit n' m' items = true := by
  cases items with
  | nil => rfl
  | cons v rest =>
    simp only [allFit, Bool.and_eq_true] at h ⊢
    exact ⟨fits_mono hn hm v h.1, allFit_mono hn hm rest h.2⟩

theorem entriesFit_mono {n n' : Nat} (hn : n ≤ n') (entries : List (Scalar × Value))
    (h : entriesFit n entries = true) : entriesFit n' entries = true := by
  cases entries with
  | nil => rfl
  | cons e rest =>
    simp only [entriesFit, Bool.and_eq_true] at h ⊢
    exact ⟨fits_mono hn hn e.2 h.1, entriesFit_mono hn rest h.2⟩

theorem attributesFit_mono {n n' : Nat} (hn : n ≤ n') (attributes : List (String × Value))
    (h : attributesFit n attributes = true) : attributesFit n' attributes = true := by
  cases attributes with
  | nil => rfl
  | cons e rest =>
    simp only [attributesFit, Bool.and_eq_true] at h ⊢
    exact ⟨fits_mono hn hn e.2 h.1, attributesFit_mono hn rest h.2⟩

end

theorem allFit_iff {n m : Nat} {items : List Value} :
    allFit n m items = true ↔ ∀ v ∈ items, v.fits n m = true := by
  induction items with
  | nil => simp [allFit]
  | cons v rest ih => simp [allFit, ih]

theorem entriesFit_get? {n : Nat} {entries : Dict Scalar Value} (h : entriesFit n entries = true)
    {key : Scalar} {v : Value} (hv : entries.get? key = some v) : v.isOld n = true := by
  induction entries with
  | nil => cases hv
  | cons e rest ih =>
    simp only [entriesFit, Bool.and_eq_true] at h
    simp only [Dict.get?] at hv
    split at hv
    · cases hv
      exact h.1
    · exact ih h.2 hv

theorem entriesFit_put {n : Nat} {entries : Dict Scalar Value} (key : Scalar) {v : Value}
    (h : entriesFit n entries = true) (hv : v.isOld n = true) :
    entriesFit n (entries.put key v) = true := by
  have hv : v.fits n n = true := hv
  induction entries with
  | nil => simp [Dict.put, entriesFit, hv]
  | cons e rest ih =>
    simp only [entriesFit, Bool.and_eq_true] at h
    unfold Dict.put
    by_cases hk : e.1 == key
    · simp [hk, entriesFit, hv, h.2]
    · simp [hk, entriesFit, h.1, ih h.2]

theorem entriesFit_merge {n : Nat} {entries : Dict Scalar Value}
    {others : List (Scalar × Value)} (h : entriesFit n entries = true)
    (ho : entriesFit n others = true) : entriesFit n (entries.merge others) = true := by
  induction others generalizing entries with
  | nil => exact h
  | cons e rest ih =>
    simp only [entriesFit, Bool.and_eq_true] at ho
    exact ih (entriesFit_put e.1 h ho.1) ho.2

theorem attributesFit_get? {n : Nat} {attributes : Dict String Value}
    (h : attributesFit n attributes = true) {key : String} {v : Value}
    (hv : attributes.get? key = some v) : v.isOld n = true := by
  induction attributes with
  | nil => cases hv
  | cons e rest ih =>
    simp only [attributesFit, Bool.and_eq_true] at h
    simp only [Dict.get?] at hv
    split at hv
    · cases hv
      exact h.1
    · exact ih h.2 hv

/-! ## Moving identities -/

/-- Where an identity is moved: those below the bound stay. -/
def moved (n d a : Nat) : Nat := if n ≤ a then a + d else a

mutual

/-- A value with the identities of its lists moved. -/
def renamed (n d : Nat) : Value → Value
  | list a items => list (moved n d a) (allRenamed n d items)
  | v => v

def allRenamed (n d : Nat) : List Value → List Value
  | [] => []
  | v :: rest => renamed n d v :: allRenamed n d rest

end

theorem moved_inj {n d a b : Nat} : moved n d a = moved n d b ↔ a = b := by
  unfold moved
  split <;> split <;> omega

theorem moved_of_lt {n d a : Nat} (h : a < n) : moved n d a = a := by
  unfold moved
  rw [if_neg (by omega)]

theorem moved_of_le {n d a : Nat} (h : n ≤ a) : moved n d a = a + d := if_pos h

theorem allRenamed_eq (n d : Nat) (items : List Value) :
    allRenamed n d items = items.map (renamed n d) := by
  induction items with
  | nil => rfl
  | cons v rest ih => rw [allRenamed, ih, List.map_cons]

mutual

/-- An old value stays as it is. -/
theorem renamed_of_isOld {n d : Nat} (v : Value) (h : v.isOld n = true) : v.renamed n d = v := by
  cases v with
  | list a items =>
    simp only [isOld, fits, Bool.and_eq_true, decide_eq_true_eq] at h
    rw [renamed, moved_of_lt h.1, allRenamed_of_allOld items h.2]
  | _ => rfl

theorem allRenamed_of_allOld {n d : Nat} (items : List Value) (h : allFit n n items = true) :
    allRenamed n d items = items := by
  cases items with
  | nil => rfl
  | cons v rest =>
    simp only [allFit, Bool.and_eq_true] at h
    rw [allRenamed, renamed_of_isOld v h.1, allRenamed_of_allOld rest h.2]

end

variable {n d : Nat}

/-! ## What cannot tell the difference -/

theorem toNumber_renamed (v : Value) : (v.renamed n d).toNumber = v.toNumber := by
  cases v <;> rfl

theorem number?_renamed (v : Value) : (v.renamed n d).number? = v.number? := by
  cases v <;> rfl

theorem toInt_renamed (v : Value) : (v.renamed n d).toInt = v.toInt := by
  unfold toInt
  rw [toNumber_renamed]

theorem isTruthy_renamed (v : Value) : (v.renamed n d).isTruthy = v.isTruthy := by
  cases v <;> rfl

theorem isIdentical_renamed (v u : Value) :
    (v.renamed n d).isIdentical (u.renamed n d) = v.isIdentical u := by
  cases v <;> cases u
  case list.list a _ b _ =>
    simp only [renamed, isIdentical]
    rw [Bool.eq_iff_iff, beq_iff_eq, beq_iff_eq, moved_inj]
  all_goals rfl

theorem strictEquals_renamed (v u : Value) :
    (v.renamed n d).strictEquals (u.renamed n d) = v.strictEquals u := by
  unfold strictEquals
  rw [number?_renamed, number?_renamed]
  cases hv : v.number? with
  | some x =>
    cases hu : u.number? with
    | some y => rfl
    | none => cases v <;> cases u <;> first | rfl | exact isIdentical_renamed _ _
  | none => cases v <;> cases u <;> first | rfl | exact isIdentical_renamed _ _

mutual

theorem toText_renamed (v : Value) : (v.renamed n d).toText = v.toText := by
  cases v with
  | list a items => rw [renamed, toText, toText, itemTexts_renamed items]
  | _ => rfl

theorem itemTexts_renamed (items : List Value) :
    itemTexts (allRenamed n d items) = itemTexts items := by
  cases items with
  | nil => rfl
  | cons v rest =>
    have hv := toText_renamed v
    have hrest := itemTexts_renamed rest
    cases v with
    | scalar s => cases s <;> (rw [allRenamed, renamed, itemTexts, itemTexts, hrest] <;> nofun)
    | list a items => rw [allRenamed, itemTexts, itemTexts, hv, hrest] <;> nofun
    | _ => rw [allRenamed, renamed, itemTexts, itemTexts, hrest] <;> nofun

end

theorem normalKey_renamed (v : Value) : Expr.normalKey (v.renamed n d) = Expr.normalKey v := by
  cases v with
  | list a items =>
    change (do return .text (← ((list a items).renamed n d).toText) : Except Fault Value) = _
    rw [toText_renamed]
    rfl
  | _ => rfl

theorem looseEquals_renamed (v u : Value) :
    (v.renamed n d).looseEquals (u.renamed n d) = v.looseEquals u := by
  have hv := toText_renamed (n := n) (d := d) v
  have hu := toText_renamed (n := n) (d := d) u
  cases v with
  | scalar s =>
    cases u with
    | list b items =>
      cases s with
      | null => rfl
      | _ =>
        change (do return scalarsEqual _ (.text (← ((list b items).renamed n d).toText)) :
          Except Fault Bool) = _
        rw [hu]
        rfl
    | _ => rfl
  | list a items =>
    cases u with
    | scalar t =>
      cases t with
      | null => rfl
      | _ =>
        change (do return scalarsEqual (.text (← ((list a items).renamed n d).toText)) _ :
          Except Fault Bool) = _
        rw [hv]
        rfl
    | list b others => exact congrArg Except.ok (isIdentical_renamed (list a items) (list b others))
    | _ => rfl
  | _ => cases u <;> rfl

theorem compareBy_renamed (holds : Ordering → Bool) (v u : Value) :
    compareBy holds (v.renamed n d) (u.renamed n d) = compareBy holds v u := by
  cases v with
  | scalar s => cases s <;> cases u <;> rfl
  | _ =>
    cases u with
    | scalar t => cases t <;> rfl
    | _ => rfl

/-- A sum with a container is the texts of both, one after the other. -/
theorem add_joined {v u : Value} (h : v.isScalar = false ∨ u.isScalar = false) :
    v.add u = do
      let x ← v.toText
      let y ← u.toText
      return text (x ++ y) := by
  cases v with
  | scalar s =>
    cases u with
    | scalar t => rcases h with h | h <;> cases h
    | _ => cases s <;> rfl
  | _ =>
    cases u with
    | scalar t => cases t <;> rfl
    | _ => rfl

theorem isScalar_renamed (v : Value) : (v.renamed n d).isScalar = v.isScalar := by
  cases v <;> rfl

theorem add_renamed (v u : Value) : (v.renamed n d).add (u.renamed n d) = v.add u := by
  by_cases h : v.isScalar = true ∧ u.isScalar = true
  · cases v with
    | scalar s =>
      cases u with
      | scalar t => rfl
      | _ => cases h.2
    | _ => cases h.1
  · have hj : v.isScalar = false ∨ u.isScalar = false := by
      cases hv : v.isScalar with
      | false => exact .inl rfl
      | true => exact .inr (Bool.eq_false_iff.mpr fun hu => h ⟨hv, hu⟩)
    have hj' : (v.renamed n d).isScalar = false ∨ (u.renamed n d).isScalar = false := by
      rwa [isScalar_renamed, isScalar_renamed]
    rw [add_joined hj, add_joined hj', toText_renamed, toText_renamed]

theorem unary_renamed (op : UnaryOperator) (v : Value) : op.apply (v.renamed n d) = op.apply v := by
  cases op <;> simp only [UnaryOperator.apply, toNumber_renamed, isTruthy_renamed, toInt32,
    toInt_renamed]

/-- All operators but those that pick an operand give the very same. -/
theorem binary_renamed (op : BinaryOperator) (h : op.isLogical = false) (v u : Value) :
    op.apply (v.renamed n d) (u.renamed n d) = op.apply v u := by
  cases op with
  | or => cases h
  | and => cases h
  | _ => simp only [BinaryOperator.apply, toNumber_renamed, strictEquals_renamed,
      looseEquals_renamed, compareBy_renamed, add_renamed, onBits, toUInt32, toInt32, Value.shift,
      toInt_renamed]

/-! ## Results that are scalars -/

theorem scalar_of_number {x : Except Fault Number} {r : Value}
    (h : (do return (← x).toValue : Except Fault Value) = .ok r) : ∃ s, r = .scalar s := by
  obtain ⟨y, -, hr⟩ := ok_of_bind_ok h
  cases hr
  cases y with
  | int n => exact ⟨_, rfl⟩
  | float x => exact ⟨_, rfl⟩

theorem scalar_of_truth {x : Except Fault Bool} {f : Bool → Bool} {r : Value}
    (h : (do return bool (f (← x)) : Except Fault Value) = .ok r) : ∃ s, r = .scalar s := by
  obtain ⟨b, -, hr⟩ := ok_of_bind_ok h
  cases hr
  exact ⟨_, rfl⟩

theorem unary_scalar {op : UnaryOperator} {v r : Value} (h : op.apply v = .ok r) :
    ∃ s, r = .scalar s := by
  cases op with
  | not => exact scalar_of_truth h
  | complement =>
    cases h
    exact ⟨_, rfl⟩
  | plus => exact scalar_of_number (x := .ok v.toNumber) h
  | minus => exact scalar_of_number (x := .ok v.toNumber.neg) h
  | increment => exact scalar_of_number h
  | decrement => exact scalar_of_number h

theorem add_scalar {v u r : Value} (h : v.add u = .ok r) : ∃ s, r = .scalar s := by
  have hjoined : ∀ r, (do
      let x ← v.toText
      let y ← u.toText
      return text (x ++ y) : Except Fault Value) = .ok r → ∃ s, r = .scalar s := by
    intro r h
    obtain ⟨x, -, hx⟩ := ok_of_bind_ok h
    obtain ⟨y, -, hy⟩ := ok_of_bind_ok hx
    cases hy
    exact ⟨_, rfl⟩
  unfold add at h
  split at h
  · exact hjoined r h
  · exact hjoined r h
  · exact scalar_of_number h
  · exact hjoined r h

theorem binary_scalar {op : BinaryOperator} (hop : op.isLogical = false) {v u r : Value}
    (h : op.apply v u = .ok r) : ∃ s, r = .scalar s := by
  cases op with
  | or => cases hop
  | and => cases hop
  | equal => exact scalar_of_truth (f := id) h
  | unequal => exact scalar_of_truth h
  | greater => exact scalar_of_truth (f := id) h
  | less => exact scalar_of_truth (f := id) h
  | greaterEqual => exact scalar_of_truth (f := id) h
  | lessEqual => exact scalar_of_truth (f := id) h
  | add => exact add_scalar h
  | subtract => exact scalar_of_number h
  | multiply => exact scalar_of_number h
  | divide => exact scalar_of_number h
  | remainder => exact scalar_of_number h
  | power => exact scalar_of_number h
  | _ =>
    cases h
    exact ⟨_, rfl⟩

/-! ## Parts -/

/-- The items of a renamed list are the renamed items. -/
theorem item?_renamed (items : List Value) (i : Int) :
    item? (allRenamed n d items) i = (item? items i).map (renamed n d) := by
  unfold item?
  rw [allRenamed_eq]
  split
  · exact List.getElem?_map
  · rfl

theorem list_part {a : Nat} {items : List Value} {key : Value} (hk : key ≠ text "length") :
    (list a items).part key = do return ((← key.index?).bind (item? items)).getD null := by
  unfold part
  dsimp only
  split
  · exact absurd rfl hk
  · rfl

theorem null_isOld : null.isOld n = true := rfl

theorem getD_isOld {o : Option Value} (h : ∀ v, o = some v → v.isOld n = true) :
    (o.getD null).isOld n = true := by
  cases o with
  | none => rfl
  | some v => exact h v rfl

/-- What is taken of a table is one of its values, or null. -/
theorem map_part_cases {a : Nat} {entries : Dict Scalar Value} {key r : Value}
    (hr : (map a entries).part key = .ok r) : r = null ∨ ∃ k, entries.get? k = some r := by
  have hunder : ∀ {k : Option Scalar} {v : Value}, k.bind (under? entries) = some v →
      ∃ k, entries.get? k = some v := by
    intro k v hv
    obtain ⟨k, -, hk⟩ := Option.bind_eq_some_iff.mp hv
    unfold under? at hk
    split at hk
    · cases hk
    · exact ⟨k, hk⟩
  unfold part at hr
  dsimp only at hr
  split at hr
  · split at hr
    · rename_i v hv
      cases hr
      exact .inr (hunder hv)
    · obtain ⟨other, -, hr⟩ := ok_of_bind_ok hr
      cases hr
      cases ho : other.bind (under? entries) with
      | none => exact .inl rfl
      | some v => exact .inr (hunder ho)
  · cases hr

theorem map_part_old {a : Nat} {entries : Dict Scalar Value} (h : entriesFit n entries = true)
    {key r : Value} (hr : (map a entries).part key = .ok r) : r.isOld n = true := by
  rcases map_part_cases hr with rfl | ⟨k, hk⟩
  · exact null_isOld
  · exact entriesFit_get? h hk

theorem object_part_old {a : Nat} {attributes : Dict String Value}
    (h : attributesFit n attributes = true) {key r : Value}
    (hr : (object a attributes).part key = .ok r) : r.isOld n = true := by
  unfold part at hr
  dsimp only at hr
  split at hr
  · cases hr
    split
    · rfl
    · exact getD_isOld fun v hv => attributesFit_get? h hv
  · cases hr
    rfl

theorem text_part_old {s : String} {key r : Value} (hr : (text s).part key = .ok r) :
    r.isOld n = true := by
  unfold part at hr
  dsimp only at hr
  split at hr
  · cases hr
    rfl
  · obtain ⟨i, -, hi⟩ := ok_of_bind_ok hr
    cases hi
    cases i.bind (item? s.toList) with
    | none => rfl
    | some c => rfl

/-! ## Twins -/

/-- Is the second value the first one, renamed, which itself keeps the bounds? -/
def Twin (n d m : Nat) (v u : Value) : Prop := v.fits n m = true ∧ u = v.renamed n d

variable {m : Nat}

theorem twin_of_isOld (hnm : n ≤ m) {v : Value} (h : v.isOld n = true) : Twin n d m v v :=
  ⟨fits_mono (Nat.le_refl n) hnm v h, (renamed_of_isOld v h).symm⟩

theorem twin_scalar (s : Scalar) : Twin n d m (.scalar s) (.scalar s) := ⟨rfl, rfl⟩

/-- An outcome that is old, if there is one, is its own twin. -/
theorem both_twin_of_old (hnm : n ≤ m) {x : Except Fault Value}
    (h : ∀ v, x = .ok v → v.isOld n = true) : Both (Twin n d m) x x := by
  cases x with
  | ok v => exact twin_of_isOld hnm (h v rfl)
  | error f => rfl

theorem both_twin_of_scalar {x : Except Fault Value} (h : ∀ v, x = .ok v → ∃ s, v = .scalar s) :
    Both (Twin n d m) x x := by
  cases x with
  | ok v =>
    obtain ⟨s, rfl⟩ := h v rfl
    exact twin_scalar s
  | error f => rfl

theorem part_twin (hnm : n ≤ m) {v u : Value} (h : Twin n d m v u) (key : Value) :
    Both (Twin n d m) (v.part key) (u.part key) := by
  obtain ⟨hv, rfl⟩ := h
  cases v with
  | map a entries => exact both_twin_of_old hnm fun r hr => map_part_old hv hr
  | object a attributes => exact both_twin_of_old hnm fun r hr => object_part_old hv hr
  | function f => exact twin_scalar .null
  | scalar s =>
    cases s with
    | text s => exact both_twin_of_old hnm fun r hr => text_part_old hr
    | _ => exact twin_scalar .null
  | list a items =>
    simp only [fits, Bool.and_eq_true] at hv
    rw [renamed]
    by_cases hk : key = text "length"
    · subst hk
      have hlength : (allRenamed n d items).length = items.length := by
        rw [allRenamed_eq, List.length_map]
      change Both _ (.ok (int items.length)) (.ok (int (allRenamed n d items).length))
      rw [hlength]
      exact twin_scalar _
    · rw [list_part hk, list_part hk]
      refine Both.bind (r := Eq) ?_ fun i j hij => ?_
      · cases key.index? <;> rfl
      · subst hij
        cases i with
        | none => exact twin_scalar .null
        | some i =>
          change Both _ (.ok ((item? items i).getD null))
            (.ok ((item? (allRenamed n d items) i).getD null))
          rw [item?_renamed]
          cases hi : item? items i with
          | none => exact twin_scalar .null
          | some v =>
            unfold item? at hi
            split at hi
            · exact ⟨allFit_iff.mp hv.2 v (List.mem_of_getElem? hi), rfl⟩
            · cases hi

theorem unary_twin {v u : Value} (op : UnaryOperator) (h : Twin n d m v u) :
    Both (Twin n d m) (op.apply v) (op.apply u) := by
  obtain ⟨-, rfl⟩ := h
  rw [unary_renamed]
  exact both_twin_of_scalar fun _ => unary_scalar

theorem binary_twin {v u v' u' : Value} (op : BinaryOperator) (h : Twin n d m v u)
    (h' : Twin n d m v' u') : Both (Twin n d m) (op.apply v v') (op.apply u u') := by
  cases hop : op.isLogical with
  | false =>
    obtain ⟨-, rfl⟩ := h
    obtain ⟨-, rfl⟩ := h'
    rw [binary_renamed op hop]
    exact both_twin_of_scalar fun _ => binary_scalar hop
  | true =>
    have htruth : u.isTruthy = v.isTruthy := by
      rw [h.2]
      exact isTruthy_renamed v
    cases op with
    | or =>
      simp only [BinaryOperator.apply, htruth]
      cases v.isTruthy with
      | error f => rfl
      | ok b =>
        cases b with
        | true => exact h
        | false => exact h'
    | and =>
      simp only [BinaryOperator.apply, htruth]
      cases v.isTruthy with
      | error f => rfl
      | ok b =>
        cases b with
        | true => exact h'
        | false => exact h
    | _ => cases hop

/-! ## Likeness of values -/

mutual

/-- Are two values alike? Numbers are compared by amount, NaN being like itself, lists built from
the bound on item by item, and other containers by identity. -/
def alike (n : Nat) : Value → Value → Bool
  | scalar s, scalar t => decide (s = t) || (scalar s).strictEquals (scalar t)
  | list a items, list b others => a == b || (decide (n ≤ a ∧ n ≤ b) && allAlike n items others)
  | v, u => v.isIdentical u

def allAlike (n : Nat) : List Value → List Value → Bool
  | [], [] => true
  | v :: rest, u :: others => alike n v u && allAlike n rest others
  | _, _ => false

end

mutual

/-- A value is like its twin. -/
theorem alike_renamed {k : Nat} (hk : k ≤ n) (v : Value) : alike k v (v.renamed n d) = true := by
  cases v with
  | scalar s => simp [renamed, alike]
  | list a items =>
    simp only [renamed, alike, Bool.or_eq_true, Bool.and_eq_true, decide_eq_true_eq, beq_iff_eq]
    by_cases ha : a < n
    · exact .inl (moved_of_lt ha).symm
    · rw [moved_of_le (by omega)]
      exact .inr ⟨by omega, allAlike_renamed hk items⟩
  | map a entries => simp [renamed, alike, isIdentical]
  | object a attributes => simp [renamed, alike, isIdentical]
  | function f => simp [renamed, alike, isIdentical]

theorem allAlike_renamed {k : Nat} (hk : k ≤ n) (items : List Value) :
    allAlike k items (allRenamed n d items) = true := by
  cases items with
  | nil => rfl
  | cons v rest =>
    simp only [allRenamed, allAlike, Bool.and_eq_true]
    exact ⟨alike_renamed hk v, allAlike_renamed hk rest⟩

end

/-- An old value that is strictly another one is like its twin too. -/
theorem alike_of_strictEquals {k : Nat} {v u : Value} (hv : v.isOld n = true)
    (h : v.strictEquals u = true) : alike k v (u.renamed n d) = true := by
  cases v with
  | scalar s =>
    cases u with
    | scalar t => simp [renamed, alike, h]
    | _ => cases s <;> cases h
  | list a items =>
    cases u with
    | list b others =>
      have hab : a = b := beq_iff_eq.mp h
      simp only [isOld, fits, Bool.and_eq_true, decide_eq_true_eq] at hv
      rw [renamed, ← hab, moved_of_lt hv.1]
      simp [alike]
    | scalar t => cases t <;> cases h
    | _ => cases h
  | _ =>
    cases u with
    | scalar t => cases t <;> cases h
    | list b others => cases h
    | _ => exact h

end Switchboard.Value
