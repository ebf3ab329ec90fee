-- Ordering tests and the two equalities. Strict equality is equality of what makes a value the one
-- it is, which NaN alone lacks. Loose equality is the strict one within a kind, and between values
-- that can be ordered it holds where neither is less than the other.
import Switchboard.Operators
import Switchboard.Proofs.Amounts
namespace Switchboard

open Binary64 (reach)

namespace Value

/-! ## Strict equality -/

/-- What makes a value the one it is: the place of a number, any other scalar, and else the identity
of a thing. -/
inductive Essence
  | amount (place : Line)
  | scalar (s : Scalar)
  | list (identity : Nat)
  | map (identity : Nat)
  | object (identity : Nat)
  | function (f : Function)

/-- The essence of a value, none for NaN. -/
def essence? : Value → Option Essence
  | int n => (Number.int n).place?.map .amount
  | float x => (Number.float x).place?.map .amount
  | scalar s => some (.scalar s)
  | list identity _ => some (.list identity)
  | map identity _ => some (.map identity)
  | object identity _ => some (.object identity)
  | function f => some (.function f)

/-- Is a value the number that is not equal to itself? -/
def isNaN : Value → Bool
  | .float x => x.isNan
  | _ => false

theorem isSome_essence? (a : Value) : a.essence?.isSome = !a.isNaN := by
  cases a with
  | scalar s =>
    cases s with
    | float x => cases x <;> rfl
    | _ => rfl
  | _ => rfl

/-- Values are strictly equal if they have the same essence. -/
theorem strictEquals_iff (a b : Value) :
    a.strictEquals b = true ↔ ∃ e, a.essence? = some e ∧ b.essence? = some e := by
  rcases a with (_ | _ | _ | _ | _) | _ | _ | _ | _ <;>
    rcases b with (_ | _ | _ | _ | _) | _ | _ | _ | _ <;>
    simp [strictEquals, essence?, number?, isIdentical, Number.same_iff]
  -- what is left has the two sides of one equality exchanged
  all_goals exact eq_comm

theorem strictEquals_comm (a b : Value) : a.strictEquals b = b.strictEquals a := by
  rw [Bool.eq_iff_iff, strictEquals_iff, strictEquals_iff]
  exact exists_congr fun _ => and_comm

theorem strictEquals_trans {a b c : Value} (h : a.strictEquals b = true)
    (h' : b.strictEquals c = true) : a.strictEquals c = true := by
  obtain ⟨e, ha, hb⟩ := (strictEquals_iff a b).mp h
  obtain ⟨e', hb', hc⟩ := (strictEquals_iff b c).mp h'
  cases hb.symm.trans hb'
  exact (strictEquals_iff a c).mpr ⟨e, ha, hc⟩

/-- Every value is strictly itself but NaN. -/
theorem strictEquals_self (v : Value) : v.strictEquals v = !v.isNaN := by
  rw [Bool.eq_iff_iff, strictEquals_iff, ← isSome_essence?, Option.isSome_iff_exists]
  exact exists_congr fun _ => and_self_iff

/-! ## Loose equality -/

inductive Kind
  | nothing
  | truth
  | number
  | text
  | thing
deriving DecidableEq

/-- Integers and floating point numbers are of one kind, and so is all that is no scalar. -/
def kind : Value → Kind
  | null => .nothing
  | bool _ => .truth
  | int _ | float _ => .number
  | text _ => .text
  | _ => .thing

/-- Within a kind, loose equality is strict equality. -/
theorem looseEquals_of_kind {a b : Value} (h : a.kind = b.kind) :
    a.looseEquals b = .ok (a.strictEquals b) := by
  -- two constructors have one kind only if they are the same, or those of the two kinds of numbers
  rcases a with (_ | _ | _ | _ | _) | _ | _ | _ | _ <;>
    rcases b with (_ | _ | _ | _ | _) | _ | _ | _ | _ <;> first | rfl | cases h

/-- The kind of a value is told by its essence. -/
def Essence.kind : Essence → Kind
  | amount _ => .number
  | scalar s => (Value.scalar s).kind
  | _ => .thing

theorem kind_of_essence? {a : Value} {e : Essence} (h : a.essence? = some e) :
    a.kind = e.kind := by
  cases a with
  | scalar s =>
    cases s with
    | int _ | float _ =>
      simp only [essence?, Option.map_eq_some_iff] at h
      obtain ⟨_, -, rfl⟩ := h
      rfl
    | _ =>
      cases h
      rfl
  | _ =>
    cases h
    rfl

theorem kind_eq_of_strictEquals {a b : Value} (h : a.strictEquals b = true) :
    a.kind = b.kind := by
  obtain ⟨e, ha, hb⟩ := (strictEquals_iff a b).mp h
  rw [kind_of_essence? ha, kind_of_essence? hb]

theorem sameKind_comm (s t : Scalar) : sameKind s t = sameKind t s := by
  cases s <;> cases t <;> rfl

theorem scalarsEqual_comm (s t : Scalar) : scalarsEqual s t = scalarsEqual t s := by
  unfold scalarsEqual
  rw [sameKind_comm s t, strictEquals_comm, Number.same_comm]

/-- Among the scalars, only nothing is treated apart. -/
theorem looseEquals_scalars {s t : Scalar} (hs : s ≠ .null) (ht : t ≠ .null) :
    (scalar s).looseEquals (scalar t) = .ok (scalarsEqual s t) := by
  cases s with
  | null => exact absurd rfl hs
  | _ =>
    cases t with
    | null => exact absurd rfl ht
    | _ => rfl

theorem looseEquals_scalars_comm (s t : Scalar) :
    (scalar s).looseEquals (scalar t) = (scalar t).looseEquals (scalar s) := by
  by_cases hs : s = .null
  · subst hs
    cases t <;> rfl
  · by_cases ht : t = .null
    · subst ht
      cases s <;> rfl
    · rw [looseEquals_scalars hs ht, looseEquals_scalars ht hs, scalarsEqual_comm]

/-- On whichever side a thing stands, its text is what a scalar is compared with. -/
theorem looseEquals_thing_comm (s : Scalar) {b : Value} (hb : b.isScalar = false) :
    (scalar s).looseEquals b = b.looseEquals (scalar s) := by
  have htext : (do return scalarsEqual s (.text (← b.toText))) =
      (do return scalarsEqual (.text (← b.toText)) s : Except Fault Bool) := by
    simp only [scalarsEqual_comm s]
  cases b with
  | scalar t => cases hb
  | _ =>
    cases s with
    | null => rfl
    | _ => exact htext

theorem looseEquals_comm (a b : Value) : a.looseEquals b = b.looseEquals a := by
  by_cases hk : a.kind = b.kind
  · rw [looseEquals_of_kind hk, looseEquals_of_kind hk.symm, strictEquals_comm]
  · cases a with
    | scalar s =>
      cases b with
      | scalar t => exact looseEquals_scalars_comm s t
      | _ => exact looseEquals_thing_comm s rfl
    | _ =>
      cases b with
      | scalar t => exact (looseEquals_thing_comm t rfl).symm
      | _ => exact absurd rfl hk

/-! ## What can be ordered -/

/-- Does a value count as a number that can be ordered? NaN can not, nor an integer out of reach of
the floats. -/
def isOrdered (v : Value) : Bool :=
  match v.toNumber with
  | .int n => decide (n.natAbs < reach)
  | .float x => !x.isNan

theorem place_of_isOrdered {v : Value} (h : v.isOrdered = true) :
    (∃ p, v.toNumber.place? = some p) ∧ v.toNumber.isNan = .ok false := by
  unfold isOrdered at h
  cases hv : v.toNumber with
  | int n =>
    rw [hv] at h
    obtain ⟨units, hunits⟩ := Number.toFloat_of_lt (of_decide_eq_true h)
    refine ⟨⟨_, rfl⟩, ?_⟩
    unfold Number.isNan
    rw [hunits]
    rfl
  | float x =>
    rw [hv] at h
    cases x with
    | nan => cases h
    | infinity negative => exact ⟨⟨_, rfl⟩, rfl⟩
    | finite negative units => exact ⟨⟨_, rfl⟩, rfl⟩

/-- Only scalars count as numbers that can be ordered. -/
theorem scalar_of_isOrdered {v : Value} (h : v.isOrdered = true) :
    ∃ s, v = scalar s ∧ s ≠ .null := by
  cases v with
  | scalar s =>
    refine ⟨s, rfl, ?_⟩
    rintro rfl
    cases h
  | _ => cases h

/-- Are two values ordered like this? -/
structure Ordered (a b : Value) (o : Ordering) : Prop where
  compares : ∀ holds, compareBy holds a b = .ok (holds o)
  equals : a.looseEquals b = .ok (o == .eq)

/-- Texts are ordered by their characters. -/
theorem ordered_texts (s t : String) : Ordered (text s) (text t) (compare s t) where
  compares _ := rfl
  equals := by
    have hsame : decide (Scalar.text s = .text t) = (compare s t == .eq) := by
      rw [Bool.eq_iff_iff, decide_eq_true_iff, beq_iff_eq, Std.compare_eq_iff_eq, Scalar.text.injEq]
    exact congrArg Except.ok hsame

/-- Scalars that are not two texts are loosely equal if they count as the same number. -/
theorem scalarsEqual_eq_same {s t : Scalar} (hs : s ≠ .null) (ht : t ≠ .null)
    (htexts : ∀ u v, s = .text u → t ≠ .text v) :
    scalarsEqual s t = (toNumber (scalar s)).same (toNumber (scalar t)) := by
  cases s with
  | null => exact absurd rfl hs
  | bool b =>
    cases t with
    | bool c => cases b <;> cases c <;> decide +kernel
    | null => exact absurd rfl ht
    | _ => rfl
  | text u =>
    cases t with
    | text v => exact absurd rfl (htexts u v rfl)
    | null => exact absurd rfl ht
    | _ => rfl
  | _ =>
    cases t with
    | null => exact absurd rfl ht
    | _ => rfl

/-- A comparison of two numbers, which both can be ordered, is one of their places. -/
theorem compareBy_of_isOrdered {a b : Value} (ha : a.isOrdered = true) (hb : b.isOrdered = true)
    (htexts : ∀ s t, a = text s → b ≠ text t) {p q : Line} (hp : a.toNumber.place? = some p)
    (hq : b.toNumber.place? = some q) (holds : Ordering → Bool) :
    compareBy holds a b = .ok (holds (compare p q)) := by
  have hplaces : ((a.toNumber.order? b.toNumber).map holds).getD false = holds (compare p q) := by
    rw [Number.order?_eq, hp, hq]
    rfl
  unfold compareBy
  split
  · exact absurd rfl (htexts _ _ rfl)
  · cases ha
  · cases hb
  · rw [(place_of_isOrdered ha).2, (place_of_isOrdered hb).2, ← hplaces]
    rfl

theorem ordered_numbers {a b : Value} (ha : a.isOrdered = true) (hb : b.isOrdered = true)
    (htexts : ∀ s t, a = text s → b ≠ text t) {p q : Line} (hp : a.toNumber.place? = some p)
    (hq : b.toNumber.place? = some q) : Ordered a b (compare p q) where
  compares := compareBy_of_isOrdered ha hb htexts hp hq
  equals := by
    obtain ⟨s, rfl, hs⟩ := scalar_of_isOrdered ha
    obtain ⟨t, rfl, ht⟩ := scalar_of_isOrdered hb
    have hsame : scalarsEqual s t = (compare p q == .eq) := by
      rw [scalarsEqual_eq_same hs ht fun u v hu hv => htexts u v (hu ▸ rfl) (hv ▸ rfl)]
      unfold Number.same
      rw [Number.order?_eq, hp, hq]
      rfl
    rw [looseEquals_scalars hs ht, hsame]

/-- Two texts have one order, and so have two values that count as numbers that can be ordered: seen
from the other side, it is the reverse. -/
theorem exists_ordered {a b : Value} (h : (∃ s t, a = text s ∧ b = text t) ∨
    (a.isOrdered = true ∧ b.isOrdered = true)) : ∃ o, Ordered a b o ∧ Ordered b a o.swap := by
  by_cases htexts : ∃ s t, a = text s ∧ b = text t
  · obtain ⟨s, t, rfl, rfl⟩ := htexts
    refine ⟨compare s t, ordered_texts s t, ?_⟩
    rw [← Std.OrientedOrd.eq_swap]
    exact ordered_texts t s
  · obtain ⟨ha, hb⟩ := h.resolve_left htexts
    obtain ⟨p, hp⟩ := (place_of_isOrdered ha).1
    obtain ⟨q, hq⟩ := (place_of_isOrdered hb).1
    refine ⟨compare p q, ordered_numbers ha hb (fun s t hs ht => htexts ⟨s, t, hs, ht⟩) hp hq, ?_⟩
    rw [← Std.OrientedOrd.eq_swap]
    exact ordered_numbers hb ha (fun t s ht hs => htexts ⟨s, t, hs, ht⟩) hq hp

end Value

/-! ## The laws -/

open Value

/-- Of two texts, and of two values that count as numbers other than NaN in reach of the floats,
exactly one is less, or they are loosely equal: these are the three cases of an ordering. Less or
equal is what it says, and greater or equal is less or equal from the other side. -/
theorem orderings_and_loose_equality_fit_together {a b : Value}
    (h : (∃ s t, a = text s ∧ b = text t) ∨ (a.isOrdered = true ∧ b.isOrdered = true)) :
    ∃ o : Ordering,
      BinaryOperator.less.apply a b = .ok (bool (o = .lt)) ∧
      BinaryOperator.equal.apply a b = .ok (bool (o = .eq)) ∧
      BinaryOperator.greater.apply a b = .ok (bool (o = .gt)) ∧
      BinaryOperator.lessEqual.apply a b = .ok (bool (o = .lt ∨ o = .eq)) ∧
      BinaryOperator.greaterEqual.apply a b = BinaryOperator.lessEqual.apply b a := by
  obtain ⟨o, hab, hba⟩ := exists_ordered h
  refine ⟨o, ?_⟩
  simp only [BinaryOperator.apply, hab.compares, hab.equals, hba.compares]
  cases o <;> exact ⟨rfl, rfl, rfl, rfl, rfl⟩

/-- A text that writes ten is level with ten. -/
theorem a_text_is_level_with_the_integer_it_writes :
    BinaryOperator.equal.apply (text " 1_0 ") (int 10) = .ok (bool true) ∧
      BinaryOperator.less.apply (text " 1_0 ") (int 10) = .ok (bool false) ∧
      BinaryOperator.lessEqual.apply (text " 1_0 ") (int 10) = .ok (bool true) := by
  have hequal : BinaryOperator.equal.apply (text " 1_0 ") (int 10) = .ok (bool true) := by rfl
  obtain ⟨o, hless, heq, -, hle, -⟩ := orderings_and_loose_equality_fit_together
    (a := text " 1_0 ") (b := int 10) (.inr ⟨by decide +kernel, by decide +kernel⟩)
  cases o with
  | eq => exact ⟨heq, hless, hle⟩
  | lt | gt => cases hequal.symm.trans heq

/-- Strict equality is symmetric and transitive, and reflexive but for NaN. Loose equality is
symmetric, follows from the strict one, and is the same within a kind. -/
theorem the_two_equalities_obey_their_laws (a b c : Value) :
    a.strictEquals b = b.strictEquals a ∧
    (a.strictEquals b = true → b.strictEquals c = true → a.strictEquals c = true) ∧
    a.strictEquals a = !a.isNaN ∧
    a.looseEquals b = b.looseEquals a ∧
    (a.strictEquals b = true → a.looseEquals b = .ok true) ∧
    (a.kind = b.kind → a.looseEquals b = .ok (a.strictEquals b)) := by
  refine ⟨strictEquals_comm a b, strictEquals_trans, strictEquals_self a, looseEquals_comm a b,
    fun h => ?_, looseEquals_of_kind⟩
  rw [looseEquals_of_kind (kind_eq_of_strictEquals h), h]

/-- An integer, the floating point number of the same amount, and the integer again. -/
theorem one_is_one_in_either_kind :
    (int 1).strictEquals (float (.finite false Binary64.one)) = true ∧
      (float (.finite false Binary64.one)).strictEquals (int 1) = true ∧
      (int 1).strictEquals (int 1) = true ∧
      (int 1).looseEquals (float (.finite false Binary64.one)) = .ok true := by
  have hone : (int 1).strictEquals (float (.finite false Binary64.one)) = true := by
    decide +kernel
  obtain ⟨hcomm, htrans, -, -, hloose, -⟩ :=
    the_two_equalities_obey_their_laws (int 1) (float (.finite false Binary64.one)) (int 1)
  have hback := hcomm.symm.trans hone
  exact ⟨hone, hback, htrans hone hback, hloose hone⟩

end Switchboard
