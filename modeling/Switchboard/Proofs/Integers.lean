-- Operators between integers of any size. Each gives what the integers themselves have for it, and
-- none rounds; but truth values, ordering tests and remainders ask first whether an operand is
-- NaN, and that question has no answer for an integer out of reach of the floats.
import Switchboard.Proofs.Dependencies
import Switchboard.Proofs.Operations
import Switchboard.Proofs.Range
namespace Switchboard

open Binary64 (reach)

/-! ## Results among the integers -/

namespace BinaryOperator

/-- What an operator gives on two integers by their own order and arithmetic, none where they have
no result for it. -/
def onIntegers? (a b : Int) : BinaryOperator → Option Value
  | or => some (if a = 0 then .int b else .int a)
  | and => some (if a = 0 then .int a else .int b)
  | equal | strictEqual => some (.bool (a = b))
  | unequal | strictUnequal => some (.bool (a ≠ b))
  | less => some (.bool (a < b))
  | lessEqual => some (.bool (a ≤ b))
  | greater => some (.bool (a > b))
  | greaterEqual => some (.bool (a ≥ b))
  | add => some (.int (a + b))
  | subtract => some (.int (a - b))
  | multiply => some (.int (a * b))
  | remainder => if b = 0 then none else some (.int (a.tmod b))
  | _ => none

/-- The operands of which an operator asks whether they are NaN. -/
def probed (a b : Int) : BinaryOperator → List Int
  | or | and => [a]
  | less | lessEqual | greater | greaterEqual | remainder => [a, b]
  | _ => []

end BinaryOperator

/-! ## Questions about NaN -/

/-- A result, after it was asked of some integers whether they are NaN. -/
def probing {α : Type} (asked : List Int) (result : α) : Except Fault α :=
  if ∀ n ∈ asked, n.natAbs < reach then .ok result else .error .overflow

theorem probing_ok {α : Type} {asked : List Int} (h : ∀ n ∈ asked, n.natAbs < reach)
    (result : α) : probing asked result = .ok result :=
  if_pos h

theorem probing_error {α : Type} {asked : List Int} (h : ¬ ∀ n ∈ asked, n.natAbs < reach)
    (result : α) : probing asked result = .error .overflow :=
  if_neg h

theorem probing_nil {α : Type} (result : α) : probing [] result = .ok result :=
  probing_ok (List.forall_mem_nil _) result

/-- Questions that are asked one after the other. -/
theorem probing_bind {α β : Type} (asked others : List Int) {result : α} {answer : β}
    {next : α → Except Fault β} (h : next result = probing others answer) :
    (probing asked result >>= next) = probing (asked ++ others) answer := by
  by_cases hall : ∀ n ∈ asked, n.natAbs < reach
  · have hsame : (∀ n ∈ asked ++ others, n.natAbs < reach) ↔ ∀ n ∈ others, n.natAbs < reach :=
      List.forall_mem_append.trans (and_iff_right hall)
    rw [probing_ok hall]
    refine Eq.trans h ?_
    unfold probing
    simp only [hsame]
  · rw [probing_error hall, probing_error fun h => hall (List.forall_mem_append.mp h).1]
    rfl

theorem probing_map {α β : Type} (asked : List Int) (result : α) (next : α → β) :
    (probing asked result >>= fun a => .ok (next a)) = probing asked (next result) := by
  have h : (probing asked result >>= fun a => .ok (next a)) =
      probing (asked ++ []) (next result) :=
    probing_bind asked [] (probing_nil _).symm
  rwa [List.append_nil] at h

namespace Number

/-- To become a floating point number is as good a question, and the number is finite. -/
theorem toFloat_int (n : Int) :
    ∃ x, (int n).toFloat = probing [n] x ∧ x.isNan = false ∧ x.isInfinite = false := by
  rcases Nat.lt_or_ge n.natAbs reach with h | h
  · obtain ⟨units, hunits⟩ := toFloat_of_lt h
    exact ⟨_, by rw [hunits, probing_ok (List.forall_mem_singleton.mpr h)], rfl, rfl⟩
  · refine ⟨.zero, ?_, rfl, rfl⟩
    rw [toFloat_of_le h,
      probing_error fun hall => Nat.not_lt.mpr h (hall n (List.mem_singleton_self n))]

theorem isNan_int (n : Int) : (int n).isNan = probing [n] false := by
  obtain ⟨x, hx, hnan, -⟩ := toFloat_int n
  unfold isNan
  rw [hx, ← hnan]
  exact probing_map [n] x Binary64.isNan

theorem rem_int (a : Int) {b : Int} (h : b ≠ 0) :
    (int a).rem (int b) = probing [a, b] (int (a.tmod b)) := by
  obtain ⟨x, hx, hnan, hinf⟩ := toFloat_int a
  obtain ⟨y, hy, hnan', hinf'⟩ := toFloat_int b
  unfold rem
  rw [if_neg (by simpa [isZero] using h), hx]
  refine probing_bind [a] [b] ?_
  rw [if_neg (by simp [hnan]), hy]
  refine probing_bind [b] [] ?_
  rw [if_neg (by simp [hnan', hinf]), if_neg (by simp [hinf']), probing_nil]
  rfl

end Number

namespace Value

theorem isTruthy_int (n : Int) : (int n).isTruthy = probing [n] (decide (n ≠ 0)) := by
  simp only [isTruthy]
  by_cases hzero : n = 0
  · rw [hzero]
    exact (probing_ok (by decide +kernel) _).symm
  · rw [if_neg (by simpa using hzero), Number.isNan_int, decide_eq_true hzero]
    exact probing_map [n] false not

theorem pick_int (n : Int) (p q : Value) :
    (do return if ← (int n).isTruthy then p else q) = probing [n] (if n = 0 then q else p) := by
  rw [isTruthy_int]
  refine (probing_map [n] _ fun (t : Bool) => if t then p else q).trans ?_
  by_cases hzero : n = 0 <;> simp [hzero]

theorem compareBy_int (holds : Ordering → Bool) (a b : Int) :
    compareBy holds (int a) (int b) = probing [a, b] (holds (compare a b)) := by
  unfold compareBy
  simp only [toNumber, Number.isNan_int]
  exact probing_bind [a] [b] (probing_bind [b] [] (probing_nil _).symm)

theorem strictEquals_int (a b : Int) : strictEquals (int a) (int b) = decide (a = b) := by
  change (some (compare a b) == some .eq) = decide (a = b)
  rw [Bool.eq_iff_iff, beq_iff_eq, Option.some_inj, Int.compare_eq_eq, decide_eq_true_iff]

theorem looseEquals_int (a b : Int) : looseEquals (int a) (int b) = .ok (decide (a = b)) := by
  rw [← strictEquals_int]
  rfl

/-- An ordering test says what a relation says that has the same orderings. -/
theorem compareBy_iff {holds : Ordering → Bool} {a b : Int} {related : Prop} [Decidable related]
    (h : holds (compare a b) = true ↔ related) :
    (do return bool (← compareBy holds (int a) (int b))) =
      probing [a, b] (bool (decide related)) := by
  rw [compareBy_int, ← Bool.eq_iff_iff.mpr (h.trans decide_eq_true_iff.symm)]
  exact probing_map [a, b] _ bool

end Value

/-! ## Each operator -/

open Value

theorem UnaryOperator.not_int (n : Int) :
    UnaryOperator.not.apply (int n) = probing [n] (bool (decide (n = 0))) := by
  simp only [apply, isTruthy_int]
  refine (probing_map [n] _ fun b => bool !b).trans ?_
  simp

theorem BinaryOperator.apply_ints {op : BinaryOperator} {a b : Int} {v : Value}
    (h : op.onIntegers? a b = some v) : op.apply (int a) (int b) = probing (op.probed a b) v := by
  cases op with
  | or =>
    cases h
    exact pick_int a (int a) (int b)
  | and =>
    cases h
    exact pick_int a (int b) (int a)
  | strictEqual =>
    cases h
    exact congrArg (fun e => Except.ok (bool e)) (strictEquals_int a b)
  | strictUnequal =>
    cases h
    simp only [apply, strictEquals_int, ← decide_not]
    exact (probing_nil _).symm
  | equal =>
    cases h
    simp only [apply, looseEquals_int]
    exact (probing_nil _).symm
  | unequal =>
    cases h
    simp only [apply, looseEquals_int, decide_not]
    exact (probing_nil _).symm
  | less =>
    cases h
    exact compareBy_iff (beq_iff_eq.trans Int.compare_eq_lt)
  | lessEqual =>
    cases h
    exact compareBy_iff (bne_iff_ne.trans Int.compare_ne_gt)
  | greater =>
    cases h
    exact compareBy_iff (beq_iff_eq.trans Int.compare_eq_gt)
  | greaterEqual =>
    cases h
    exact compareBy_iff (bne_iff_ne.trans Int.compare_ne_lt)
  | add =>
    cases h
    exact (probing_nil _).symm
  | subtract =>
    cases h
    exact (probing_nil _).symm
  | multiply =>
    cases h
    exact (probing_nil _).symm
  | remainder =>
    obtain ⟨hb, rfl⟩ : b ≠ 0 ∧ int (a.tmod b) = v := by
      by_cases hb : b = 0 <;> simp_all [onIntegers?]
    simp only [apply, toNumber, Number.rem_int a hb]
    exact probing_map [a, b] _ Number.toValue
  | _ => cases h

/-- A remainder between integers is that of the division cut off to an integer. -/
theorem BinaryOperator.remainder_ints {a b : Int} (h : b ≠ 0) :
    ∃ n, remainder.onIntegers? a b = some (int n) ∧ n.natAbs < b.natAbs ∧
      (n = 0 ∨ n.sign = a.sign) ∧ b ∣ a - n := by
  refine ⟨a.tmod b, if_neg h, ?_, ?_, Int.dvd_self_sub_tmod⟩
  · rw [Int.natAbs_tmod]
    exact Nat.mod_lt _ (Int.natAbs_pos.mpr h)
  · by_cases hb : b ∣ a
    · exact .inl (Int.tmod_eq_zero_of_dvd hb)
    · exact .inr ((Int.sign_tmod a b).trans (if_neg hb))

/-! ## Evaluation -/

namespace Expr

open Literal (ofName)

theorem ofExcept_probing {ω : Type} (asked : List Int) (v : Value) (t : ω) :
    Run.ofExcept (probing asked v) t =
      if ∀ n ∈ asked, n.natAbs < reach then .ok v t else .error .overflow t := by
  unfold probing
  split
  · rfl
  · rfl

/-- Operators are exact on integers of every size, and agree with their order and with zero being
the only one that is false. An operation fails exactly if it asks whether an integer out of reach
of the floats is NaN. -/
theorem integers_are_operated_on_exactly_unless_one_out_of_reach_is_probed {ω : Type}
    {host : Host ω} {context : Value} {l r : Expr} {a b : Int} {w u t : ω}
    (hl : l.evaluate host context w = .ok (int a) u)
    (hr : r.evaluate host context u = .ok (int b) t) :
    (∀ op v, op.onIntegers? a b = some v →
      (ofBinary op l r).evaluate host context w =
        if ∀ n ∈ op.probed a b, n.natAbs < reach then .ok v t else .error .overflow t) ∧
    (b ≠ 0 → ∃ n, BinaryOperator.remainder.onIntegers? a b = some (int n) ∧
      n.natAbs < b.natAbs ∧ (n = 0 ∨ n.sign = a.sign) ∧ b ∣ a - n) ∧
    (ofUnary .minus l).evaluate host context w = .ok (int (-a)) u ∧
    (ofUnary .not l).evaluate host context w =
      (if a.natAbs < reach then .ok (bool (a = 0)) u else .error .overflow u) ∧
    ∀ {x y : Expr} {p q : Value} {v s : ω}, x.evaluate host context u = .ok p v →
      y.evaluate host context v = .ok q s →
      (conditional l x y).evaluate host context w =
        if a.natAbs < reach then .ok (if a = 0 then q else p) s else .error .overflow s := by
  refine ⟨fun op v hv => ?_, BinaryOperator.remainder_ints, ?_, ?_, fun hx hy => ?_⟩
  · rw [binary_of_values op hl hr, BinaryOperator.apply_ints hv, ofExcept_probing]
  · rw [unary_of_value .minus hl]
    rfl
  · rw [unary_of_value .not hl, UnaryOperator.not_int, ofExcept_probing]
    simp only [List.forall_mem_singleton]
  · rw [conditional_of_values hl hx hy, pick_int, ofExcept_probing]
    simp only [List.forall_mem_singleton]

/-- The integer 10^309, which no floating point number comes near to. -/
def beyond : Int := Nat.pow 10 309

/-- A table with the integer beyond all floating point numbers as `x`. -/
def beyondTable : Value := .map 0 [(.text "x", .int beyond), (.text "y", .int (-7))]

/-- A sum beyond the floats is exact, but its operands can not be ordered. -/
theorem a_sum_with_ten_to_the_309_is_exact :
    (ofBinary .add (ofName "x") (ofName "y")).evaluate echo beyondTable 9 =
        .ok (int (beyond - 7)) 9 ∧
      (ofBinary .less (ofName "x") (ofName "y")).evaluate echo beyondTable 9 =
        .error .overflow 9 ∧
      (ofBinary .and (ofName "y") (ofName "x")).evaluate echo beyondTable 9 =
        .ok (int beyond) 9 := by
  have hx : (ofName "x").evaluate echo beyondTable 9 = .ok (int beyond) 9 := rfl
  have hy : (ofName "y").evaluate echo beyondTable 9 = .ok (int (-7)) 9 := rfl
  obtain ⟨hxy, -⟩ := integers_are_operated_on_exactly_unless_one_out_of_reach_is_probed hx hy
  obtain ⟨hyx, -⟩ := integers_are_operated_on_exactly_unless_one_out_of_reach_is_probed hy hx
  refine ⟨hxy .add _ rfl, ?_, ?_⟩
  · rw [hxy .less _ rfl]
    exact if_neg (by decide +kernel)
  · rw [hyx .and _ rfl]
    exact if_pos (by decide +kernel)

/-- It can not be told that 10^309 is not zero. -/
theorem ten_to_the_309_has_no_negation :
    Expr.parse "!x" = .ok (ofUnary .not (ofName "x")) ∧
      (ofName "x").evaluate echo beyondTable 9 = .ok (int beyond) 9 ∧
      (ofUnary .not (ofName "x")).evaluate echo beyondTable 9 = .error .overflow 9 := by
  have hx : (ofName "x").evaluate echo beyondTable 9 = .ok (int beyond) 9 := rfl
  refine ⟨rfl, hx, ?_⟩
  rw [unary_of_value .not hx, UnaryOperator.not_int, ofExcept_probing]
  exact if_neg (by decide +kernel)

end Expr
end Switchboard
