-- The integers that have a floating point number. An integer is turned into the floating point
-- number nearest to it, unless that is infinite: it is from half a step below 2^1024 on.
import Mathlib.Algebra.Group.Nat.Defs
import Switchboard.Number
namespace Switchboard
namespace Binary64

/-! ## Rounding -/

theorem le_nearestMultiple (num step : Nat) :
    num / step * step ≤ nearestMultiple num 1 step := by
  simp only [nearestMultiple, Nat.one_mul]
  split
  · exact Nat.mul_le_mul_right step (Nat.le_succ _)
  · exact Nat.le_refl _

theorem nearestMultiple_le (num step : Nat) :
    nearestMultiple num 1 step ≤ (num / step + 1) * step := by
  simp only [nearestMultiple, Nat.one_mul]
  split
  · exact Nat.le_refl _
  · exact Nat.mul_le_mul_right step (Nat.le_succ _)

theorem spacing_of_le {num : Nat} (h : 2 ^ 53 ≤ num) : spacing num = 2 ^ (num.log2 - 52) :=
  if_neg (Nat.not_lt.mpr h)

/-- Below a power of two of its own step a number is not rounded beyond it. -/
theorem nearestMultiple_le_of_lt (num step : Nat) {bound : Nat} (h : num < bound * step) :
    nearestMultiple num 1 step ≤ bound * step := by
  have hlt : num / step < bound := Nat.div_lt_of_lt_mul (Nat.mul_comm bound step ▸ h)
  exact Nat.le_trans (nearestMultiple_le num step) (Nat.mul_le_mul_right step hlt)

/-- A multiple is reached from below from half a step before it, if the one before it is odd. -/
theorem nearestMultiple_lt_iff {num step half : Nat} (hstep : step = 2 * half) (odd : Nat)
    (hodd : odd % 2 = 1) (h : num < (odd + 1) * step) :
    nearestMultiple num 1 step < (odd + 1) * step ↔ num < (odd + 1) * step - half := by
  have hdivide := Nat.div_add_mod' num step
  have hwhole : num / step ≤ odd :=
    Nat.le_of_lt_succ (Nat.div_lt_of_lt_mul (Nat.mul_comm (odd + 1) _ ▸ h))
  have hpos : 0 < step := Nat.pos_of_ne_zero fun hz => by
    rw [hz, Nat.mul_zero] at h
    exact Nat.not_lt_zero _ h
  have hrest : num % step < step := Nat.mod_lt _ hpos
  rw [Nat.succ_mul] at h ⊢
  rcases Nat.lt_or_eq_of_le hwhole with hlt | heq
  · have hround := nearestMultiple_le num step
    have hbelow : (num / step + 1) * step ≤ odd * step := Nat.mul_le_mul_right _ hlt
    rw [Nat.succ_mul] at hround hbelow
    constructor <;> intro <;> omega
  · -- the multiple before is odd, so a number in the middle goes up
    rw [heq] at hdivide
    simp only [nearestMultiple, Nat.one_mul, heq, hodd, Bool.or_eq_true, Bool.and_eq_true,
      decide_eq_true_eq, beq_iff_eq, and_true]
    split
    · rw [Nat.succ_mul]
      omega
    · omega

/-- Rounded to 53 bits, a number stays below a power of two exactly if it is below it by more than
half of the last step. -/
theorem rounded_lt_iff (k num : Nat) :
    nearestMultiple num 1 (spacing num) < 2 ^ (k + 54) ↔ num < 2 ^ (k + 54) - 2 ^ k := by
  have hlimit : 2 ^ (k + 54) = 2 ^ 54 * 2 ^ k := by rw [Nat.pow_add, Nat.mul_comm]
  have hpos : 0 < 2 ^ k := Nat.two_pow_pos k
  rcases Nat.lt_or_ge num (2 ^ 53) with hsmall | hlarge
  · have hone : spacing num = 1 := if_pos hsmall
    have hround := nearestMultiple_le_of_lt num 1 (by simpa using hsmall)
    rw [hone]
    constructor <;> intro <;> omega
  · have hzero : num ≠ 0 := by omega
    obtain ⟨m, hm⟩ : ∃ m, num.log2 = m + 52 :=
      ⟨num.log2 - 52, by have := (Nat.le_log2 hzero).mpr hlarge; omega⟩
    have hlow : 2 ^ (m + 52) ≤ num := hm ▸ Nat.log2_self_le hzero
    have hhigh : num < 2 ^ 53 * 2 ^ m := by
      have hlog := Nat.lt_log2_self (n := num)
      rw [hm] at hlog
      rwa [← Nat.pow_add, Nat.add_comm 53 m]
    rw [spacing_of_le hlarge, hm, Nat.add_sub_cancel]
    rcases Nat.lt_trichotomy m (k + 1) with hlt | rfl | hgt
    · have hround := nearestMultiple_le_of_lt num (2 ^ m) hhigh
      have hstep : 2 ^ m ≤ 2 ^ k := Nat.pow_le_pow_right (by decide) (Nat.le_of_lt_succ hlt)
      constructor <;> intro <;> omega
    · have hstep : 2 ^ (k + 1) = 2 * 2 ^ k := Nat.pow_succ'
      have hiff := nearestMultiple_lt_iff hstep (2 ^ 53 - 1) (by decide) hhigh
      have htop : (2 ^ 53 - 1 + 1) * 2 ^ (k + 1) = 2 ^ (k + 54) := by omega
      rwa [htop] at hiff
    · have hround := le_nearestMultiple num (2 ^ m)
      have hwhole : 2 ^ 52 ≤ num / 2 ^ m := by
        rw [Nat.le_div_iff_mul_le (Nat.two_pow_pos m), ← Nat.pow_add, Nat.add_comm]
        exact hlow
      have hstep : 2 ^ (k + 2) ≤ 2 ^ m := Nat.pow_le_pow_right (by decide) hgt
      have hnum : num / 2 ^ m * 2 ^ m ≤ num := Nat.div_mul_le_self num (2 ^ m)
      have hbelow : 2 ^ 52 * 2 ^ m ≤ num / 2 ^ m * 2 ^ m := Nat.mul_le_mul_right _ hwhole
      rw [Nat.pow_add] at hstep
      constructor <;> intro <;> omega

/-! ## Integers -/

/-- The first integer that is nearer to infinity than to a floating point number. -/
def reach : Nat := Nat.pow 2 1024 - Nat.pow 2 970

theorem units_lt_iff (m : Nat) :
    nearestMultiple (m * one) 1 (spacing (m * one)) < limit ↔ m < reach := by
  have hlimit : limit = 2 ^ (2044 + 54) := by decide +kernel
  have hreach : 2 ^ (2044 + 54) - 2 ^ 2044 = reach * one := by decide +kernel
  have hpos : 0 < one := by decide +kernel
  rw [hlimit, rounded_lt_iff 2044, hreach]
  exact Nat.mul_lt_mul_right hpos

theorem round_of_lt (negative : Bool) {num den : Nat}
    (h : nearestMultiple num den (spacing (num / den)) < limit) :
    round negative num den = finite negative (nearestMultiple num den (spacing (num / den))) := by
  unfold round
  exact if_pos h

theorem round_of_not_lt (negative : Bool) {num den : Nat}
    (h : ¬ nearestMultiple num den (spacing (num / den)) < limit) :
    round negative num den = infinity negative := by
  unfold round
  exact if_neg h

theorem ofRatio_of_lt (negative : Bool) {n : Nat} (h : n < reach) :
    ∃ units, ofRatio negative n 1 = finite negative units := by
  have hround := (units_lt_iff n).mpr h
  unfold ofRatio
  exact ⟨_, round_of_lt negative (by rwa [Nat.div_one])⟩

theorem ofRatio_of_le (negative : Bool) {n : Nat} (h : reach ≤ n) :
    ofRatio negative n 1 = infinity negative := by
  have hround := mt (units_lt_iff n).mp (Nat.not_lt.mpr h)
  unfold ofRatio
  exact round_of_not_lt negative (by rwa [Nat.div_one])

/-- The number itself, if it is finite. -/
def finite? : Binary64 → Option Binary64
  | finite negative units => some (finite negative units)
  | _ => none

-- of the functions and not of a value: two values would be compared by computing the rounding
theorem ofInt?_eq_fun : ofInt? = fun n => finite? (ofRatio (n < 0) n.natAbs 1) := by
  delta ofInt?
  funext n
  generalize ofRatio (n < 0) n.natAbs 1 = x
  cases x <;> rfl

theorem ofInt?_eq (n : Int) : ofInt? n = finite? (ofRatio (n < 0) n.natAbs 1) :=
  congrFun ofInt?_eq_fun n

/-- An integer in reach has a floating point number, and that is finite. -/
theorem ofInt?_of_lt {n : Int} (h : n.natAbs < reach) :
    ∃ units, ofInt? n = some (finite (n < 0) units) := by
  obtain ⟨units, hunits⟩ := ofRatio_of_lt (n < 0) h
  exact ⟨units, by rw [ofInt?_eq, hunits, finite?]⟩

/-- An integer out of reach has none. -/
theorem ofInt?_of_le {n : Int} (h : reach ≤ n.natAbs) : ofInt? n = none := by
  rw [ofInt?_eq, ofRatio_of_le _ h]
  rfl

end Binary64

namespace Number

open Binary64 (reach ofInt? finite)

theorem toFloat_of_int {x : Number} {n : Int} (h : x = int n) :
    x.toFloat = (ofInt? n).elim (.error .overflow) .ok := by
  fun_cases toFloat x with
  | case1 m y hy =>
    cases h
    rw [hy, Option.elim_some]
  | case2 m hy =>
    cases h
    rw [hy, Option.elim_none]
  | case3 => cases h

theorem toFloat_of_lt {n : Int} (h : n.natAbs < reach) :
    ∃ units, (int n).toFloat = .ok (finite (n < 0) units) := by
  obtain ⟨units, hunits⟩ := Binary64.ofInt?_of_lt h
  exact ⟨units, by rw [toFloat_of_int rfl, hunits, Option.elim_some]⟩

theorem toFloat_of_le {n : Int} (h : reach ≤ n.natAbs) :
    (int n).toFloat = .error .overflow := by
  rw [toFloat_of_int rfl, Binary64.ofInt?_of_le h, Option.elim_none]

end Number
end Switchboard
