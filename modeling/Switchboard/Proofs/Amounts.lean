-- Numbers as places on a line. Integers and floating point numbers are counts of one unit, the
-- infinities are the ends of the line, and NaN has no place. Numbers compare as their places do, of
-- whatever kind they are.
import Mathlib.Algebra.Order.Ring.Int
import Mathlib.Order.Compare
import Mathlib.Order.WithBot
import Switchboard.Proofs.Range
namespace Switchboard

/-- A line of units with two ends. -/
def Line := WithBot (WithTop ℤ)

namespace Line

instance : LinearOrder Line :=
  @WithBot.linearOrder (WithTop ℤ) (@WithTop.linearOrder ℤ Int.instLinearOrder)

/-- So many units from zero. -/
def units (n : ℤ) : Line := WithBot.some (WithTop.some n)

/-- The lower end, or the upper one. -/
def extreme (lower : Bool) : Line := if lower then none else some none

theorem compare_units (a b : ℤ) : compare (units a) (units b) = compare a b := by
  have hmono : StrictMono units := WithBot.coe_strictMono.comp WithTop.coe_strictMono
  rw [← cmp_eq_compare, ← cmp_eq_compare]
  exact hmono.cmp_map_eq a b

/-- As many units as a number holds: the order does not change with the scale. -/
theorem compare_scaled (a b : ℤ) :
    compare (a * Binary64.one) (b * Binary64.one) = compare a b := by
  have hpos : (0 : ℤ) < Binary64.one := by decide +kernel
  have hmono : StrictMono fun n : ℤ => n * Binary64.one := fun _ _ h =>
    mul_lt_mul_of_pos_right h hpos
  rw [← cmp_eq_compare, ← cmp_eq_compare]
  exact hmono.cmp_map_eq a b

theorem compare_extreme_units (lower : Bool) (a : ℤ) :
    compare (extreme lower) (units a) = if lower then .lt else .gt := by
  cases lower with
  | true => exact compare_lt_iff_lt.mpr (WithBot.bot_lt_coe _)
  | false => exact compare_gt_iff_gt.mpr (WithBot.coe_lt_coe.mpr (WithTop.coe_lt_top a))

theorem compare_units_extreme (lower : Bool) (a : ℤ) :
    compare (units a) (extreme lower) = if lower then .gt else .lt := by
  rw [Std.OrientedOrd.eq_swap, compare_extreme_units]
  cases lower <;> rfl

theorem compare_extremes (lower other : Bool) :
    compare (extreme lower) (extreme other) =
      if lower == other then .eq else if lower then .lt else .gt := by
  cases lower with
  | true =>
    cases other with
    | true => exact compare_eq_iff_eq.mpr rfl
    | false => exact compare_lt_iff_lt.mpr (WithBot.bot_lt_coe _)
  | false =>
    cases other with
    | true => exact compare_gt_iff_gt.mpr (WithBot.bot_lt_coe _)
    | false => exact compare_eq_iff_eq.mpr rfl

end Line

/-- The place of a number in units. -/
def Binary64.place? : Binary64 → Option Line
  | nan => none
  | infinity negative => some (.extreme negative)
  | finite negative units => some (.units (signed negative units))

/-- The order of two numbers is that of their places. -/
theorem Binary64.order?_eq (x y : Binary64) :
    order? x y = x.place?.bind fun p => y.place?.map (compare p) := by
  cases x with
  | nan => cases y <;> rfl
  | infinity a =>
    cases y with
    | nan => rfl
    | infinity b => exact congrArg some (Line.compare_extremes a b).symm
    | finite b v => exact congrArg some (Line.compare_extreme_units a _).symm
  | finite a u =>
    cases y with
    | nan => rfl
    | infinity b => exact congrArg some (Line.compare_units_extreme b _).symm
    | finite b v => exact congrArg some (Line.compare_units _ _).symm

namespace Number

/-- An integer has the place of the floating point number it is equal to, if there is one. -/
def place? : Number → Option Line
  | int n => some (.units (n * Binary64.one))
  | float x => x.place?

theorem order?_eq (x y : Number) :
    order? x y = x.place?.bind fun p => y.place?.map (compare p) := by
  cases x with
  | int a =>
    cases y with
    | int b => exact congrArg some ((Line.compare_units _ _).trans (Line.compare_scaled a b)).symm
    | float y =>
      cases y with
      | nan => rfl
      | infinity b => exact congrArg some (Line.compare_units_extreme b _).symm
      | finite b v => exact congrArg some (Line.compare_units _ _).symm
  | float x =>
    cases y with
    | float y => exact Binary64.order?_eq x y
    | int b =>
      cases x with
      | nan => rfl
      | infinity a => exact congrArg some (Line.compare_extreme_units a _).symm
      | finite a u => exact congrArg some (Line.compare_units _ _).symm

/-- Numbers are the same if they have the same place. -/
theorem same_iff (x y : Number) : x.same y = true ↔ ∃ p, x.place? = some p ∧ y.place? = some p := by
  unfold same
  rw [order?_eq, beq_iff_eq]
  cases x.place? with
  | none => simp
  | some p =>
    cases y.place? with
    | none => simp
    | some q =>
      simp only [Option.bind_some, Option.map_some, Option.some_inj, compare_eq_iff_eq]
      exact ⟨fun h => ⟨p, rfl, h.symm⟩, fun ⟨_, hp, hq⟩ => hp.trans hq.symm⟩

theorem same_comm (x y : Number) : x.same y = y.same x := by
  rw [Bool.eq_iff_iff, same_iff, same_iff]
  exact exists_congr fun _ => and_comm

end Number
end Switchboard
