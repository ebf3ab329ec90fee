-- The shortest decimal that reads back as a given floating point number, and of several shortest
-- ones the nearest. It is searched for grid by grid: with one digit, with two, and so on.
import Switchboard.Binary64
namespace Switchboard

/-- A decimal: the digits of `coefficient`, the last of which stands for `10 ^ exponent`. -/
structure Decimal where
  coefficient : Nat
  exponent : Int
deriving DecidableEq

namespace Decimal

open Binary64

/-- The number of decimal digits. -/
def width (n : Nat) : Nat := n.repr.length

/-- The exponent of the first decimal digit of a positive count of units. -/
def leading (units : Nat) : Int := (width (units * Nat.pow 10 324 / one) : Int) - 325

/-- The distance, in quarter units, from a number down to where the next lower one begins. It is
halved at a power of two, where the lower numbers stand closer. -/
def reachBelow (units : Nat) : Nat :=
  if Nat.pow 2 53 ≤ units && units == Nat.pow 2 units.log2 then spacing units
  else 2 * spacing units

/-- Is a distance within the reach? The ends belong to a number with an even significand. -/
def within (units distance reach : Nat) : Bool :=
  distance < reach || (distance == reach && units / spacing units % 2 == 0)

/-- The decimal on the grid of `10 ^ exponent` that reads back as the number, if there is one. -/
def onGrid? (units : Nat) (exponent : Int) : Option Decimal :=
  let scale := Nat.pow 10 (-exponent).toNat
  let step := 4 * one * Nat.pow 10 exponent.toNat
  let value := 4 * units * scale
  let lower := value / step
  let below := value - lower * step
  let above := (lower + 1) * step - value
  let lowerFits := within units below (reachBelow units * scale)
  let upperFits := within units above (2 * spacing units * scale)
  if lowerFits && (!upperFits || below < above || (below == above && lower % 2 == 0)) then
    some ⟨lower, exponent⟩
  else if upperFits then some ⟨lower + 1, exponent⟩
  else none

/-- Drop zeros at the end of the coefficient, at most so many. -/
def dropZeros : Nat → Decimal → Decimal
  | 0, d => d
  | n + 1, d =>
    if d.coefficient % 10 == 0 then dropZeros n ⟨d.coefficient / 10, d.exponent + 1⟩ else d

/-- Seventeen digits always suffice. -/
def shortest (units : Nat) : Decimal :=
  let first := leading units
  match (List.range 17).findSome? fun n : Nat => onGrid? units (first - (n : Int)) with
  | some d => dropZeros 17 d
  | none => ⟨units, 0⟩

end Decimal
end Switchboard
