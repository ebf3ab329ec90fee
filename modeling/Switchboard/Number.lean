-- Numbers of two kinds: integers of any size and floating point numbers. Integers stay exact
-- among themselves, and an integer beside a floating point number is turned into one, which
-- fails when it is too large. Comparison is always exact.
import Switchboard.Value
namespace Switchboard

inductive Number
  | int (n : Int)
  | float (x : Binary64)
deriving DecidableEq

namespace Number

def toValue : Number → Value
  | int n => .int n
  | float x => .float x

/-- The floating point number an integer or float stands for. -/
def toFloat : Number → Except Fault Binary64
  | int n =>
    match Binary64.ofInt? n with
    | some x => .ok x
    | none => .error .overflow
  | float x => .ok x

/-! ## Order -/

/-- Is it zero, of either sign? -/
def isZero : Number → Bool
  | int n => n == 0
  | float x => x.isZero

/-- Is it NaN? The question fails on an integer too large for a floating point number. -/
def isNan (x : Number) : Except Fault Bool := do return (← x.toFloat).isNan

/-- The order of two numbers, none if one is NaN. It is exact between the kinds too. -/
def order? : Number → Number → Option Ordering
  | int a, int b => some (compare a b)
  | float x, float y => Binary64.order? x y
  | int a, float (.finite n u) => some (compare (a * Binary64.one) (Binary64.signed n u))
  | float (.finite n u), int b => some (compare (Binary64.signed n u) (b * Binary64.one))
  | int _, float (.infinity b) => some (if b then .gt else .lt)
  | float (.infinity a), int _ => some (if a then .lt else .gt)
  | int _, float .nan => none
  | float .nan, int _ => none

/-- Equality of amounts. NaN is unequal to itself. -/
def same (x y : Number) : Bool := order? x y == some .eq

/-! ## Arithmetic -/

/-- An operation that is exact on integers and rounds on floating point numbers. -/
def lift (exact : Int → Int → Int) (rounded : Binary64 → Binary64 → Binary64) :
    Number → Number → Except Fault Number
  | int a, int b => .ok (int (exact a b))
  | x, y => do return float (rounded (← x.toFloat) (← y.toFloat))

def add : Number → Number → Except Fault Number := lift (· + ·) .add
def sub : Number → Number → Except Fault Number := lift (· - ·) .sub
def mul : Number → Number → Except Fault Number := lift (· * ·) .mul

def neg : Number → Number
  | int n => int (-n)
  | float x => float x.neg

/-- Does a zero divisor count as negative? Only the float zero below zero does. -/
def isNegativeZero : Number → Bool
  | int _ => false
  | float x => x.isNegative

/-- The quotient by zero: infinite with the sign of both, NaN for zero and NaN. -/
def divByZero (x y : Number) : Except Fault Number := do
  if x.isZero || (← x.isNan) then return float .nan
  else return float (.infinity ((order? x (int 0) == some .lt) != y.isNegativeZero))

/-- The quotient, a floating point number. Two integers are divided exactly and rounded once. -/
def div (x y : Number) : Except Fault Number :=
  if y.isZero then divByZero x y
  else
    match x, y with
    | int a, int b =>
      match Binary64.ofRatio ((a < 0) != (b < 0)) a.natAbs b.natAbs with
      | .infinity _ => .error .overflow
      | q => .ok (float q)
    | x, y => do return float (.div (← x.toFloat) (← y.toFloat))

/-- The remainder of the division cut off to an integer, with the sign of the dividend. -/
def rem (x y : Number) : Except Fault Number := do
  if y.isZero then return float .nan
  let a ← x.toFloat
  if a.isNan then return float .nan
  let b ← y.toFloat
  if b.isNan || a.isInfinite then return float .nan
  if b.isInfinite then return x
  match x, y with
  | int m, int n => return int (m.tmod n)
  | _, _ => return float (a.rem b)

/-- The power. A whole power of an integer is exact; a power without a real value is NaN, and one
too large is infinite. -/
def pow (x y : Number) : Except Fault Number := do
  let b ← y.toFloat
  if b.isNan then return float .nan
  match x, y with
  | int m, int n =>
    if 0 ≤ n then return int (m.pow n.toNat)
  | _, _ => pure ()
  if x.isZero && order? y (int 0) == some .lt then return float (.infinity false)
  match x.toFloat with
  | .ok a => return float (a.pow b)
  | .error _ => return float (.infinity false)

end Number
end Switchboard
