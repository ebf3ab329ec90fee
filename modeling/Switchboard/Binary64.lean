-- Floating point numbers of 64 bits, held exactly. A finite number is a sign and a count of the
-- smallest positive one, 2^-1074, so each operation is one on integers and one rounding: to the
-- nearest number, of two equally near ones to that whose significand is even.
namespace Switchboard

/-- A floating point number of 64 bits. There is one NaN, and zero has a sign. -/
inductive Binary64
  | nan
  | infinity (negative : Bool)
  | finite (negative : Bool) (units : Nat)
deriving DecidableEq

namespace Binary64

/-! ## Scale and rounding -/

/-- How many units one holds. -/
def one : Nat := Nat.pow 2 1074

/-- The first count of units that is too large. -/
def limit : Nat := Nat.pow 2 2098

/-- The distance between neighbouring numbers at a count of units: 53 significant bits are kept. -/
def spacing (units : Nat) : Nat := if units < Nat.pow 2 53 then 1 else Nat.pow 2 (units.log2 - 52)

/-- The multiple of `step` nearest to `num / den`, and the even one of two. -/
def nearestMultiple (num den step : Nat) : Nat :=
  let whole := num / (den * step)
  let rest := num % (den * step)
  if 2 * rest > den * step || (2 * rest == den * step && whole % 2 == 1) then (whole + 1) * step
  else whole * step

/-- The number nearest to `num / den` units. -/
def round (negative : Bool) (num den : Nat) : Binary64 :=
  let units := nearestMultiple num den (spacing (num / den))
  if units < limit then finite negative units else infinity negative

/-- The number nearest to `num / den`. -/
def ofRatio (negative : Bool) (num den : Nat) : Binary64 := round negative (num * one) den

def zero : Binary64 := finite false 0

/-- The number nearest to an integer, unless that is infinite. -/
def ofInt? (n : Int) : Option Binary64 :=
  match ofRatio (n < 0) n.natAbs 1 with
  | finite negative units => some (finite negative units)
  | _ => none

/-! ## Kinds -/

def isNan : Binary64 → Bool
  | nan => true
  | _ => false

def isInfinite : Binary64 → Bool
  | infinity _ => true
  | _ => false

def isZero : Binary64 → Bool
  | finite _ 0 => true
  | _ => false

def isNegative : Binary64 → Bool
  | nan => false
  | infinity negative => negative
  | finite negative _ => negative

/-- A count of units with its sign. -/
def signed (negative : Bool) (units : Nat) : Int := if negative then -units else units

/-- The integer part, the fraction cut off. -/
def truncate? : Binary64 → Option Int
  | finite negative units => some (signed negative (units / one))
  | _ => none

/-- The integer that a number is equal to. -/
def toInt? : Binary64 → Option Int
  | finite negative units =>
    if units % one == 0 then some (signed negative (units / one)) else none
  | _ => none

/-! ## Order -/

/-- The order of two numbers, none if one is NaN. The two zeros are equal. -/
def order? : Binary64 → Binary64 → Option Ordering
  | nan, _ => none
  | _, nan => none
  | infinity a, infinity b => some (if a == b then .eq else if a then .lt else .gt)
  | infinity a, finite _ _ => some (if a then .lt else .gt)
  | finite _ _, infinity b => some (if b then .gt else .lt)
  | finite a u, finite b v => some (compare (signed a u) (signed b v))

instance : LT Binary64 := ⟨fun x y => order? x y = some .lt⟩

instance : LE Binary64 := ⟨fun x y => order? x y = some .lt ∨ order? x y = some .eq⟩

instance : DecidableLT Binary64 := fun x y => inferInstanceAs (Decidable (order? x y = some .lt))

instance : DecidableLE Binary64 := fun x y =>
  inferInstanceAs (Decidable (order? x y = some .lt ∨ order? x y = some .eq))

/-- The larger number, and the first one if they do not compare. -/
instance : Max Binary64 := ⟨fun x y => if x < y then y else x⟩

/-! ## Arithmetic -/

def neg : Binary64 → Binary64
  | nan => nan
  | infinity negative => infinity (!negative)
  | finite negative units => finite (!negative) units

def add : Binary64 → Binary64 → Binary64
  | nan, _ => nan
  | _, nan => nan
  | infinity a, infinity b => if a == b then infinity a else nan
  | infinity a, finite _ _ => infinity a
  | finite _ _, infinity b => infinity b
  | finite a u, finite b v =>
    let sum := signed a u + signed b v
    if sum == 0 then finite (a && b) 0 else round (sum < 0) sum.natAbs 1

def sub (x y : Binary64) : Binary64 := add x (neg y)

instance : Zero Binary64 := ⟨zero⟩

instance : Add Binary64 := ⟨add⟩

instance : Sub Binary64 := ⟨sub⟩

def mul : Binary64 → Binary64 → Binary64
  | nan, _ => nan
  | _, nan => nan
  | infinity a, infinity b => infinity (a != b)
  | infinity a, finite b v => if v == 0 then nan else infinity (a != b)
  | finite a u, infinity b => if u == 0 then nan else infinity (a != b)
  | finite a u, finite b v => round (a != b) (u * v) one

def div : Binary64 → Binary64 → Binary64
  | nan, _ => nan
  | _, nan => nan
  | infinity _, infinity _ => nan
  | infinity a, finite b _ => infinity (a != b)
  | finite a _, infinity b => finite (a != b) 0
  | finite a u, finite b v =>
    if v == 0 then (if u == 0 then nan else infinity (a != b)) else ofRatio (a != b) u v

/-- The remainder of the division whose quotient is cut off to an integer. It is exact and has
the sign of the dividend. -/
def rem : Binary64 → Binary64 → Binary64
  | nan, _ => nan
  | _, nan => nan
  | infinity _, _ => nan
  | finite a u, infinity _ => finite a u
  | finite a u, finite _ v => if v == 0 then nan else finite a (u % v)

/-! ## Powers

The power of two finite numbers is that of the machine, reached through the interchange format.
-/

/-- The interchange format: a sign bit, eleven bits of exponent, 52 bits of significand. -/
def toBits : Binary64 → UInt64
  | nan => 0x7ff8000000000000
  | infinity negative => if negative then 0xfff0000000000000 else 0x7ff0000000000000
  | finite negative units =>
    let magnitude :=
      if units < Nat.pow 2 52 then units
      else
        let shift := units.log2 - 52
        (shift + 1) * Nat.pow 2 52 + (units / Nat.pow 2 shift - Nat.pow 2 52)
    UInt64.ofNat (if negative then magnitude + Nat.pow 2 63 else magnitude)

def ofBits (bits : UInt64) : Binary64 :=
  let negative := bits.toNat ≥ Nat.pow 2 63
  let exponent := bits.toNat / Nat.pow 2 52 % Nat.pow 2 11
  let fraction := bits.toNat % Nat.pow 2 52
  if exponent == 0x7ff then (if fraction == 0 then infinity negative else nan)
  else if exponent == 0 then finite negative fraction
  else finite negative ((Nat.pow 2 52 + fraction) * Nat.pow 2 (exponent - 1))

/-- Is it an odd integer? -/
def isOdd (x : Binary64) : Bool :=
  match x.toInt? with
  | some n => n % 2 == 1
  | none => false

/-- The magnitude against one. -/
def compareOne : Binary64 → Ordering
  | nan => .eq
  | infinity _ => .gt
  | finite _ units => compare units one

/-- The power. What has no real value is NaN, and what is too large is positive infinity. -/
def pow : Binary64 → Binary64 → Binary64
  | nan, y => if y.isZero then finite false one else nan
  | x, nan => if x == finite false one then x else nan
  | infinity negative, y =>
    if y.isZero then finite false one
    else if y.isNegative then finite (negative && y.isOdd) 0
    else infinity (negative && y.isOdd)
  | x, infinity negative =>
    match x.compareOne, negative with
    | .eq, _ => finite false one
    | .gt, false => infinity false
    | .lt, true => infinity false
    | _, _ => zero
  | x, y =>
    match ofBits (Float.pow (Float.ofBits x.toBits) (Float.ofBits y.toBits)).toBits with
    | infinity _ => infinity false
    | z => z

end Binary64
end Switchboard
