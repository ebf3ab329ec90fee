-- The two equalities of expressions. The strict one compares numbers by amount, other scalars by
-- kind and value, and everything else by identity. The loose one lets a scalar meet a scalar of
-- another kind as a number, and a container as its text.
import Switchboard.Coercion
namespace Switchboard.Value

/-- Are two values one and the same thing? -/
def isIdentical : Value → Value → Bool
  | list a _, list b _ => a == b
  | map a _, map b _ => a == b
  | object a _, object b _ => a == b
  | function f, function g => f = g
  | _, _ => false

def strictEquals (a b : Value) : Bool :=
  match a.number?, b.number? with
  | some x, some y => x.same y
  | _, _ =>
    match a, b with
    | scalar s, scalar t => decide (s = t)
    | a, b => a.isIdentical b

/-- Are two scalars of one kind? The numbers are a single kind. -/
def sameKind : Scalar → Scalar → Bool
  | .null, .null => true
  | .bool _, .bool _ => true
  | .text _, .text _ => true
  | .int _, .int _ => true
  | .int _, .float _ => true
  | .float _, .int _ => true
  | .float _, .float _ => true
  | _, _ => false

/-- Loose equality of two scalars, neither of which is nothing. -/
def scalarsEqual (s t : Scalar) : Bool :=
  if sameKind s t then strictEquals (scalar s) (scalar t)
  else (toNumber (scalar s)).same (toNumber (scalar t))

def looseEquals (a b : Value) : Except Fault Bool :=
  match a, b with
  | null, null => .ok true
  | null, _ => .ok false
  | _, null => .ok false
  | scalar s, scalar t => .ok (scalarsEqual s t)
  | scalar s, b => do return scalarsEqual s (.text (← b.toText))
  | a, scalar t => do return scalarsEqual (.text (← a.toText)) t
  | a, b => .ok (a.isIdentical b)

end Switchboard.Value
