-- The operators of expressions: their spelling and what they do to values that are already
-- computed. The logical operators only pick one of their operands.
import Switchboard.Equality
namespace Switchboard

inductive UnaryOperator
  | not
  | complement
  | plus
  | minus
  | increment
  | decrement
deriving DecidableEq

inductive BinaryOperator
  | or
  | and
  | bitOr
  | bitXor
  | bitAnd
  | strictEqual
  | strictUnequal
  | equal
  | unequal
  | lessEqual
  | greaterEqual
  | less
  | greater
  | unsignedShift
  | shiftLeft
  | shiftRight
  | add
  | subtract
  | multiply
  | divide
  | remainder
  | power
deriving DecidableEq

/-! ## Spelling -/

namespace UnaryOperator

/-- Longer spellings stand before those they begin with. -/
def all : List UnaryOperator := [increment, decrement, not, complement, plus, minus]

def text : UnaryOperator → String
  | not => "!"
  | complement => "~"
  | plus => "+"
  | minus => "-"
  | increment => "++"
  | decrement => "--"

def ofText? (s : String) : Option UnaryOperator := all.find? (·.text == s)

end UnaryOperator

namespace BinaryOperator

/-- Longer spellings stand before those they begin with. -/
def all : List BinaryOperator :=
  [strictEqual, strictUnequal, unsignedShift, equal, unequal, lessEqual, greaterEqual, shiftLeft,
   shiftRight, power, or, and, bitOr, bitXor, bitAnd, less, greater, add, subtract, multiply,
   divide, remainder]

def text : BinaryOperator → String
  | or => "||"
  | and => "&&"
  | bitOr => "|"
  | bitXor => "^"
  | bitAnd => "&"
  | strictEqual => "==="
  | strictUnequal => "!=="
  | equal => "=="
  | unequal => "!="
  | lessEqual => "<="
  | greaterEqual => ">="
  | less => "<"
  | greater => ">"
  | unsignedShift => ">>>"
  | shiftLeft => "<<"
  | shiftRight => ">>"
  | add => "+"
  | subtract => "-"
  | multiply => "*"
  | divide => "/"
  | remainder => "%"
  | power => "**"

def ofText? (s : String) : Option BinaryOperator := all.find? (·.text == s)

/-- How tightly an operator binds: a higher level binds tighter. -/
def level : BinaryOperator → Nat
  | or => 1
  | and => 2
  | bitOr => 3
  | bitXor => 4
  | bitAnd => 5
  | strictEqual | strictUnequal | equal | unequal => 6
  | lessEqual | greaterEqual | less | greater => 7
  | unsignedShift | shiftLeft | shiftRight => 8
  | add | subtract => 9
  | multiply | divide | remainder => 10
  | power => 11

/-- The logical operators make nodes of their own kind. -/
def isLogical : BinaryOperator → Bool
  | or | and => true
  | _ => false

end BinaryOperator

/-! ## What they do -/

namespace Value

/-- A sum, or the texts of both one after the other if either is a text or has parts. -/
def add (a b : Value) : Except Fault Value :=
  let joined : Except Fault Value := do
    let x ← a.toText
    let y ← b.toText
    return text (x ++ y)
  match a, b with
  | text _, _ => joined
  | _, text _ => joined
  | scalar _, scalar _ => do return (← a.toNumber.add b.toNumber).toValue
  | _, _ => joined

/-- An ordering test: two texts by code points, everything else as numbers. Nothing and NaN
satisfy no test. -/
def compareBy (holds : Ordering → Bool) (a b : Value) : Except Fault Bool :=
  match a, b with
  | text s, text t => .ok (holds (compare s t))
  | null, _ => .ok false
  | _, null => .ok false
  | a, b => do
    if ← a.toNumber.isNan then return false
    if ← b.toNumber.isNan then return false
    return ((a.toNumber.order? b.toNumber).map holds).getD false

/-- The amount of a shift: five bits of the operand. -/
def shift (v : Value) : Nat := (v.toUInt32 % 32).toNat

/-- An operation on the 32 bits of two operands, its result read as a signed integer. -/
def onBits (op : Nat → Nat → Nat) (a b : Value) : Value :=
  int (Int.bmod (op a.toUInt32.toNat b.toUInt32.toNat) (Nat.pow 2 32))

end Value

namespace UnaryOperator

open Value

def apply : UnaryOperator → Value → Except Fault Value
  | not, v => do return bool !(← v.isTruthy)
  | complement, v => .ok (int (-v.toInt32 - 1))
  | plus, v => .ok v.toNumber.toValue
  | minus, v => .ok v.toNumber.neg.toValue
  | increment, v => do return (← v.toNumber.add (.int 1)).toValue
  | decrement, v => do return (← v.toNumber.sub (.int 1)).toValue

end UnaryOperator

namespace BinaryOperator

open Value

def apply : BinaryOperator → Value → Value → Except Fault Value
  | strictEqual, a, b => .ok (bool (strictEquals a b))
  | strictUnequal, a, b => .ok (bool !(strictEquals a b))
  | equal, a, b => do return bool (← looseEquals a b)
  | unequal, a, b => do return bool !(← looseEquals a b)
  | greater, a, b => do return bool (← compareBy (· == .gt) a b)
  | less, a, b => do return bool (← compareBy (· == .lt) a b)
  | greaterEqual, a, b => do return bool (← compareBy (· != .lt) a b)
  | lessEqual, a, b => do return bool (← compareBy (· != .gt) a b)
  | add, a, b => a.add b
  | subtract, a, b => do return (← a.toNumber.sub b.toNumber).toValue
  | multiply, a, b => do return (← a.toNumber.mul b.toNumber).toValue
  | divide, a, b => do return (← a.toNumber.div b.toNumber).toValue
  | remainder, a, b => do return (← a.toNumber.rem b.toNumber).toValue
  | power, a, b => do return (← a.toNumber.pow b.toNumber).toValue
  | bitAnd, a, b => .ok (onBits (· &&& ·) a b)
  | bitOr, a, b => .ok (onBits (· ||| ·) a b)
  | bitXor, a, b => .ok (onBits (· ^^^ ·) a b)
  | shiftLeft, a, b => .ok (int (Int.bmod (a.toInt32 * Int.pow 2 b.shift) (Nat.pow 2 32)))
  | shiftRight, a, b => .ok (int (a.toInt32 / Int.pow 2 b.shift))
  | unsignedShift, a, b => .ok (int (a.toUInt32 / Int.pow 2 b.shift))
  | or, a, b => do return if ← a.isTruthy then a else b
  | and, a, b => do return if ← a.isTruthy then b else a

end BinaryOperator
end Switchboard
