-- What a value counts as where a number, a text or a truth value is wanted.
import Switchboard.Number
import Switchboard.Decimal.Reading
namespace Switchboard.Value

/-! ## As a number -/

/-- The number a value is, without coercion. Truth values are none. -/
def number? : Value → Option Number
  | int n => some (.int n)
  | float x => some (.float x)
  | _ => none

/-- The number a text writes: zero if it is blank, an integer, a floating point number, else
NaN. -/
def numberOfText (s : String) : Number :=
  let body := Text.trim s.toList
  if body.isEmpty then .int 0
  else
    match Text.readInt? body, Decimal.readFloat? body with
    | some n, _ => .int n
    | none, some x => .float x
    | none, none => .float .nan

/-- Nothing and everything with parts counts as NaN. -/
def toNumber : Value → Number
  | bool b => .int (Scalar.ofBool b)
  | int n => .int n
  | float x => .float x
  | text s => numberOfText s
  | _ => .float .nan

/-- The integer part of what a value counts as, zero for NaN and the infinities. -/
def toInt (v : Value) : Int :=
  match v.toNumber with
  | .int n => n
  | .float x => (x.truncate?).getD 0

/-- The integer part modulo 2^32. -/
def toUInt32 (v : Value) : Int := v.toInt % Int.pow 2 32

/-- The integer part modulo 2^32, from -2^31 up. -/
def toInt32 (v : Value) : Int := Int.bmod v.toInt (Nat.pow 2 32)

/-- The span of time a value gives: a number, or a truth value as one. -/
def toSpan (v : Value) : Except Fault Binary64 :=
  match v with
  | bool _ | int _ | float _ => v.toNumber.toFloat
  | _ => .error .wrongType

/-- The span to wait that a value gives. An integer below zero is none, whatever its size. -/
def toDelay : Value → Except Fault Binary64
  | int n => (int (max n 0)).toSpan
  | v => v.toSpan

/-! ## As a text -/

/-- The decimal text of an integer, if it is short enough. -/
def integerText (n : Int) : Except Fault String :=
  if Text.isWritable n then .ok (toString n) else .error .badValue

/-- The text of a floating point number: words for NaN and the infinities, no fraction for a whole
number. -/
def floatText (x : Binary64) : Except Fault String :=
  match x with
  | .nan => .ok "NaN"
  | .infinity negative => .ok (if negative then "-Infinity" else "Infinity")
  | x => (x.toInt?).elim (.ok x.text) integerText

mutual

/-- The text a value counts as. A list is its items with commas between, a missing item empty. -/
def toText : Value → Except Fault String
  | null => .ok "undefined"
  | bool b => .ok (if b then "true" else "false")
  | int n => integerText n
  | float x => floatText x
  | text s => .ok s
  | list _ items => do return ",".intercalate (← itemTexts items)
  | map .. => .ok "[object Object]"
  | object .. => .ok "<object>"
  | function _ => .ok "<function>"

def itemTexts : List Value → Except Fault (List String)
  | [] => .ok []
  | null :: rest => do return "" :: (← itemTexts rest)
  | v :: rest => do return (← toText v) :: (← itemTexts rest)

end

/-! ## As a truth value -/

/-- Nothing, false, zero, NaN and the empty text are false. An integer is asked whether it is NaN
too, which fails on one that is too large. -/
def isTruthy : Value → Except Fault Bool
  | null => .ok false
  | bool b => .ok b
  | int n => if n == 0 then .ok false else return !(← (Number.int n).isNan)
  | float x => .ok !(x.isZero || x.isNan)
  | text s => .ok (s != "")
  | _ => .ok true

end Switchboard.Value
