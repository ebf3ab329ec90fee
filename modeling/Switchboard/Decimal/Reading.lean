-- Floating point numbers from decimal text: a sign, digits of any script with a point among
-- them, an exponent, or a word for infinity or NaN. The text is read exactly and rounded once.
import Switchboard.Binary64
import Switchboard.Text.Digits
namespace Switchboard.Decimal

open Text

/-- The number nearest to `coefficient * 10 ^ exponent`. Beyond all numbers, on either side, the
exact value is not computed. -/
def nearest (negative : Bool) (coefficient : Nat) (exponent : Int) : Binary64 :=
  let top := (coefficient.repr.length : Int) + exponent
  if coefficient == 0 || top < -330 then .finite negative 0
  else if 310 < top then .infinity negative
  else
    .ofRatio negative (coefficient * Nat.pow 10 exponent.toNat) (Nat.pow 10 (-exponent).toNat)

/-- An optional run of digits: nothing, or a run. -/
def optionalRun? (cs : List Char) : Option (List Nat) :=
  if cs.isEmpty then some [] else digitRun? cs

/-- The characters before the first one of a kind, and those after it if there is one. -/
def splitAt (isMark : Char → Bool) (cs : List Char) : List Char × Option (List Char) :=
  match cs.span (!isMark ·) with
  | (front, []) => (front, none)
  | (front, _ :: back) => (front, some back)

def exponent? (cs : List Char) : Option Int := do
  let (negative, body) := sign cs
  let digits ← digitRun? body
  return Binary64.signed negative (ofDigits 10 digits)

/-- A number without sign: digits, a point and digits, an exponent. Digits must stand on one side
of the point at least. -/
def unsigned? (negative : Bool) (cs : List Char) : Option Binary64 := do
  let (body, power) := splitAt (fun c => c == 'e' || c == 'E') cs
  let exponent ← power.elim (some 0) exponent?
  let (front, back) := splitAt (· == '.') body
  let whole ← optionalRun? front
  let fraction ← back.elim (some []) optionalRun?
  guard (!(whole.isEmpty && fraction.isEmpty))
  return nearest negative (ofDigits 10 (whole ++ fraction)) (exponent - fraction.length)

/-- A floating point number from text, blanks at the ends allowed. -/
def readFloat? (cs : List Char) : Option Binary64 :=
  let (negative, body) := sign (trim cs)
  let word := String.ofList (body.map Char.toLower)
  if word == "inf" || word == "infinity" then some (.infinity negative)
  else if word == "nan" then some .nan
  else unsigned? negative body

end Switchboard.Decimal
