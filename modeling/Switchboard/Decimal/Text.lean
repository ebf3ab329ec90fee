-- The text of a floating point number. It is written by place from 0.0001 up to below 10^16 and
-- with an exponent outside, and it never looks like an integer.
import Switchboard.Decimal.Shortest
namespace Switchboard.Decimal

/-- An exponent with its sign and at least two digits. -/
def exponentText (e : Int) : String :=
  let digits := e.natAbs.repr
  (if e < 0 then "e-" else "e+") ++ (if digits.length < 2 then "0" ++ digits else digits)

/-- A positive decimal. -/
def text (d : Decimal) : String :=
  let digits := d.coefficient.repr.toList
  let first := d.exponent + digits.length - 1
  if -4 ≤ first && first < 16 then
    if first < 0 then
      String.ofList ('0' :: '.' :: List.replicate (-first - 1).toNat '0' ++ digits)
    else
      let whole := first.toNat + 1
      let padded := digits ++ List.replicate (whole - digits.length) '0'
      let fraction := if padded.length ≤ whole then ['0'] else padded.drop whole
      String.ofList (padded.take whole ++ '.' :: fraction)
  else
    let fraction := if digits.length ≤ 1 then [] else '.' :: digits.drop 1
    String.ofList (digits.take 1 ++ fraction) ++ exponentText first

end Switchboard.Decimal

namespace Switchboard.Binary64

def text : Binary64 → String
  | nan => "nan"
  | infinity negative => if negative then "-inf" else "inf"
  | finite negative units =>
    (if negative then "-" else "") ++
      if units == 0 then "0.0" else (Decimal.shortest units).text

end Switchboard.Binary64
