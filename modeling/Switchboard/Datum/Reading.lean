-- Data from interchange text. Beyond the standard, infinities and NaN are read as words; of two
-- entries with one key the later value counts, at the place of the earlier.
import Switchboard.Datum
import Switchboard.Decimal.Reading
namespace Switchboard.Datum

open Text

def skipBlanks (cs : List Char) : List Char :=
  cs.dropWhile fun c => c == ' ' || c == '\t' || c == '\n' || c == '\r'

/-! ## Texts -/

/-- The number that four hexadecimal digits write. -/
def unit? (a b c d : Char) : Option Nat := do
  return ofDigits 16 [← hexDigit? a, ← hexDigit? b, ← hexDigit? c, ← hexDigit? d]

/-- The characters of a text that is read as units. A pair of units stands for one character, and
half a pair on its own is replaced. -/
def joined : List Nat → List Char
  | high :: low :: rest =>
    if 0xd800 ≤ high && high < 0xdc00 && 0xdc00 ≤ low && low < 0xe000 then
      Char.ofNat (0x10000 + (high - 0xd800) * 0x400 + (low - 0xdc00)) :: joined rest
    else single high :: joined (low :: rest)
  | [unit] => [single unit]
  | [] => []
where
  single (unit : Nat) : Char :=
    if 0xd800 ≤ unit && unit < 0xe000 then '\ufffd' else Char.ofNat unit

/-- The character that a letter after a backslash stands for. -/
def escape? : Char → Option Char
  | '"' => some '"'
  | '\\' => some '\\'
  | '/' => some '/'
  | 'b' => some '\x08'
  | 'f' => some '\x0c'
  | 'n' => some '\n'
  | 'r' => some '\r'
  | 't' => some '\t'
  | _ => none

/-- The units of a text after its opening quote. A character beyond sixteen bits counts as one. -/
def readUnits : List Char → Except Fault (List Nat × List Char)
  | [] => .error .badJson
  | '"' :: rest => .ok ([], rest)
  | '\\' :: 'u' :: a :: b :: c :: d :: rest =>
    match unit? a b c d with
    | none => .error .badJson
    | some unit => do
      let (units, rest) ← readUnits rest
      return (unit :: units, rest)
  | '\\' :: c :: rest =>
    match escape? c with
    | none => .error .badJson
    | some plain => do
      let (units, rest) ← readUnits rest
      return (plain.toNat :: units, rest)
  | c :: rest =>
    if c.toNat < 0x20 || c == '\\' then .error .badJson
    else do
      let (units, rest) ← readUnits rest
      return (c.toNat :: units, rest)

/-- The rest of a text after its opening quote. -/
def readText (cs : List Char) : Except Fault (String × List Char) := do
  let (units, rest) ← readUnits cs
  return (String.ofList (joined units), rest)

/-! ## Numbers -/

def isAsciiDigit (c : Char) : Bool := '0' ≤ c && c ≤ '9'

/-- The digits before the point. A zero stands alone. -/
def wholePart : List Char → List Char × List Char
  | '0' :: rest => (['0'], rest)
  | cs => cs.span isAsciiDigit

/-- A point and digits, if there are digits. -/
def fractionPart : List Char → List Char × List Char
  | '.' :: rest =>
    match rest.span isAsciiDigit with
    | ([], _) => ([], '.' :: rest)
    | (digits, after) => ('.' :: digits, after)
  | cs => ([], cs)

/-- A mark, a sign and digits, if there are digits. -/
def exponentPart (cs : List Char) : List Char × List Char :=
  match cs with
  | mark :: rest =>
    if mark == 'e' || mark == 'E' then
      let (signs, body) :=
        match rest with
        | '-' :: body => (['-'], body)
        | '+' :: body => (['+'], body)
        | body => ([], body)
      match body.span isAsciiDigit with
      | ([], _) => ([], cs)
      | (digits, after) => (mark :: signs ++ digits, after)
    else ([], cs)
  | [] => ([], [])

/-- A number, with a minus in front if it is negative. A fraction or exponent makes it a floating
point number. -/
def readNumber (minus : List Char) (cs : List Char) : Except Fault (Datum × List Char) :=
  match wholePart cs with
  | ([], _) => .error .badJson
  | (whole, rest) =>
    let (fraction, rest) := fractionPart rest
    let (power, rest) := exponentPart rest
    if fraction.isEmpty && power.isEmpty then
      match readInt? (minus ++ whole) with
      | some n => .ok (int n, rest)
      | none => .error .badValue
    else
      match Decimal.readFloat? (minus ++ whole ++ fraction ++ power) with
      | some x => .ok (float x, rest)
      | none => .error .badValue

/-! ## Everything -/

/-- The words, each with what it stands for. -/
def words : List (String × Datum) :=
  [("null", null), ("true", bool true), ("false", bool false), ("NaN", float .nan),
   ("Infinity", float (.infinity false)), ("-Infinity", float (.infinity true))]

/-- What follows a text at the front of the characters. -/
def after? (s : String) (cs : List Char) : Option (List Char) :=
  if s.toList.isPrefixOf cs then some (cs.drop s.length) else none

def readWord? (cs : List Char) : Option (Datum × List Char) :=
  words.findSome? fun w => (after? w.1 cs).map ((w.2, ·))

mutual

/-- Read one datum. The first number bounds the nesting. -/
def readDatum : Nat → List Char → Except Fault (Datum × List Char)
  | 0, _ => .error .exhausted
  | _ + 1, '"' :: rest => do
    let (s, rest) ← readText rest
    return (text s, rest)
  | n + 1, '[' :: rest =>
    match skipBlanks rest with
    | ']' :: rest => .ok (list [], rest)
    | rest => do
      let (items, rest) ← readItems n rest
      return (list items, rest)
  | n + 1, '\x7b' :: rest =>
    match skipBlanks rest with
    | '\x7d' :: rest => .ok (map [], rest)
    | rest => do
      let (entries, rest) ← readEntries n rest
      return (map (Dict.ofList entries), rest)
  | _ + 1, cs =>
    match readWord? cs with
    | some r => .ok r
    | none =>
      match cs with
      | '-' :: rest => readNumber ['-'] rest
      | cs => readNumber [] cs

/-- The items of a list up to its closing bracket. -/
def readItems : Nat → List Char → Except Fault (List Datum × List Char)
  | 0, _ => .error .exhausted
  | n + 1, cs => do
    let (d, rest) ← readDatum n cs
    match skipBlanks rest with
    | ',' :: rest =>
      let (items, rest) ← readItems n (skipBlanks rest)
      return (d :: items, rest)
    | ']' :: rest => return ([d], rest)
    | _ => .error .badJson

/-- The entries of a table up to its closing brace. -/
def readEntries : Nat → List Char → Except Fault (List (String × Datum) × List Char)
  | 0, _ => .error .exhausted
  | n + 1, '"' :: cs => do
    let (key, rest) ← readText cs
    match skipBlanks rest with
    | ':' :: rest =>
      let (d, rest) ← readDatum n (skipBlanks rest)
      match skipBlanks rest with
      | ',' :: rest =>
        let (entries, rest) ← readEntries n (skipBlanks rest)
        return ((key, d) :: entries, rest)
      | '\x7d' :: rest => return ([(key, d)], rest)
      | _ => .error .badJson
    | _ => .error .badJson
  | _ + 1, _ => .error .badJson

end

/-- The datum a whole text writes. -/
def ofText (s : String) : Except Fault Datum := do
  let cs := skipBlanks s.toList
  let (d, rest) ← readDatum (2 * cs.length + 2) cs
  if (skipBlanks rest).isEmpty then return d else .error .badJson

end Switchboard.Datum
