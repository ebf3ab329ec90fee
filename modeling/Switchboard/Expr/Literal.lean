-- The constants that tokens spell. A token of the right shape can still have no value: an
-- integer of too many digits, an escape that is cut short, a character no text may hold raw.
import Switchboard.Expr
import Switchboard.Expr.Token
import Switchboard.Decimal.Reading
namespace Switchboard.Literal

open Text

/-! ## Numbers -/

/-- Digits alone are an integer, all else is a floating point number. -/
def number? (spelling : String) : Option Scalar :=
  let cs := spelling.toList
  if cs.all isDigit then (readInt? cs).map .int else (Decimal.readFloat? cs).map .float

/-- Hexadecimal integers have no limit. -/
def hexNumber? (spelling : String) : Option Scalar := do
  let digits ← (spelling.toList.drop 2).mapM hexDigit?
  return .int (ofDigits 16 digits)

/-! ## Texts -/

/-- The escapes of a single letter. -/
def escape? : Char → Option Char
  | '\\' => some '\\'
  | '\'' => some '\''
  | '"' => some '"'
  | 'a' => some '\x07'
  | 'b' => some '\x08'
  | 'f' => some '\x0c'
  | 'n' => some '\n'
  | 'r' => some '\r'
  | 't' => some '\t'
  | 'v' => some '\x0b'
  | _ => none

/-- How many hexadecimal digits follow a letter. -/
def hexWidth? : Char → Option Nat
  | 'x' => some 2
  | 'u' => some 4
  | 'U' => some 8
  | _ => none

def octalDigit? (c : Char) : Option Nat :=
  if '0' ≤ c && c ≤ '7' then some (c.toNat - '0'.toNat) else none

/-- The character with a number. Halves of pairs are replaced. -/
def character? (n : Nat) : Option Char :=
  if n.isValidChar then some (Char.ofNat n) else if n < 0x110000 then some '\ufffd' else none

/-- What an escape still wants. -/
inductive Pending
  /-- No escape is open. -/
  | none
  /-- The character after a backslash. -/
  | letter
  /-- So many more hexadecimal digits, after some with this value. -/
  | hex (more value : Nat)
  /-- At most so many more octal digits, after some with this value. -/
  | octal (more value : Nat)

/-- The characters between the quotes, read one by one. An unknown escape is kept as it stands, and
a backslash before a carriage return takes it away. -/
def characters? : Pending → List Char → Option (List Char)
  | .none, [] => some []
  | .octal _ value, [] => (character? value).map ([·])
  | _, [] => none
  | .none, c :: rest =>
    if c == '\\' then characters? .letter rest
    else if c == '\r' || c == '\x00' then none
    else (characters? .none rest).map (c :: ·)
  | .letter, c :: rest =>
    match escape? c, hexWidth? c, octalDigit? c with
    | some plain, _, _ => (characters? .none rest).map (plain :: ·)
    | _, some width, _ => characters? (.hex width 0) rest
    | _, _, some digit => characters? (.octal 2 digit) rest
    | _, _, _ =>
      if c == '\r' then characters? .none rest
      else if c == '\x00' || c == 'N' then none
      else (characters? .none rest).map fun cs => '\\' :: c :: cs
  | .hex more value, c :: rest => do
    let value := 16 * value + (← hexDigit? c)
    if more ≤ 1 then return (← character? value) :: (← characters? .none rest)
    else characters? (.hex (more - 1) value) rest
  | .octal more value, c :: rest =>
    match octalDigit? c, more with
    | some digit, more + 1 => characters? (.octal more (8 * value + digit)) rest
    | _, _ => do
      let front ← character? value
      if c == '\\' then return front :: (← characters? .letter rest)
      else if c == '\r' || c == '\x00' then none
      else return front :: c :: (← characters? .none rest)

/-- The text between the quotes of a spelling. -/
def quoted? (spelling : String) : Option Scalar :=
  (characters? .none (spelling.toList.drop 1).dropLast).map fun cs => .text (String.ofList cs)

/-! ## Names -/

/-- The names of constants. -/
def ofName? (name : String) : Option Scalar :=
  match name with
  | "true" => some (.bool true)
  | "false" => some (.bool false)
  | "null" => some .null
  | "undefined" => some .null
  | _ => none

/-! ## Operands -/

/-- A literal node with its spelling. -/
def node (value : Scalar) (spelling : String) : Expr := .literal (.scalar value) (.text spelling)

/-- The node of a name where an operand is wanted. -/
def ofName (name : String) : Expr :=
  match ofName? name with
  | some value => node value name
  | none => if name == "this" then .self else .identifier (.text name)

/-- The operand a token is on its own: none if it is no operand, and an operand of which there is
no value if its spelling has none. -/
def operand? : Token → Option (Option Expr)
  | .number s => some ((number? s).map (node · s))
  | .hexNumber s => some ((hexNumber? s).map (node · s))
  | .quoted s => some ((quoted? s).map (node · s))
  | .name s => some (some (ofName s))
  | _ => none

end Switchboard.Literal
