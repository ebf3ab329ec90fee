-- The interchange text of data, in characters of ASCII only.
import Switchboard.Datum
namespace Switchboard.Datum

/-- A sixteen-bit unit as an escape. -/
def unitEscape (unit : Nat) : List Char := '\\' :: 'u' :: Text.hex 4 unit

/-- A character within a text. Beyond sixteen bits it is written as a pair of units. -/
def escaped (c : Char) : List Char :=
  if c == '"' || c == '\\' then ['\\', c]
  else if c == '\n' then ['\\', 'n']
  else if c == '\r' then ['\\', 'r']
  else if c == '\t' then ['\\', 't']
  else if c == '\x08' then ['\\', 'b']
  else if c == '\x0c' then ['\\', 'f']
  else if 0x20 ≤ c.toNat && c.toNat < 0x7f then [c]
  else if c.toNat < 0x10000 then unitEscape c.toNat
  else
    let rest := c.toNat - 0x10000
    unitEscape (0xd800 + rest / 0x400) ++ unitEscape (0xdc00 + rest % 0x400)

def quoted (s : String) : String := String.ofList ('"' :: s.toList.flatMap escaped ++ ['"'])

/-- Infinities and NaN are written as words. -/
def scalarText : Scalar → Except Fault String
  | .null => .ok "null"
  | .bool b => .ok (if b then "true" else "false")
  | .int n => if Text.isWritable n then .ok (toString n) else .error .badValue
  | .float .nan => .ok "NaN"
  | .float (.infinity negative) => .ok (if negative then "-Infinity" else "Infinity")
  | .float x => .ok x.text
  | .text s => .ok (quoted s)

mutual

def toText : Datum → Except Fault String
  | scalar s => scalarText s
  | list items => do return "[" ++ ", ".intercalate (← itemTexts items) ++ "]"
  | map entries => do return "\x7b" ++ ", ".intercalate (← entryTexts entries) ++ "\x7d"

def itemTexts : List Datum → Except Fault (List String)
  | [] => .ok []
  | d :: rest => do return (← toText d) :: (← itemTexts rest)

def entryTexts : List (String × Datum) → Except Fault (List String)
  | [] => .ok []
  | (k, d) :: rest => do return (quoted k ++ ": " ++ (← toText d)) :: (← entryTexts rest)

end
end Switchboard.Datum
