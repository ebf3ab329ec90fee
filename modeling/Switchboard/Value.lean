-- The values expressions work on. Lists, tables and objects have an identity, a number that no
-- other container carries, because they are compared by it and not by their contents.
import Switchboard.Dict
import Switchboard.Fault
namespace Switchboard

/-- A function an expression can call. -/
inductive Function
  /-- A random integer between two bounds. -/
  | randomInt
  /-- The time of day in milliseconds. -/
  | now
  /-- A function of the host, by name. -/
  | host (name : String)
deriving DecidableEq

inductive Value
  | scalar (s : Scalar)
  | list (identity : Nat) (items : List Value)
  | map (identity : Nat) (entries : List (Scalar × Value))
  /-- A thing of the host with named attributes. -/
  | object (identity : Nat) (attributes : List (String × Value))
  | function (f : Function)

namespace Value

@[match_pattern] abbrev null : Value := scalar .null
@[match_pattern] abbrev bool (b : Bool) : Value := scalar (.bool b)
@[match_pattern] abbrev int (n : Int) : Value := scalar (.int n)
@[match_pattern] abbrev float (x : Binary64) : Value := scalar (.float x)
@[match_pattern] abbrev text (s : String) : Value := scalar (.text s)

instance : Inhabited Value := ⟨null⟩

def isScalar : Value → Bool
  | scalar _ => true
  | _ => false

/-- Lists and tables can change, so they are no keys. -/
def isHashable : Value → Bool
  | list .. | map .. => false
  | _ => true

/-- Are two values the same, as keys are? -/
def sameKey : Value → Value → Bool
  | scalar a, scalar b => a == b
  | list a _, list b _ => a == b
  | map a _, map b _ => a == b
  | object a _, object b _ => a == b
  | function f, function g => f = g
  | _, _ => false

/-- A value used as the key of a table. -/
def asKey : Value → Except Fault Scalar
  | scalar s => .ok s
  | _ => .error .wrongType

/-- Does a value count as given? Nothing, zero and everything empty do not. -/
def isGiven : Value → Bool
  | null => false
  | bool b => b
  | int n => n != 0
  | float x => !x.isZero
  | text s => s != ""
  | list _ items => !items.isEmpty
  | map _ entries => !entries.isEmpty
  | object .. | function .. => true

/-! ## Values in messages -/

mutual

/-- A value as it stands in a list or table. -/
def written : Value → Except Fault String
  | scalar s => if s.isWritable then .ok s.written else .error .badValue
  | list _ items => do return "[" ++ ", ".intercalate (← writtenItems items) ++ "]"
  | map _ entries => do return "\x7b" ++ ", ".intercalate (← writtenEntries entries) ++ "\x7d"
  | object .. => .ok "<object>"
  | function _ => .ok "<function>"

def writtenItems : List Value → Except Fault (List String)
  | [] => .ok []
  | v :: rest => do return (← written v) :: (← writtenItems rest)

def writtenEntries : List (Scalar × Value) → Except Fault (List String)
  | [] => .ok []
  | (k, v) :: rest => do
    let key ← written (scalar k)
    return (key ++ ": " ++ (← written v)) :: (← writtenEntries rest)

end

/-- A value as it stands in a sentence. -/
def shown : Value → Except Fault String
  | text s => .ok s
  | v => v.written

end Value
end Switchboard
