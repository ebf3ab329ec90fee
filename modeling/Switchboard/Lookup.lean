-- Following a path of keys into a value. What is missing is nothing, never a failure.
import Switchboard.Value
namespace Switchboard.Value

/-- The index that a key is: an integer, or a text that is exactly the decimal text of one. A text
of too many digits fails. -/
def index? : Value → Except Fault (Option Int)
  | int n => .ok (some n)
  | text s =>
    if s == "" || !s.toList.all Text.isDigit then .ok none
    else
      match Text.readInt? s.toList with
      | some n => .ok (if toString n == s then some n else none)
      | none => .error .badValue
  | _ => .ok none

/-- An index and its decimal text name the same entry: the other spelling of a key. -/
def otherSpelling? (key : Value) : Except Fault (Option Scalar) := do
  match ← key.index? with
  | none => return none
  | some n =>
    match key with
    | int _ => if Text.isWritable n then return some (.text (toString n)) else .error .badValue
    | _ => return some (.int n)

/-- The value of a table under a key. NaN is no key of an entry. -/
def under? (entries : List (Scalar × Value)) : Scalar → Option Value
  | .float .nan => none
  | key => Dict.get? entries key

/-- The item at an index, which counts from zero. -/
def item? {α : Type} (items : List α) (n : Int) : Option α :=
  if 0 ≤ n then items[n.toNat]? else none

/-- One step of a path. -/
def part (container key : Value) : Except Fault Value :=
  match container with
  | map _ entries =>
    if key.isHashable then do
      let found := key.asKey.toOption.bind (under? entries)
      match found with
      | some v => return v
      | none => return ((← key.otherSpelling?).bind (under? entries)).getD null
    else .error .wrongType
  | list _ items =>
    match key with
    | text "length" => .ok (int items.length)
    | key => do return ((← key.index?).bind (item? items)).getD null
  | text s =>
    match key with
    | text "length" => .ok (int s.length)
    | key => do
      let c := (← key.index?).bind (item? s.toList)
      return (c.map fun c => text (String.singleton c)).getD null
  | object _ attributes =>
    match key with
    | text name => .ok (if name.startsWith "_" then null else (Dict.get? attributes name).getD null)
    | _ => .ok null
  | _ => .ok null

/-- Follow a path. -/
def lookup (context : Value) (path : List Value) : Except Fault Value := path.foldlM part context

end Switchboard.Value
