-- Everything that can go wrong, by cause, and the wording of those causes that have one.
import Switchboard.Scalar
import Switchboard.Text.Quoted
import Switchboard.Text.Digits
import Switchboard.Decimal.Text
namespace Switchboard

/-- A place in a text. Lines and columns count from one. -/
structure Position where
  line : Nat
  column : Nat
deriving DecidableEq

/-- Why an expression tree cannot be evaluated. -/
inductive Misuse
  /-- There is no node at all. -/
  | nodeMissing
  /-- What stands for a node is none. -/
  | notANode
  /-- A member is taken of a node that does not denote a place. -/
  | objectKind (kind : String)
  /-- The property after a dot is no name. -/
  | propertyKind
  /-- The node that is called does not denote a place. -/
  | calleeKind
  | unknownUnary (operator : String)
  | unknownBinary (operator : String)
  | notAFunction (path : String)
deriving DecidableEq

inductive Fault
  /-- A text is no expression. Without a position, one of its literals has no value. -/
  | unreadable (text : String) (position : Option Position)
  | misuse (cause : Misuse)
  /-- A write would nest deeper than allowed. -/
  | cascadeTooDeep (key : Scalar) (limit : Int)
  | notWritable (control : String)
  /-- A field that a node needs is not there. -/
  | noField (name : String)
  | noSlot (slot control : String)
  /-- An expression is given as a value of another kind than text. -/
  | notText (kind : String)
  | noExpression (storage : String)
  | unknownNode (kind : String)
  | badDepth (text : String)
  /-- A value is of a kind that cannot be used here. -/
  | wrongType
  /-- A value of the right kind cannot be used. -/
  | badValue
  /-- A number is too large for a floating point number. -/
  | overflow
  | noAttribute
  | badJson
  /-- A function, listener or task of the host gave up. -/
  | host (message : String)
  /-- The computation of a derived value set a cell, or read the value itself. -/
  | impure
  /-- The bound on nested activity is used up. -/
  | exhausted
deriving DecidableEq

/-! ## Scalars in messages -/

namespace Scalar

/-- Integers of too many digits are not written. -/
def isWritable : Scalar → Bool
  | int n => Text.isWritable n
  | _ => true

/-- A scalar as it stands in a list or table: texts between quotes. -/
def written : Scalar → String
  | null => "None"
  | bool b => if b then "True" else "False"
  | int n => toString n
  | float x => x.text
  | text s => Text.quoted s

/-- A scalar as it stands in a sentence: texts as they are. -/
def shown : Scalar → String
  | text s => s
  | s => s.written

end Scalar

/-! ## Wording -/

namespace Misuse

def message : Misuse → String
  | nodeMissing => "Node missing"
  | notANode => "invalid node type None"
  | objectKind kind => s!"Invalid object type: {kind}"
  | propertyKind => "Invalid property type"
  | calleeKind => "Invalid function callee type"
  | unknownUnary operator => s!"Invalid unary operator: {operator}"
  | unknownBinary operator => s!"Invalid binary operator: {operator}"
  | notAFunction path => s!"{path} is not a function"

end Misuse

namespace Fault

/-- The cascade fault, or the fault of a key that cannot be written. -/
def cascade (key : Scalar) (limit : Int) : Fault :=
  if key.isWritable then cascadeTooDeep key limit else badValue

/-- The message of a fault that has one. -/
def message : Fault → Option String
  | unreadable text none => some s!"Cannot parse expression {Text.quoted text}."
  | unreadable text (some place) =>
    some (s!"Cannot parse expression {Text.quoted text}" ++
      s!" at line {place.line}, column {place.column}.")
  | misuse cause => some cause.message
  | cascadeTooDeep key limit =>
    some (s!"Assignment cascade exceeded depth {limit} while updating '" ++ key.shown ++
      "'. Check for cyclic assignments.")
  | notWritable control =>
    some s!"Control {control} has no storage slot and cannot be written"
  | noField name => some name
  | noSlot slot control => some (s!"No expression slot '" ++ slot ++ s!"' on control {control}")
  | notText kind => some s!"Expression must be a string, got {kind}"
  | noExpression storage => some (s!"Assignment to '" ++ storage ++ "' needs an expression")
  | unknownNode kind => some s!"Unknown expression type: {kind}"
  | badDepth text =>
    some ("EXPRESSION_MAX_CASCADE_DEPTH must be an integer or 'none', got " ++ Text.quoted text)
  | host message => some message
  | _ => none

end Fault
end Switchboard
