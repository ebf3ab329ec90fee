-- Assignments: when a variable that is listened to changes, an expression is written to a state
-- key, perhaps under a condition, perhaps after a delay.
import Switchboard.Expr.Parser
import Switchboard.Expr.Variables
namespace Switchboard

/-- An assignment as it is asked for. -/
structure Draft where
  storage : Value
  expression : Value
  /-- The names to listen to, with commas between. -/
  listen : Value
  condition : Value
  /-- The delay in milliseconds. -/
  timeout : Value

structure Assignment where
  storage : Scalar
  /-- The text of the expression. -/
  source : Value
  expression : Expr
  condition : Option Expr
  timeout : Value

namespace Assignment

/-- Does the assignment wait before it is evaluated? -/
def isDeferred (a : Assignment) : Bool := a.timeout.isGiven

/-- The parts of a text between commas. -/
def splitCommas (cs : List Char) : List (List Char) :=
  match cs with
  | [] => [[]]
  | c :: rest =>
    match c == ',', splitCommas rest with
    | true, parts => [] :: parts
    | false, part :: parts => (c :: part) :: parts
    | false, [] => [[c]]

/-- The names that a list of names holds, each once. -/
def namesOf (s : String) : List Scalar :=
  let names := (splitCommas s.toList).map Text.trim
  distinct ((names.filter (!·.isEmpty)).map fun cs => .text (String.ofList cs))

end Assignment

/-- An assignment whose expressions have been read, and which is not yet registered. -/
structure Prepared where
  draft : Draft
  expression : Expr
  condition : Option Expr

namespace Draft

/-- The condition, if one is given. -/
def parseCondition (d : Draft) : Except Fault (Option Expr) :=
  if d.condition.isGiven then do return some (← Expr.ofValue d.condition) else .ok none

/-- Read the expression and the condition. -/
def prepare (d : Draft) : Except Fault Prepared := do
  let expression ← Expr.ofValue d.expression
  return ⟨d, expression, ← d.parseCondition⟩

/-- Read an assignment that must have an expression. -/
def prepareGiven (d : Draft) : Except Fault Prepared :=
  match d.expression with
  | .null => do .error (.noExpression (← d.storage.shown))
  | _ => d.prepare

end Draft

namespace Prepared

/-- What an assignment listens to: the given names, or else the variables of its expression. -/
def listensTo (p : Prepared) : Except Fault (List Scalar) :=
  if p.draft.listen.isGiven then
    match p.draft.listen with
    | .text s => .ok (Assignment.namesOf s)
    | _ => .error .noAttribute
  else p.expression.freeVariables

/-- What an assignment listens to, and the assignment as it is registered there. One that listens
to nothing is not registered, so its storage does not matter. -/
def registration (p : Prepared) : Except Fault (List Scalar × Option Assignment) := do
  let names ← p.listensTo
  if names.isEmpty then return ([], none)
  let storage ← p.draft.storage.asKey
  return (names,
    some ⟨storage, p.draft.expression, p.expression, p.condition, p.draft.timeout⟩)

end Prepared
end Switchboard
