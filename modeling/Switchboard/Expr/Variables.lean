-- The state keys that an expression reads. Of a chain of members only its root counts, and what
-- its computed properties read; of a call only its arguments.
import Switchboard.Expr
namespace Switchboard.Expr

/-- Names that denote a constant or the context. -/
def reserved : List String := ["true", "false", "null", "undefined", "this"]

/-- Add a name of the state, unless it is reserved. -/
def addName (name : Datum) (found : List Datum) : Except Fault (List Datum) :=
  match name with
  | .text s => .ok (if reserved.contains s then found else found ++ [name])
  | .scalar _ => .ok (found ++ [name])
  | _ => .error .wrongType

/-- The name a node is. -/
def name? : Expr → Except Fault Datum
  | identifier name => .ok name
  | _ => .error .noAttribute

mutual

/-- Add the names that a node reads, and then go on with `later`. A chain of members is followed
to its root, and `later` grows by the computed properties passed on the way, so that the root
comes first. `dotted` is the property that is taken of this node by name, if one is. -/
def gather (dotted : Option Expr) (later : List Datum → Except Fault (List Datum)) :
    Expr → List Datum → Except Fault (List Datum)
  | literal .., found => later found
  | identifier name, found => do later (← addName name found)
  | self, found =>
    match dotted with
    | some property => do later (found ++ [← property.name?])
    | none => later found
  | member object property computed, found =>
    if computed then
      gather none (fun found => do later (← gather none pure property found)) object found
    else gather (some property) later object found
  | unary _ argument _, found => gather none later argument found
  | binary _ left right, found => do
    later (← gather none pure right (← gather none pure left found))
  | logical _ left right, found => do
    later (← gather none pure right (← gather none pure left found))
  | conditional test consequent alternate, found => do
    let found ← gather none pure test found
    let found ← gather none pure consequent found
    later (← gather none pure alternate found)
  | call _ arguments, found => do later (← gatherAll arguments found)
  | array elements, found => do later (← gatherAll elements found)
  | compound body, found => do later (← gatherAll body found)

def gatherAll : List Expr → List Datum → Except Fault (List Datum)
  | [], found => .ok found
  | e :: rest, found => do gatherAll rest (← gather none pure e found)

end

/-- The names an expression reads from the state, each once, in the order of their first use. -/
def freeVariables (e : Expr) : Except Fault (List Scalar) := do
  let found ← gather none pure e []
  let names ← found.mapM fun d => d.toValue.asKey
  return distinct names

end Switchboard.Expr
