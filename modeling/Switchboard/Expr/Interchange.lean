-- Expression trees as interchange data, both ways. Reading also takes a text for a node, which is
-- then read as interchange text, leaves out what has a default and ignores unknown fields.
import Switchboard.Expr
import Switchboard.Datum.Reading
namespace Switchboard.Expr

/-! ## Writing -/

mutual

/-- A tree as data, the values of its literals written by the given rule. -/
def toDatumWith (constant : Datum → Datum) : Expr → Datum
  | literal value .null => .map [("type", .text "Literal"), ("value", constant value)]
  | literal value raw =>
    .map [("type", .text "Literal"), ("value", constant value), ("raw", raw)]
  | identifier name => .map [("type", .text "Identifier"), ("name", name)]
  | self => .map [("type", .text "ThisExpression")]
  | member object property computed =>
    .map [("type", .text "MemberExpression"), ("computed", .bool computed),
      ("object", toDatumWith constant object), ("property", toDatumWith constant property)]
  | unary operator argument leading =>
    .map [("type", .text "UnaryExpression"), ("operator", operator),
      ("argument", toDatumWith constant argument), ("prefix", leading)]
  | binary operator left right =>
    .map [("type", .text "BinaryExpression"), ("operator", operator),
      ("left", toDatumWith constant left), ("right", toDatumWith constant right)]
  | logical operator left right =>
    .map [("type", .text "LogicalExpression"), ("operator", operator),
      ("left", toDatumWith constant left), ("right", toDatumWith constant right)]
  | conditional test consequent alternate =>
    .map [("type", .text "ConditionalExpression"), ("test", toDatumWith constant test),
      ("consequent", toDatumWith constant consequent),
      ("alternate", toDatumWith constant alternate)]
  | call callee arguments =>
    .map [("type", .text "CallExpression"), ("callee", toDatumWith constant callee),
      ("arguments", .list (toDataWith constant arguments))]
  | array elements =>
    .map [("type", .text "ArrayExpression"), ("elements", .list (toDataWith constant elements))]
  | compound body =>
    .map [("type", .text "Compound"), ("body", .list (toDataWith constant body))]

def toDataWith (constant : Datum → Datum) : List Expr → List Datum
  | [] => []
  | e :: rest => toDatumWith constant e :: toDataWith constant rest

end

/-- A tree as interchange data. -/
def toDatum (e : Expr) : Datum := toDatumWith id e

/-- A tree as it stands in a message: its kind around its data. -/
def written (e : Expr) : Except Fault String := do
  return e.kind ++ "(" ++ (← e.toDatum.written) ++ ")"

/-! ## Reading -/

/-- A field that must be there. -/
def field (d : Datum) (name : String) : Except Fault Datum :=
  match d.field? name with
  | some v => .ok v
  | none => .error (.noField name)

/-- A field that may be missing. -/
def fieldOr (d : Datum) (name : String) (default : Datum) : Datum := (d.field? name).getD default

/-- The data that stand for several nodes: the items of a list, the keys of a table, or the
characters of a text. -/
def several : Datum → Except Fault (List Datum)
  | .list items => .ok items
  | .map entries => .ok (entries.map fun e => .text e.1)
  | .text s => .ok (s.toList.map fun c => .text (String.singleton c))
  | _ => .error .wrongType

/-- The data of a node, read first if they are a text. -/
def nodeData : Datum → Except Fault Datum
  | .text s => Datum.ofText s
  | d => .ok d

/-- Build a tree from data, to the given depth. -/
def build : Nat → Datum → Except Fault Expr
  | 0, _ => .error .exhausted
  | n + 1, given => do
    let d ← nodeData given
    let .map _ := d | .error .noAttribute
    match fieldOr d "type" .null with
    | .text "Literal" => return literal (fieldOr d "value" .null) (fieldOr d "raw" .null)
    | .text "Identifier" => return identifier (← field d "name")
    | .text "ThisExpression" => return self
    | .text "MemberExpression" =>
      let object ← build n (← field d "object")
      let property ← build n (← field d "property")
      return member object property (fieldOr d "computed" (.bool false)).isGiven
    | .text "UnaryExpression" =>
      let operator ← field d "operator"
      let argument ← build n (← field d "argument")
      return unary operator argument (fieldOr d "prefix" (.bool true))
    | .text "BinaryExpression" =>
      let operator ← field d "operator"
      let left ← build n (← field d "left")
      return binary operator left (← build n (← field d "right"))
    | .text "LogicalExpression" =>
      let operator ← field d "operator"
      let left ← build n (← field d "left")
      return logical operator left (← build n (← field d "right"))
    | .text "ConditionalExpression" =>
      let test ← build n (← field d "test")
      let consequent ← build n (← field d "consequent")
      return conditional test consequent (← build n (← field d "alternate"))
    | .text "CallExpression" =>
      let callee ← build n (← field d "callee")
      return call callee (← (← several (← field d "arguments")).mapM (build n))
    | .text "ArrayExpression" =>
      return array (← (← several (← field d "elements")).mapM (build n))
    | .text "Compound" => return compound (← (← several (← field d "body")).mapM (build n))
    | kind => .error (.unknownNode (← kind.shown))

/-- The tree that interchange data describe. No tree is deeper than its data are large, because a
text that is read gives data smaller than itself. -/
def ofDatum (d : Datum) : Except Fault Expr := build (d.size + 1) d

end Switchboard.Expr
