-- Evaluation of expressions. It is eager: both operands of every operator and both branches of a
-- conditional are evaluated before anything is done with them. Names and members are paths into
-- the context. Functions belong to a host, whose state runs through the whole evaluation.
import Switchboard.Expr
import Switchboard.Lookup
import Switchboard.Run
namespace Switchboard

/-- What an evaluation asks of its surroundings. -/
structure Host (ω : Type) where
  /-- Call a function. -/
  call : Function → List Value → Run ω Value
  /-- An identity that no container carries yet. -/
  fresh : Run ω Nat

namespace Expr

/-- A value used as a key: a whole number is an integer, and what has parts is its text. -/
def normalKey : Value → Except Fault Value
  | .float x => .ok ((x.toInt?).elim (.float x) .int)
  | .scalar s => .ok (.scalar s)
  | v => do return .text (← v.toText)

/-- The key of a property that is given by name. -/
def nameKey : Expr → Except Fault Value
  | identifier name => .ok name.toValue
  | _ => .error (.misuse .propertyKind)

/-- The operator a datum names. -/
def operator? {α : Type} (ofText? : String → Option α) (unknown : String → Misuse)
    (name : Datum) : Except Fault α :=
  match name with
  | .list _ | .map _ => .error .wrongType
  | .scalar s =>
    match (match s with
      | .text s => ofText? s
      | _ => none) with
    | some op => .ok op
    | none => do .error (.misuse (unknown (← (Datum.scalar s).shown)))

/-- The text of a path in a message. -/
def pathText (path : List Value) : Except Fault String := do
  return ".".intercalate (← path.mapM Value.shown)

/-- What an expression is the path for. -/
inductive Role
  | object
  | callee

/-- The fault of a node that denotes no place. -/
def Role.misfit : Role → Expr → Fault
  | object, e => .misuse (.objectKind e.kind)
  | callee, _ => .misuse .calleeKind

section

variable {ω : Type} (host : Host ω) (context : Value)

mutual

def evaluate : Expr → Run ω Value
  | literal value _ => value.build host.fresh
  | self => pure context
  | compound body => evaluateLast .null body
  | array elements => do
    let items ← evaluateAll elements
    return .list (← host.fresh) items
  | unary operator argument _ => do
    let op ← .ofExcept (operator? UnaryOperator.ofText? .unknownUnary operator)
    let v ← evaluate argument
    .ofExcept (op.apply v)
  | binary operator left right => do
    let op ← .ofExcept (operator? BinaryOperator.ofText? .unknownBinary operator)
    let a ← evaluate left
    let b ← evaluate right
    .ofExcept (op.apply a b)
  | logical operator left right => do
    let op ← .ofExcept (operator? BinaryOperator.ofText? .unknownBinary operator)
    let a ← evaluate left
    let b ← evaluate right
    .ofExcept (op.apply a b)
  | conditional test consequent alternate => do
    let t ← evaluate test
    let a ← evaluate consequent
    let b ← evaluate alternate
    return if ← .ofExcept t.isTruthy then a else b
  | call callee arguments => do
    let path ← pathOf .callee callee
    let f ← .ofExcept (context.lookup path)
    let args ← evaluateAll arguments
    match f with
    | .function f => host.call f args
    | _ => .ofExcept (do .error (.misuse (.notAFunction (← pathText path))))
  | identifier name => .ofExcept (context.lookup [name.toValue])
  | member object property computed => do
    let front ← pathOf .object object
    let key ←
      if computed then do
        let v ← evaluate property
        .ofExcept (normalKey v)
      else .ofExcept (nameKey property)
    .ofExcept (context.lookup (front ++ [key]))

/-- The path of keys that a chain of members describes. -/
def pathOf (role : Role) : Expr → Run ω (List Value)
  | self =>
    match role with
    | .object => pure []
    | .callee => throw (role.misfit self)
  | identifier name => pure [name.toValue]
  | member object property computed => do
    let front ← pathOf .object object
    let key ←
      if computed then do
        let v ← evaluate property
        .ofExcept (normalKey v)
      else .ofExcept (nameKey property)
    return front ++ [key]
  | e => throw (role.misfit e)

/-- The values of all expressions of a list. -/
def evaluateAll : List Expr → Run ω (List Value)
  | [] => pure []
  | e :: rest => do
    let v ← evaluate e
    return v :: (← evaluateAll rest)

/-- The value of the last expression of a list, after all others. -/
def evaluateLast (last : Value) : List Expr → Run ω Value
  | [] => pure last
  | e :: rest => do evaluateLast (← evaluate e) rest

end
end
end Expr
end Switchboard
