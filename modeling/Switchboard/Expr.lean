-- Expression trees. What a node is called, its operator and the spelling of a literal are kept as
-- data, because a tree can also come from interchange data that no expression text would give.
import Switchboard.Datum
import Switchboard.Operators
namespace Switchboard

inductive Expr
  /-- A constant, with its spelling or nothing. -/
  | literal (value raw : Datum)
  | identifier (name : Datum)
  /-- The whole context. -/
  | self
  /-- A part of an object, by name or, if computed, by the value of the property. -/
  | member (object property : Expr) (computed : Bool)
  | unary (operator : Datum) (argument : Expr) (leading : Datum)
  | binary (operator : Datum) (left right : Expr)
  | logical (operator : Datum) (left right : Expr)
  | conditional (test consequent alternate : Expr)
  | call (callee : Expr) (arguments : List Expr)
  | array (elements : List Expr)
  /-- Several expressions, of which the last one counts. -/
  | compound (body : List Expr)

namespace Expr

instance : Inhabited Expr := ⟨self⟩

/-- The kind of a node, by the name it has in interchange data. -/
def kind : Expr → String
  | literal .. => "Literal"
  | identifier _ => "Identifier"
  | self => "ThisExpression"
  | member .. => "MemberExpression"
  | unary .. => "UnaryExpression"
  | binary .. => "BinaryExpression"
  | logical .. => "LogicalExpression"
  | conditional .. => "ConditionalExpression"
  | call .. => "CallExpression"
  | array _ => "ArrayExpression"
  | compound _ => "Compound"

/-- The node of an operator between two operands. -/
def ofBinary (op : BinaryOperator) (left right : Expr) : Expr :=
  if op.isLogical then logical (.text op.text) left right else binary (.text op.text) left right

/-- The node of an operator before its operand. -/
def ofUnary (op : UnaryOperator) (argument : Expr) : Expr :=
  unary (.text op.text) argument (.bool true)

/-! ## Equality

Two trees are equal if their nodes are of the same kinds and carry equal data. -/

mutual

def same : Expr → Expr → Bool
  | literal v r, literal w s => v.same w && r.same s
  | identifier n, identifier m => n.same m
  | self, self => true
  | member o p c, member q r d => same o q && same p r && c == d
  | unary o a l, unary p b m => o.same p && same a b && l.same m
  | binary o a b, binary p c d => o.same p && same a c && same b d
  | logical o a b, logical p c d => o.same p && same a c && same b d
  | conditional a b c, conditional d e f => same a d && same b e && same c f
  | call f as, call g bs => same f g && sameAll as bs
  | array as, array bs => sameAll as bs
  | compound as, compound bs => sameAll as bs
  | _, _ => false

def sameAll : List Expr → List Expr → Bool
  | [], [] => true
  | a :: as, b :: bs => same a b && sameAll as bs
  | _, _ => false

end
end Expr
end Switchboard
