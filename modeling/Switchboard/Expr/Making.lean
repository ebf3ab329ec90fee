-- Which values an expression makes, and which it only finds among its constants and in the state.
-- It matters where a value counts as another one unless it is the very same: of most values every
-- making gives a new one, although it looks like the last.
import Switchboard.Expr
import Switchboard.Equality
namespace Switchboard

namespace Value

/-- Is there a single such value, which is the very same wherever it comes from? So it is with
nothing, the truth values, small integers and the shortest texts. -/
def isUnique : Value → Bool
  | null | bool _ => true
  | int n => -5 ≤ n && n ≤ 256
  | text s => s.length ≤ 1
  | _ => false

/-- Is a value the very same as another, wherever the two come from? -/
def isSame (a b : Value) : Bool :=
  match a, b with
  | scalar s, scalar t => s = t && isUnique a
  | a, b => a.isIdentical b

/-- Does a value look like another? Containers and functions then are the very same. -/
def looksLike : Value → Value → Bool
  | scalar s, scalar t => s = t
  | a, b => a.isIdentical b

end Value

/-- Does an operator make such a value? Plus passes on what it is given. -/
def UnaryOperator.makes (op : UnaryOperator) (v : Value) : Bool :=
  match op with
  | plus => false
  | _ => !v.isUnique

/-- Does an operator make such a value? The NaN of a remainder and the positive infinity of a
quotient or power are constants. -/
def BinaryOperator.makes (op : BinaryOperator) (v : Value) : Bool :=
  match op, v with
  | remainder, .float .nan => false
  | divide, .float (.infinity false) => false
  | power, .float (.infinity false) => false
  | _, v => !v.isUnique

namespace Expr

mutual

/-- Is a value that an expression has, as far as can be told from the expression, one it made? A
choice makes what one of its parts makes. -/
def makes (v : Value) : Expr → Bool
  | literal .. | identifier _ | self | member .. => false
  | unary (.text op) _ _ => (UnaryOperator.ofText? op).any (·.makes v)
  | binary (.text op) _ _ => (BinaryOperator.ofText? op).any (·.makes v)
  | unary .. | binary .. => false
  | logical _ left right => makes v left || makes v right
  | conditional _ consequent alternate => makes v consequent || makes v alternate
  | call .. | array _ => !v.isUnique
  | compound body => lastMakes v body

def lastMakes (v : Value) : List Expr → Bool
  | [] => false
  | [e] => makes v e
  | _ :: rest => lastMakes v rest

end
end Expr
end Switchboard
