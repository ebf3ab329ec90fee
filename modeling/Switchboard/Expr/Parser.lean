-- Reading expressions. The reader takes one token after the other and remembers what is still
-- open: signs and operators that wait for their right operand, conditionals, brackets. A tighter
-- operator is completed before a looser one takes its result; `**` groups to the right. A token
-- that nothing open can use is refused where it stands, so the first refused token is the first
-- one after which no expression could go on.
import Switchboard.Expr.Cut
import Switchboard.Expr.Literal
namespace Switchboard.Expr

/-! ## What is open -/

/-- Something that waits for an operand. -/
inductive Frame
  | sign (op : UnaryOperator)
  | left (operand : Expr) (op : BinaryOperator)
  /-- Between the question mark and the colon. -/
  | consequent (test : Expr)
  /-- Behind the colon. -/
  | alternate (test consequent : Expr)
  /-- Behind a comma, with the expressions before it. -/
  | sequence (done : List Expr)
  | paren
  | index (object : Expr)
  | arguments (callee : Expr) (done : List Expr)
  | elements (done : List Expr)

/-- Where reading stands, with the open frames from the inside out. -/
inductive State
  /-- An operand is wanted. -/
  | awaiting (frames : List Frame)
  /-- An operand has been read. -/
  | holding (frames : List Frame) (operand : Expr)
  /-- The name of a part of the object is wanted. -/
  | naming (frames : List Frame) (object : Expr)

namespace State

/-! ## Completing -/

/-- The tightness at which an operator takes what stands before it. -/
def bound (op : BinaryOperator) : Nat := if op = .power then op.level + 1 else op.level

/-- Complete the frames that bind at least so tightly. Conditionals are the loosest, at zero. -/
def reduce (tightness : Nat) : List Frame → Expr → List Frame × Expr
  | .sign op :: rest, e => reduce tightness rest (ofUnary op e)
  | .left l op :: rest, e =>
    if tightness ≤ op.level then reduce tightness rest (ofBinary op l e)
    else (.left l op :: rest, e)
  | .alternate t c :: rest, e =>
    if tightness = 0 then reduce tightness rest (conditional t c e)
    else (.alternate t c :: rest, e)
  | frames, e => (frames, e)

/-- Complete everything up to the nearest bracket. -/
def complete (frames : List Frame) (e : Expr) : List Frame × Expr :=
  match reduce 0 frames e with
  | (.sequence done :: rest, e) => (rest, compound (done ++ [e]))
  | r => r

/-! ## Taking a token -/

/-- Why a token is not taken. -/
inductive Refusal
  /-- No expression goes on like this. -/
  | unexpected
  /-- The token is a literal without a value. -/
  | valueless

/-- A token where an operand is wanted. -/
def takeOperand (frames : List Frame) (t : Token) : Except Refusal State :=
  match Literal.operand? t with
  | some (some e) => .ok (holding frames e)
  | some none => .error .valueless
  | none =>
    match t, frames with
    | .unary op, _ => .ok (awaiting (.sign op :: frames))
    | .openParen, _ => .ok (awaiting (.paren :: frames))
    | .openBracket, _ => .ok (awaiting (.elements [] :: frames))
    | .closeParen, .arguments f [] :: rest => .ok (holding rest (call f []))
    | .closeBracket, .elements [] :: rest => .ok (holding rest (array []))
    | _, _ => .error .unexpected

/-- A comma behind an operand. -/
def takeComma (frames : List Frame) (e : Expr) : Except Refusal State :=
  match reduce 0 frames e with
  | (.consequent _ :: _, _) => .error .unexpected
  | (.sequence done :: rest, e) => .ok (awaiting (.sequence (done ++ [e]) :: rest))
  | (.arguments f done :: rest, e) => .ok (awaiting (.arguments f (done ++ [e]) :: rest))
  | (.elements done :: rest, e) => .ok (awaiting (.elements (done ++ [e]) :: rest))
  | (rest, e) => .ok (awaiting (.sequence [e] :: rest))

/-- A token behind an operand. -/
def takeOperator (frames : List Frame) (e : Expr) (t : Token) : Except Refusal State :=
  match t with
  | .binary op =>
    let (rest, e) := reduce (bound op) frames e
    .ok (awaiting (.left e op :: rest))
  | .question =>
    let (rest, e) := reduce 1 frames e
    .ok (awaiting (.consequent e :: rest))
  | .colon =>
    match reduce 0 frames e with
    | (.consequent test :: rest, e) => .ok (awaiting (.alternate test e :: rest))
    | _ => .error .unexpected
  | .comma => takeComma frames e
  | .dot => .ok (naming frames e)
  | .openParen => .ok (awaiting (.arguments e [] :: frames))
  | .openBracket => .ok (awaiting (.index e :: frames))
  | .closeParen =>
    match complete frames e with
    | (.paren :: rest, e) => .ok (holding rest e)
    | (.arguments f done :: rest, e) => .ok (holding rest (call f (done ++ [e])))
    | _ => .error .unexpected
  | .closeBracket =>
    match complete frames e with
    | (.index object :: rest, e) => .ok (holding rest (member object e true))
    | (.elements done :: rest, e) => .ok (holding rest (array (done ++ [e])))
    | _ => .error .unexpected
  | _ => .error .unexpected

def take : State → Token → Except Refusal State
  | awaiting frames, t => takeOperand frames t
  | holding frames e, t => takeOperator frames e t
  | naming frames object, .name s =>
    .ok (holding frames (member object (identifier (.text s)) false))
  | naming _ _, _ => .error .unexpected

/-- The whole expression, if nothing is open. -/
def finish? : State → Option Expr
  | holding frames e =>
    match complete frames e with
    | ([], e) => some e
    | _ => none
  | _ => none

/-! ## Whole texts -/

/-- Why a text is no expression: where, or that one of its literals has no value. -/
inductive Failure
  | at (place : Position)
  | valueless

/-- Take all tokens. The value of a literal is asked for when the token behind it is cut, so a
text that cannot be cut there fails there. -/
def takeAll (stuck : Option Position) : State → List (Token × Position) → Except Failure State
  | state, [] =>
    match stuck with
    | some place => .error (.at place)
    | none => .ok state
  | state, (t, place) :: rest =>
    match state.take t, rest, stuck with
    | .ok state, _, _ => takeAll stuck state rest
    | .error .valueless, [], some place => .error (.at place)
    | .error .valueless, _, _ => .error .valueless
    | .error .unexpected, _, _ => .error (.at place)

end State

/-- The expression that tokens make. -/
def ofCut (cut : Cut) : Except State.Failure Expr := do
  let state ← State.takeAll cut.stuck (.awaiting []) cut.tokens
  match state.finish? with
  | some e => return e
  | none => .error (.at cut.last)

/-- Read an expression. -/
def parse (s : String) : Except Fault Expr :=
  match ofCut (Cut.ofText s) with
  | .ok e => .ok e
  | .error (.at place) => .error (.unreadable s (some place))
  | .error .valueless => .error (.unreadable s none)

/-- Read the expression that a value holds, which must be a text. -/
def ofValue : Value → Except Fault Expr
  | .text s => parse s
  | .null => .error (.notText "NoneType")
  | .bool _ => .error (.notText "bool")
  | .int _ => .error (.notText "int")
  | .float _ => .error (.notText "float")
  | .function _ => .error (.notText "function")
  | .object .. => .error (.notText "object")
  | .list .. | .map .. => .error .wrongType

end Switchboard.Expr
