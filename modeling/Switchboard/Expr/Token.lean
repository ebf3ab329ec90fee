-- The tokens of expression texts, and how they are cut. Where an operand may stand, a number, a
-- text, a name, a sign or an opening bracket can follow; behind an operand, an operator or a
-- mark; behind a dot, a name only. Cutting knows where it stands by the token before.
import Switchboard.Operators
namespace Switchboard

inductive Token
  | number (spelling : String)
  | hexNumber (spelling : String)
  | quoted (spelling : String)
  | name (spelling : String)
  | unary (op : UnaryOperator)
  | binary (op : BinaryOperator)
  | question
  | colon
  | comma
  | dot
  | openParen
  | closeParen
  | openBracket
  | closeBracket
deriving DecidableEq

/-- Where the next token stands. -/
inductive Stand
  /-- An operand is wanted. -/
  | operand
  /-- An operand has just ended. -/
  | operator
  /-- The name of a part is wanted. -/
  | part
deriving DecidableEq

namespace Token

/-- Where the token after this one stands. -/
def next : Token → Stand
  | number _ | hexNumber _ | quoted _ | name _ | closeParen | closeBracket => .operator
  | dot => .part
  | _ => .operand

/-- How the token is written. -/
def text : Token → String
  | number s | hexNumber s | quoted s | name s => s
  | unary op => op.text
  | binary op => op.text
  | question => "?"
  | colon => ":"
  | comma => ","
  | dot => "."
  | openParen => "("
  | closeParen => ")"
  | openBracket => "["
  | closeBracket => "]"

/-! ## The shapes of tokens

Each of these gives the characters of the longest token of its kind at the front, if there is
one. -/

def isNameStart (c : Char) : Bool := c.isAlpha || c == '_' || c == '$'

def isNamePart (c : Char) : Bool := c.isAlphanum || c == '_' || c == '$'

def nameAt? : List Char → Option (List Char)
  | c :: rest => if isNameStart c then some (c :: rest.takeWhile isNamePart) else none
  | [] => none

def hexAt? : List Char → Option (List Char)
  | '0' :: x :: rest =>
    let digits := rest.takeWhile Text.isHexDigit
    if (x == 'x' || x == 'X') && !digits.isEmpty then some ('0' :: x :: digits) else none
  | _ => none

/-- The digits at the front. -/
def digitsAt (cs : List Char) : List Char := cs.takeWhile Text.isDigit

/-- Digits with a point behind or among them, or a point and digits. -/
def mantissaAt? (cs : List Char) : Option (List Char) :=
  match digitsAt cs, cs with
  | [], '.' :: rest =>
    match digitsAt rest with
    | [] => none
    | digits => some ('.' :: digits)
  | [], _ => none
  | whole, cs =>
    match cs.drop whole.length with
    | '.' :: rest => some (whole ++ '.' :: digitsAt rest)
    | _ => some whole

/-- A mark, a sign and digits, or nothing if there are no digits. -/
def exponentAt (cs : List Char) : List Char :=
  match cs with
  | mark :: rest =>
    if mark == 'e' || mark == 'E' then
      let signs := (rest.take 1).filter fun c => c == '+' || c == '-'
      match digitsAt (rest.drop signs.length) with
      | [] => []
      | digits => mark :: signs ++ digits
    else []
  | [] => []

def numberAt? (cs : List Char) : Option (List Char) :=
  (mantissaAt? cs).map fun m => m ++ exponentAt (cs.drop m.length)

/-- The characters up to and with the closing quote. A line feed ends the search. -/
def quotedRest? (quote : Char) : List Char → Option (List Char)
  | [] => none
  | '\\' :: c :: rest =>
    if c == '\n' then none else (quotedRest? quote rest).map fun r => '\\' :: c :: r
  | c :: rest =>
    if c == quote then some [c]
    else if c == '\n' || c == '\\' then none
    else (quotedRest? quote rest).map (c :: ·)

def quotedAt? : List Char → Option (List Char)
  | c :: rest => if c == '"' || c == '\'' then (quotedRest? c rest).map (c :: ·) else none
  | [] => none

/-! ## One token -/

/-- The tokens with a fixed spelling that can start or stand for an operand. -/
def operandMarks : List Token :=
  UnaryOperator.all.map unary ++ [openParen, openBracket, closeParen, closeBracket]

/-- The tokens with a fixed spelling behind an operand. -/
def operatorMarks : List Token :=
  BinaryOperator.all.map binary ++
    [question, colon, comma, dot, openParen, openBracket, closeParen, closeBracket]

/-- The first mark that is spelled at the front. -/
def markAt? (marks : List Token) (cs : List Char) : Option Token :=
  marks.find? fun t => t.text.toList.isPrefixOf cs

/-- A token of a kind at the front. -/
def spelled (kind : String → Token) (found : Option (List Char)) : Option Token :=
  found.map fun s => kind (String.ofList s)

/-- The token at the front. -/
def at? : Stand → List Char → Option Token
  | .operand, cs =>
    (spelled hexNumber (hexAt? cs)).or <| (spelled number (numberAt? cs)).or <|
      (spelled quoted (quotedAt? cs)).or <| (spelled name (nameAt? cs)).or <|
        markAt? operandMarks cs
  | .operator, cs => markAt? operatorMarks cs
  | .part, cs => spelled name (nameAt? cs)

end Token
end Switchboard
