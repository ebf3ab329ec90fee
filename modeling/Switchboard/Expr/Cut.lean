-- Expression texts cut into tokens. Cutting stops where no token can follow, and says where.
import Switchboard.Expr.Token
namespace Switchboard

namespace Position

def start : Position := ⟨1, 1⟩

/-- The place after a character. Only a line feed starts a line. -/
def after (place : Position) (c : Char) : Position :=
  if c == '\n' then ⟨place.line + 1, 1⟩ else ⟨place.line, place.column + 1⟩

def afterAll (place : Position) (cs : List Char) : Position := cs.foldl after place

end Position

/-- A text in tokens. -/
structure Cut where
  /-- The tokens with the places where they start. -/
  tokens : List (Token × Position)
  /-- Where no token could follow, unless the text was used up. -/
  stuck : Option Position

namespace Cut

/-- Blanks between tokens. -/
def isGap (c : Char) : Bool :=
  c == ' ' || c == '\t' || c == '\x0c' || c == '\r' || c == '\n'

/-- Cut what follows, with at most so many tokens. -/
def go : Nat → Stand → Position → List Char → Cut
  | 0, _, place, _ => ⟨[], some place⟩
  | n + 1, stand, place, cs =>
    let place := place.afterAll (cs.takeWhile isGap)
    match cs.dropWhile isGap with
    | [] => ⟨[], none⟩
    | c :: rest =>
      match Token.at? stand (c :: rest) with
      | none => ⟨[], some place⟩
      | some token =>
        let length := token.text.length
        let cut := go n token.next (place.afterAll ((c :: rest).take length))
          ((c :: rest).drop length)
        ⟨(token, place) :: cut.tokens, cut.stuck⟩

def ofText (s : String) : Cut := go (s.length + 1) .operand .start s.toList

/-- Where the text ends for a reader that wants more: at its last token. -/
def last (cut : Cut) : Position := (cut.tokens.getLast?.map (·.2)).getD .start

end Cut
end Switchboard
