-- The reader as a relation between states: one rule for each thing that a token can do to what is
-- open. What holds of all that is read is shown rule by rule.
import Switchboard.Expr.Parser
namespace Switchboard.Expr.State

/-- Does an operand before a comma begin a sequence of its own in front of these frames? Where
several expressions are gathered already, it is one more of them, and between a question mark and
a colon there can be no comma. -/
def begins : List Frame → Bool
  | .consequent _ :: _ | .sequence _ :: _ | .arguments .. :: _ | .elements _ :: _ => false
  | _ => true

/-- What a token makes of a state. Behind an operand, all that the token can take is completed
first. -/
inductive Takes : State → Token → State → Prop
  | operand {frames t e} : Literal.operand? t = some (some e) →
      Takes (awaiting frames) t (holding frames e)
  | sign {frames op} : Takes (awaiting frames) (.unary op) (awaiting (.sign op :: frames))
  | paren {frames} : Takes (awaiting frames) .openParen (awaiting (.paren :: frames))
  | elements {frames} : Takes (awaiting frames) .openBracket (awaiting (.elements [] :: frames))
  | callEmpty {f frames} :
      Takes (awaiting (.arguments f [] :: frames)) .closeParen (holding frames (call f []))
  | arrayEmpty {frames} :
      Takes (awaiting (.elements [] :: frames)) .closeBracket (holding frames (array []))
  | binary {frames e op rest l} : reduce (bound op) frames e = (rest, l) →
      Takes (holding frames e) (.binary op) (awaiting (.left l op :: rest))
  | question {frames e rest t} : reduce 1 frames e = (rest, t) →
      Takes (holding frames e) .question (awaiting (.consequent t :: rest))
  | colon {frames e rest t c} : reduce 0 frames e = (.consequent t :: rest, c) →
      Takes (holding frames e) .colon (awaiting (.alternate t c :: rest))
  | inSequence {frames e rest done l} : reduce 0 frames e = (.sequence done :: rest, l) →
      Takes (holding frames e) .comma (awaiting (.sequence (done ++ [l]) :: rest))
  | inArguments {frames e rest f done l} : reduce 0 frames e = (.arguments f done :: rest, l) →
      Takes (holding frames e) .comma (awaiting (.arguments f (done ++ [l]) :: rest))
  | inElements {frames e rest done l} : reduce 0 frames e = (.elements done :: rest, l) →
      Takes (holding frames e) .comma (awaiting (.elements (done ++ [l]) :: rest))
  | beginSequence {frames e rest l} : reduce 0 frames e = (rest, l) → begins rest = true →
      Takes (holding frames e) .comma (awaiting (.sequence [l] :: rest))
  | dot {frames e} : Takes (holding frames e) .dot (naming frames e)
  | arguments {frames e} :
      Takes (holding frames e) .openParen (awaiting (.arguments e [] :: frames))
  | index {frames e} : Takes (holding frames e) .openBracket (awaiting (.index e :: frames))
  | closeParen {frames e rest l} : complete frames e = (.paren :: rest, l) →
      Takes (holding frames e) .closeParen (holding rest l)
  | closeArguments {frames e rest f done l} : complete frames e = (.arguments f done :: rest, l) →
      Takes (holding frames e) .closeParen (holding rest (call f (done ++ [l])))
  | closeIndex {frames e rest o l} : complete frames e = (.index o :: rest, l) →
      Takes (holding frames e) .closeBracket (holding rest (member o l true))
  | closeElements {frames e rest done l} : complete frames e = (.elements done :: rest, l) →
      Takes (holding frames e) .closeBracket (holding rest (array (done ++ [l])))
  | part {frames o s} : Takes (naming frames o) (.name s)
      (holding frames (member o (identifier (.text s)) false))

variable {frames : List Frame} {e : Expr} {t : Token} {state state' : State}

theorem takes_of_takeOperand (h : takeOperand frames t = .ok state') :
    Takes (awaiting frames) t state' := by
  unfold takeOperand at h
  split at h
  · rename_i e he
    cases h
    exact .operand he
  · cases h
  · split at h
    · cases h
      exact .sign
    · cases h
      exact .paren
    · cases h
      exact .elements
    · cases h
      exact .callEmpty
    · cases h
      exact .arrayEmpty
    · cases h

theorem takes_of_takeComma (h : takeComma frames e = .ok state') :
    Takes (holding frames e) .comma state' := by
  unfold takeComma at h
  split at h
  · cases h
  · rename_i hr
    cases h
    exact .inSequence hr
  · rename_i hr
    cases h
    exact .inArguments hr
  · rename_i hr
    cases h
    exact .inElements hr
  · rename_i rest l hconsequent hsequence harguments helements hr
    cases h
    refine .beginSequence hr ?_
    unfold begins
    split
    · exact (hconsequent _ _ rfl).elim
    · exact (hsequence _ _ rfl).elim
    · exact (harguments _ _ _ rfl).elim
    · exact (helements _ _ rfl).elim
    · rfl

theorem takes_of_takeOperator (h : takeOperator frames e t = .ok state') :
    Takes (holding frames e) t state' := by
  cases t with
  | binary op =>
    cases h
    exact .binary rfl
  | question =>
    cases h
    exact .question rfl
  | colon =>
    simp only [takeOperator] at h
    split at h
    · rename_i hr
      cases h
      exact .colon hr
    · cases h
  | comma => exact takes_of_takeComma h
  | dot =>
    cases h
    exact .dot
  | openParen =>
    cases h
    exact .arguments
  | openBracket =>
    cases h
    exact .index
  | closeParen =>
    simp only [takeOperator] at h
    split at h
    · rename_i hc
      cases h
      exact .closeParen hc
    · rename_i hc
      cases h
      exact .closeArguments hc
    · cases h
  | closeBracket =>
    simp only [takeOperator] at h
    split at h
    · rename_i hc
      cases h
      exact .closeIndex hc
    · rename_i hc
      cases h
      exact .closeElements hc
    · cases h
  | _ => cases h

theorem take_of_takes (h : Takes state t state') : state.take t = .ok state' := by
  cases h with
  | operand he => simp only [take, takeOperand, he]
  | binary hr | question hr | colon hr => simp only [take, takeOperator, hr]
  | inSequence hr | inArguments hr | inElements hr =>
    simp only [take, takeOperator, takeComma, hr]
  | @beginSequence frames e rest l hr hbegins =>
    simp only [take, takeOperator, takeComma, hr]
    cases rest with
    | nil => rfl
    | cons frame rest => cases frame <;> first | rfl | cases hbegins
  | closeParen hc | closeArguments hc | closeIndex hc | closeElements hc =>
    simp only [take, takeOperator, hc]
  | _ => rfl

/-- The relation is what the reader computes. -/
theorem take_ok_iff : state.take t = .ok state' ↔ Takes state t state' := by
  refine ⟨fun h => ?_, take_of_takes⟩
  unfold take at h
  split at h
  · exact takes_of_takeOperand h
  · exact takes_of_takeOperator h
  · cases h
    exact .part
  · cases h

end Switchboard.Expr.State
