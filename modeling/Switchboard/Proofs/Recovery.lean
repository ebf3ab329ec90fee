-- Integers as texts and back. The text that an integer counts as is its decimal spelling, and what
-- that text counts as, with blanks around it or not, is the integer again. Nothing is rounded on
-- the way, so integers of any size are told apart by their texts.
import Switchboard.Proofs.Acceptance
import Switchboard.Proofs.Operations
import Switchboard.Proofs.Slots
namespace Switchboard

/-! ## Integers and their texts -/

namespace Value

variable {n : Int}

theorem toText_int (h : Text.isWritable n = true) : (int n).toText = .ok (toString n) := by
  simp only [toText, integerText, h, if_true]

theorem toText_int_error (h : Text.isWritable n = false) :
    (int n).toText = .error .badValue := by
  simp only [toText, integerText, h, Bool.false_eq_true, if_false]

theorem toNumber_text (s : String) : (text s).toNumber = numberOfText s := rfl

/-- What an integer is written as counts as that integer, whatever blanks are around it. -/
theorem toNumber_of_blanks (h : Text.isWritable n = true) {before behind : List Char}
    (hbefore : ∀ c ∈ before, Text.isBlank c = true)
    (hbehind : ∀ c ∈ behind, Text.isBlank c = true) :
    (text (String.ofList (before ++ (toString n).toList ++ behind))).toNumber = .int n := by
  rw [toNumber_text, numberOfText_of_blanks hbefore (Text.toString_ne_nil n)
    (fun _ => Text.not_isBlank_toString) hbehind, read_toString h]

theorem toNumber_toString (h : Text.isWritable n = true) :
    (text (toString n)).toNumber = .int n := by
  have hread := toNumber_of_blanks h (List.forall_mem_nil _) (List.forall_mem_nil _)
  rwa [List.nil_append, List.append_nil, String.ofList_toList] at hread

/-- An integer has the text of another only if it is that one. -/
theorem toText_int_inj (h : Text.isWritable n = true) (m : Int) :
    (int m).toText = (int n).toText ↔ m = n := by
  constructor
  · intro htexts
    have hm : Text.isWritable m = true := by
      cases hm : Text.isWritable m with
      | true => rfl
      | false =>
        rw [toText_int h, toText_int_error hm] at htexts
        cases htexts
    rw [toText_int h, toText_int hm, Except.ok.injEq] at htexts
    have hnumbers := congrArg (fun s => (text s).toNumber) htexts
    rw [toNumber_toString h, toNumber_toString hm, Number.int.injEq] at hnumbers
    exact hnumbers
  · exact fun hmn => hmn ▸ rfl

/-- To add the empty text to an integer is to write it. -/
theorem add_empty (h : Text.isWritable n = true) :
    (int n).add (text "") = .ok (text (toString n)) := by
  change (do
    let x ← (int n).toText
    let y ← (text "").toText
    return text (x ++ y) : Except Fault Value) = _
  rw [toText_int h]
  exact congrArg (fun s => Except.ok (text s)) String.append_empty

/-- An integer meets its text as a number. -/
theorem looseEquals_toString (h : Text.isWritable n = true) :
    (int n).looseEquals (text (toString n)) = .ok true := by
  have hnumbers : scalarsEqual (.int n) (.text (toString n)) =
      (Number.int n).same (text (toString n)).toNumber := rfl
  have hsame : (Number.int n).same (.int n) = true := by
    simp [Number.same, Number.order?]
  change Except.ok (scalarsEqual (.int n) (.text (toString n))) = _
  rw [hnumbers, toNumber_toString h, hsame]

end Value

/-! ## An integer and its text in expressions -/

namespace Expr

open Conduct

/-- Is it equal to its own text? -/
def equalsText (e : Expr) : Expr :=
  ofBinary .equal e (ofBinary .add e (Literal.node (.text "") "''"))

theorem parse_equalsText :
    parse "n == (n + '')" = .ok (equalsText (.identifier (.text "n"))) := by
  have hstuck : (Cut.ofText "n == (n + '')").stuck = none := by decide +kernel
  have hrow : (Cut.ofText "n == (n + '')").row = [.name "n", .binary .equal, .openParen, .name "n",
      .binary .add, .quoted "''", .closeParen] := by decide +kernel
  rw [parse_ok, hrow]
  exact ⟨hstuck, _, rfl, rfl⟩

theorem evaluate_equalsText {ω : Type} {host : Host ω} {context : Value} {e : Expr} {w u t : ω}
    {n : Int} (h : Text.isWritable n = true) (he : e.evaluate host context w = .ok (.int n) u)
    (hagain : e.evaluate host context u = .ok (.int n) t) :
    e.equalsText.evaluate host context w = .ok (.bool true) t := by
  have hempty : (Literal.node (.text "") "''").evaluate host context t = .ok (.text "") t := rfl
  have hsum : (ofBinary .add e (Literal.node (.text "") "''")).evaluate host context u =
      .ok (.text (toString n)) t := by
    rw [binary_of_values .add hagain hempty]
    change Run.ofExcept ((Value.int n).add (.text "")) t = _
    rw [Value.add_empty h]
    rfl
  rw [equalsText, binary_of_values .equal he hsum]
  change Run.ofExcept (do
    return Value.bool (← (Value.int n).looseEquals (.text (toString n)))) t = _
  rw [Value.looseEquals_toString h]
  rfl

/-- The text that an integer counts as counts as that integer, with blanks around it or without, no
other integer has the same text, and in an expression an integer is equal to its own text: a name
that stands for it, and whatever has it for a value. -/
theorem an_integer_is_recovered_from_its_text (n : Int) (h : Text.isWritable n = true) :
    ∃ s : String, (Value.int n).toText = .ok s ∧
      (∀ before behind : List Char,
        (∀ c ∈ before, Text.isBlank c = true) → (∀ c ∈ behind, Text.isBlank c = true) →
          Value.toNumber (.text (String.ofList (before ++ s.toList ++ behind))) = .int n) ∧
      (∀ m : Int, (Value.int m).toText = .ok s ↔ m = n) ∧
      (∃ e, parse "n == (n + '')" = .ok e ∧
        ∀ {ω : Type} (host : Host ω) (context : Value) (w : ω),
          context.lookup [.text "n"] = .ok (.int n) →
            e.evaluate host context w = .ok (.bool true) w) ∧
      ∀ {ω : Type} (host : Host ω) (context : Value) (e : Expr) (w u t : ω),
        e.evaluate host context w = .ok (.int n) u → e.evaluate host context u = .ok (.int n) t →
          e.equalsText.evaluate host context w = .ok (.bool true) t := by
  have htold : ∀ m : Int, (Value.int m).toText = .ok (toString n) ↔ m = n := fun m => by
    rw [← Value.toText_int h]
    exact Value.toText_int_inj h m
  refine ⟨toString n, Value.toText_int h, fun before behind hbefore hbehind =>
    Value.toNumber_of_blanks h hbefore hbehind, htold, ⟨_, parse_equalsText, ?_⟩, ?_⟩
  · intro ω host context w hlookup
    have hvalue : (identifier (.text "n")).evaluate host context w = .ok (.int n) w := by
      change Run.ofExcept (context.lookup [.text "n"]) w = _
      rw [hlookup]
      rfl
    exact evaluate_equalsText h hvalue hvalue
  · exact fun host context e w u t he hagain => evaluate_equalsText h he hagain

/-- An integer that no floating point number is equal to, below zero and with a blank behind it. -/
theorem an_integer_beyond_the_floats_is_recovered :
    Value.toNumber (.text "-9007199254740993\u00a0") = .int (-9007199254740993) ∧
      ∃ e, parse "n == (n + '')" = .ok e ∧ ∀ host : Host Unit,
        e.evaluate host (.map 0 [(.text "n", .int (-9007199254740993))]) () =
          .ok (.bool true) () := by
  have hshort : Text.isWritable (-9007199254740993) = true := by decide +kernel
  obtain ⟨s, htext, hcounts, -, ⟨e, hparse, htrue⟩, -⟩ :=
    an_integer_is_recovered_from_its_text (-9007199254740993) hshort
  cases (Value.toText_int hshort).symm.trans htext
  have hspelled : String.ofList ([] ++ (toString (-9007199254740993 : Int)).toList ++ ['\u00a0']) =
      "-9007199254740993\u00a0" := by decide +kernel
  have hblank := hcounts [] ['\u00a0'] (List.forall_mem_nil _)
    (List.forall_mem_singleton.mpr (by decide))
  rw [hspelled] at hblank
  exact ⟨hblank, e, hparse, fun host => htrue host _ () rfl⟩

end Expr
end Switchboard
