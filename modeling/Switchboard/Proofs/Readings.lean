-- Two readers of numbers. A number in an expression is an integer if its spelling is digits alone,
-- and a floating point number otherwise; a text that is counted as a number is tried as an integer
-- first and as a floating point number then. On the spelling of a number the two come to the same.
import Switchboard.Proofs.Numerals
import Switchboard.Proofs.Rendering
namespace Switchboard

/-! ## Runs of digits -/

namespace Text

variable {cs : List Char}

/-- In a run there is nothing but digits and underscores. -/
theorem mem_digitRun {digits : List Nat} (h : digitRun? cs = some digits) :
    ∀ c ∈ cs, isDigit c = true ∨ c = '_' := by
  fun_induction digitRun? cs generalizing digits with
  | case1 => cases h
  | case2 c =>
    obtain ⟨d, hd, -⟩ := Option.map_eq_some_iff.mp h
    exact List.forall_mem_singleton.mpr (.inl (Option.isSome_iff_exists.mpr ⟨d, hd⟩))
  | case3 c rest ih =>
    obtain ⟨d, hd, h⟩ := Option.bind_eq_some_iff.mp h
    obtain ⟨ds, hds, -⟩ := Option.bind_eq_some_iff.mp h
    exact List.forall_mem_cons.mpr ⟨.inl (Option.isSome_iff_exists.mpr ⟨d, hd⟩),
      List.forall_mem_cons.mpr ⟨.inr rfl, ih hds⟩⟩
  | case4 c rest _ _ ih =>
    obtain ⟨d, hd, h⟩ := Option.bind_eq_some_iff.mp h
    obtain ⟨ds, hds, -⟩ := Option.bind_eq_some_iff.mp h
    exact List.forall_mem_cons.mpr ⟨.inl (Option.isSome_iff_exists.mpr ⟨d, hd⟩), ih hds⟩

end Text

/-! ## The spelling of a number -/

namespace Lexeme

variable {w : List Char}

theorem mem_number : w ∈ number ↔
    ∃ m x, m ∈ mantissa ∧ (x = [] ∨ x ∈ exponent) ∧ w = m ++ x := by
  unfold number
  rw [Language.mem_mul]
  simp only [mem_optional]
  grind

theorem mantissa_chars (h : w ∈ mantissa) : ∀ c ∈ w, Text.isDigit c = true ∨ c = '.' := by
  have hmixed : ∀ {ds es : List Char}, (∀ c ∈ ds, Text.isDigit c = true) →
      (∀ c ∈ es, Text.isDigit c = true) →
        ∀ c ∈ ds ++ '.' :: es, Text.isDigit c = true ∨ c = '.' := by
    intro ds es hds hes
    simp only [List.forall_mem_append, List.forall_mem_cons]
    exact ⟨fun c hc => .inl (hds c hc), .inr trivial, fun c hc => .inl (hes c hc)⟩
  rcases mem_mantissa.mp h with ⟨ds, -, hds, rfl | ⟨es, hes, rfl⟩⟩ | ⟨es, -, hes, rfl⟩
  · exact fun c hc => .inl (hds c hc)
  · exact hmixed hds hes
  · exact @hmixed [] es (List.forall_mem_nil _) hes

/-- Apart from digits, a number is spelled with a point, a sign and the mark of an exponent. -/
theorem number_chars (h : w ∈ number) :
    ∀ c ∈ w, Text.isDigit c = true ∨ c = '.' ∨ isSign c = true ∨ isPower c = true := by
  obtain ⟨m, x, hm, hx, rfl⟩ := mem_number.mp h
  refine List.forall_mem_append.mpr ⟨fun c hc => ?_, fun c hc => ?_⟩
  · exact (mantissa_chars hm c hc).imp_right .inl
  · rcases hx with rfl | hx
    · cases hc
    · obtain ⟨e, s, ds, he, hs, -, hds, rfl⟩ := mem_exponent.mp hx
      rcases List.mem_cons.mp hc with rfl | hc
      · exact .inr (.inr (.inr he))
      · rcases List.mem_append.mp hc with hc | hc
        · rcases hs with rfl | ⟨c', hc', rfl⟩
          · cases hc
          · cases List.mem_singleton.mp hc
            exact .inr (.inr (.inl hc'))
        · exact .inl (hds c hc)

theorem number_not_blank (h : w ∈ number) : ∀ c ∈ w, Text.isBlank c = false := by
  intro c hc
  rcases number_chars h c hc with hd | rfl | hs | hp
  · exact Text.not_isBlank_of_isDigit hd
  · decide
  · simp only [isSign, Bool.or_eq_true, beq_iff_eq] at hs
    rcases hs with rfl | rfl <;> decide
  · simp only [isPower, Bool.or_eq_true, beq_iff_eq] at hp
    rcases hp with rfl | rfl <;> decide

theorem number_ne_nil (h : w ∈ number) : w ≠ [] := by
  obtain ⟨c, r, rfl, -⟩ := number_head h
  exact List.cons_ne_nil c r

theorem sign_number (h : w ∈ number) : Text.sign w = (false, w) := by
  obtain ⟨c, r, rfl, hc⟩ := number_head h
  simp only [startsNumber, Bool.or_eq_true, beq_iff_eq] at hc
  rcases hc with hc | rfl
  · exact Text.sign_of_digit hc
  · rfl

theorem trim_number (h : w ∈ number) : Text.trim w = w := by
  simpa using Text.trim_of_blanks (List.forall_mem_nil _) (number_ne_nil h) (number_not_blank h)
    (List.forall_mem_nil _)

end Lexeme

/-! ## As an integer -/

namespace Text

variable {cs : List Char}

/-- Digits alone are an integer, if they are not too many. -/
theorem readInt?_digits (h : cs ∈ Lexeme.number) (hall : cs.all isDigit = true)
    (hfew : cs.length ≤ maxDigits) : ∃ n, readInt? cs = some n := by
  have hlength : (digitValues cs).length ≤ maxDigits := by rwa [digitValues, List.length_map]
  have hguard : (guard ((digitValues cs).length ≤ maxDigits) : Option Unit) = some () :=
    if_pos hlength
  unfold readInt?
  rw [Lexeme.trim_number h, Lexeme.sign_number h]
  dsimp only
  rw [digitRun?_of_digits (Lexeme.number_ne_nil h) (List.all_eq_true.mp hall),
    Option.bind_eq_bind, Option.bind_some, hguard]
  exact ⟨_, rfl⟩

/-- A number that has a point or an exponent is no integer. -/
theorem readInt?_other (h : cs ∈ Lexeme.number) (hother : cs.all isDigit = false) :
    readInt? cs = none := by
  have hrun : digitRun? cs = none := by
    rw [Option.eq_none_iff_forall_ne_some]
    intro digits hrun
    obtain ⟨c, hc, hd⟩ := List.all_eq_false.mp hother
    rcases mem_digitRun hrun c hc with hdigit | rfl
    · exact hd hdigit
    · rcases Lexeme.number_chars h _ hc with hdigit | heq | hs | hp
      · exact hd hdigit
      · cases heq
      · cases hs
      · cases hp
  unfold readInt?
  rw [Lexeme.trim_number h, Lexeme.sign_number h]
  dsimp only
  rw [hrun]
  rfl

end Text

/-! ## As a floating point number -/

namespace Decimal

open Lexeme

variable {isMark : Char → Bool} {front back cs : List Char}

theorem splitAt_none (h : ∀ c ∈ cs, isMark c = false) : splitAt isMark cs = (cs, none) := by
  have hall : ∀ c ∈ cs, (!isMark c) = true := fun c hc => by rw [h c hc]; rfl
  unfold splitAt
  rw [List.span_eq_takeWhile_dropWhile, List.takeWhile_eq_self_iff.mpr hall,
    List.dropWhile_eq_nil_iff.mpr hall]

theorem splitAt_mark {mark : Char} (h : ∀ c ∈ front, isMark c = false) (hm : isMark mark = true) :
    splitAt isMark (front ++ mark :: back) = (front, some back) := by
  have hall : ∀ c ∈ front, (!isMark c) = true := fun c hc => by rw [h c hc]; rfl
  unfold splitAt
  rw [List.span_eq_takeWhile_dropWhile, List.takeWhile_append_of_pos hall,
    List.dropWhile_append_of_pos hall]
  simp [hm]

theorem optionalRun?_of_digits (h : ∀ c ∈ cs, Text.isDigit c = true) :
    optionalRun? cs = some (Text.digitValues cs) := by
  unfold optionalRun?
  cases cs with
  | nil => rfl
  | cons c rest => exact Text.digitRun?_of_digits (List.cons_ne_nil c rest) h

/-- Behind the mark of an exponent stands an integer. -/
theorem exponent?_number {s ds : List Char} (hs : s = [] ∨ ∃ c, isSign c = true ∧ s = [c])
    (hne : ds ≠ []) (hds : ∀ c ∈ ds, Text.isDigit c = true) :
    ∃ power, exponent? (s ++ ds) = some power := by
  obtain ⟨negative, hsign⟩ : ∃ negative, Text.sign (s ++ ds) = (negative, ds) := by
    rcases hs with rfl | ⟨c, hc, rfl⟩
    · obtain ⟨d, rest, rfl⟩ := List.exists_cons_of_ne_nil hne
      exact ⟨false, Text.sign_of_digit (hds d List.mem_cons_self)⟩
    · simp only [isSign, Bool.or_eq_true, beq_iff_eq] at hc
      rcases hc with rfl | rfl
      · exact ⟨false, rfl⟩
      · exact ⟨true, rfl⟩
  unfold exponent?
  rw [hsign]
  dsimp only
  rw [Text.digitRun?_of_digits hne hds]
  exact ⟨_, rfl⟩

/-- At the point a mantissa falls into digits, on one side at least. -/
theorem splitAt_mantissa (h : cs ∈ mantissa) :
    ∃ front back, splitAt (· == '.') cs = (front, back) ∧
      (∀ c ∈ front, Text.isDigit c = true) ∧ (∀ c ∈ back.getD [], Text.isDigit c = true) ∧
        front ++ back.getD [] ≠ [] := by
  have hpoint : ∀ {ds : List Char}, (∀ c ∈ ds, Text.isDigit c = true) →
      ∀ c ∈ ds, (c == '.') = false := by
    intro ds hds c hc
    refine beq_false_of_ne ?_
    rintro rfl
    cases point_not_isDigit.symm.trans (hds _ hc)
  rcases mem_mantissa.mp h with ⟨ds, hne, hds, rfl | ⟨es, hes, rfl⟩⟩ | ⟨es, hne, hes, rfl⟩
  · exact ⟨_, none, splitAt_none (hpoint hds), hds, List.forall_mem_nil _, by simpa using hne⟩
  · exact ⟨ds, some es, splitAt_mark (hpoint hds) rfl, hds, hes,
      List.append_ne_nil_of_left_ne_nil hne _⟩
  · exact ⟨[], some es, splitAt_mark (List.forall_mem_nil _) rfl, List.forall_mem_nil _, hes, hne⟩

/-- At the mark of its exponent a number falls into its mantissa and an integer. -/
theorem splitAt_number {m x : List Char} (hm : m ∈ mantissa) (hx : x = [] ∨ x ∈ Lexeme.exponent) :
    ∃ back power, splitAt (fun c => c == 'e' || c == 'E') (m ++ x) = (m, back) ∧
      back.elim (some 0) exponent? = some power := by
  have hplain : ∀ c ∈ m, isPower c = false := by
    intro c hc
    cases hp : isPower c with
    | false => rfl
    | true =>
      rcases mantissa_chars hm c hc with hd | rfl
      · cases hd.symm.trans (not_isDigit_of_isPower hp)
      · cases hp
  rcases hx with rfl | hx
  · rw [List.append_nil]
    exact ⟨none, 0, splitAt_none hplain, rfl⟩
  · obtain ⟨e, s, ds, he, hs, hne, hds, rfl⟩ := mem_exponent.mp hx
    obtain ⟨power, hpower⟩ := exponent?_number hs hne hds
    exact ⟨some (s ++ ds), power, splitAt_mark hplain he, hpower⟩

/-- Whatever is spelled like a number is read as a floating point number. -/
theorem readFloat?_number (h : cs ∈ number) : ∃ x, readFloat? cs = some x := by
  obtain ⟨m, x, hm, hx, hcs⟩ := mem_number.mp h
  obtain ⟨back, power, hsplit, hpower⟩ := splitAt_number hm hx
  obtain ⟨front, behind, hparts, hfront, hbehind, hne⟩ := splitAt_mantissa hm
  let whole := Text.digitValues front
  let fraction := Text.digitValues (behind.getD [])
  have hwhole : optionalRun? front = some whole := optionalRun?_of_digits hfront
  have hfraction : behind.elim (some []) optionalRun? = some fraction := by
    cases behind <;> exact optionalRun?_of_digits hbehind
  have hsome : (!(whole.isEmpty && fraction.isEmpty)) = true := by
    rw [Bool.not_eq_true', Bool.eq_false_iff, Ne, Bool.and_eq_true, List.isEmpty_iff,
      List.isEmpty_iff]
    rintro ⟨hfront, hbehind⟩
    exact hne (List.append_eq_nil_iff.mpr
      ⟨List.map_eq_nil_iff.mp hfront, List.map_eq_nil_iff.mp hbehind⟩)
  have hguard : (guard (!(whole.isEmpty && fraction.isEmpty)) : Option Unit) = some () :=
    if_pos hsome
  have hunsigned : unsigned? false cs = some (nearest false (Text.ofDigits 10 (whole ++ fraction))
      (power - fraction.length)) := by
    unfold unsigned?
    rw [hcs, hsplit]
    dsimp only
    rw [hpower, hparts]
    simp only [Option.bind_eq_bind, Option.bind_some, hwhole, hfraction, hguard]
    rfl
  unfold readFloat?
  rw [trim_number h, sign_number h]
  dsimp only
  rw [hunsigned]
  split
  · exact ⟨_, rfl⟩
  · split <;> exact ⟨_, rfl⟩

end Decimal

/-! ## The two readers -/

/-- A number as a scalar. -/
def Number.toScalar : Number → Scalar
  | int n => .int n
  | float x => .float x

/-- The value of a number is what its spelling counts as, blanks around it or not. -/
theorem Literal.number?_eq_numberOfText {s : String} (hs : s.toList ∈ Lexeme.number)
    (hfew : s.toList.countP Text.isDigit ≤ Text.maxDigits) :
    ∃ x : Number, number? s = some x.toScalar ∧ ∀ before behind : List Char,
      (∀ c ∈ before, Text.isBlank c = true) → (∀ c ∈ behind, Text.isBlank c = true) →
        Value.numberOfText (String.ofList (before ++ s.toList ++ behind)) = x := by
  have hne := Lexeme.number_ne_nil hs
  have hplain := Lexeme.number_not_blank hs
  cases hall : s.toList.all Text.isDigit with
  | true =>
    have hcount : s.toList.countP Text.isDigit = s.toList.length :=
      List.countP_eq_length.mpr (List.all_eq_true.mp hall)
    obtain ⟨n, hn⟩ := Text.readInt?_digits hs hall (hcount ▸ hfew)
    refine ⟨.int n, by simp [number?, hall, hn, Number.toScalar], fun before behind hb hb' => ?_⟩
    rw [Value.numberOfText_of_blanks hb hne hplain hb', hn]
  | false =>
    obtain ⟨x, hx⟩ := Decimal.readFloat?_number hs
    refine ⟨.float x, by simp [number?, hall, hx, Number.toScalar], fun before behind hb hb' => ?_⟩
    rw [Value.numberOfText_of_blanks hb hne hplain hb', Text.readInt?_other hs hall, hx]

/-! ## Literals in trees -/

namespace Expr

mutual

/-- The values of the literals in a tree with their spellings, from left to right. -/
def literals : Expr → List (Datum × Datum)
  | literal value raw => [(value, raw)]
  | identifier _ | self => []
  | member o p _ => literals o ++ literals p
  | unary _ e _ => literals e
  | binary _ l r | logical _ l r => literals l ++ literals r
  | conditional t c a => literals t ++ literals c ++ literals a
  | call f es => literals f ++ literalsOfAll es
  | array es | compound es => literalsOfAll es

def literalsOfAll : List Expr → List (Datum × Datum)
  | [] => []
  | e :: es => literals e ++ literalsOfAll es

end

theorem forall_mem_literalsOfAll {P : Datum × Datum → Prop} {es : List Expr}
    (h : ∀ e ∈ es, ∀ l ∈ e.literals, P l) : ∀ l ∈ literalsOfAll es, P l := by
  induction es with
  | nil => exact List.forall_mem_nil _
  | cons e es ih =>
    obtain ⟨he, hes⟩ := List.forall_mem_cons.mp h
    exact List.forall_mem_append.mpr ⟨he, ih hes⟩

theorem literals_ofBinary (op : BinaryOperator) (l r : Expr) :
    (ofBinary op l r).literals = l.literals ++ r.literals := by
  unfold ofBinary
  split <;> rfl

/-- Has a literal that is spelled like a number the value of that number? -/
def Numeric (l : Datum × Datum) : Prop :=
  ∀ s, l.2 = .text s → s.toList ∈ Lexeme.number → ∃ v, Literal.number? s = some v ∧ l.1 = .scalar v

/-- What starts like something else is not spelled like a number. -/
theorem numeric_of_head {s : String} {v : Scalar} {c : Char} {r : List Char}
    (hhead : s.toList = c :: r) (hc : Lexeme.startsNumber c = false) :
    Numeric (.scalar v, .text s) := by
  intro s' hs' hnumber
  cases hs'
  obtain ⟨d, r', hd, hstarts⟩ := Lexeme.number_head hnumber
  rw [hhead] at hd
  cases hd
  cases hc.symm.trans hstarts

theorem numeric_of_wellShaped {e : Expr} (h : WellShaped e) : ∀ l ∈ e.literals, Numeric l := by
  induction h with
  | @number s v hs hv =>
    refine List.forall_mem_singleton.mpr fun s' hs' _ => ?_
    cases hs'
    exact ⟨v, hv, rfl⟩
  | @hexNumber s v hs hv =>
    refine List.forall_mem_singleton.mpr fun s' hs' hnumber => ?_
    cases hs'
    exact absurd hs (Token.number_ne_hexNumber hnumber)
  | @quoted s v hs hv =>
    obtain ⟨c, r, hc, hquote⟩ := Lexeme.quoted_head hs
    exact List.forall_mem_singleton.mpr
      (numeric_of_head hc (Lexeme.startsNumber_of_isQuote hquote))
  | @keyword s v hv =>
    obtain ⟨c, r, hc, hname⟩ := Lexeme.name_head (keyword_mem_name hv)
    exact List.forall_mem_singleton.mpr
      (numeric_of_head hc (Lexeme.startsNumber_of_isNameStart hname))
  | identifier => exact List.forall_mem_nil _
  | self => exact List.forall_mem_nil _
  | member _ _ iho => exact List.forall_mem_append.mpr ⟨iho, List.forall_mem_nil _⟩
  | index _ _ iho ihp => exact List.forall_mem_append.mpr ⟨iho, ihp⟩
  | call _ _ ihf ihes => exact List.forall_mem_append.mpr ⟨ihf, forall_mem_literalsOfAll ihes⟩
  | array _ ih => exact forall_mem_literalsOfAll ih
  | unary _ ih => exact ih
  | binary _ _ ihl ihr =>
    rw [literals_ofBinary]
    exact List.forall_mem_append.mpr ⟨ihl, ihr⟩
  | conditional _ _ _ iht ihc iha =>
    exact List.forall_mem_append.mpr ⟨List.forall_mem_append.mpr ⟨iht, ihc⟩, iha⟩
  | compound _ _ ih => exact forall_mem_literalsOfAll ih

/-- A number of no more digits than are read stands for one and the same number, of one kind,
whether it is an expression, a literal in any expression, or a text that is counted as a number, be
it with blanks around it or without. -/
theorem a_number_is_read_alike_as_a_literal_and_as_a_text (s : String)
    (hs : s.toList ∈ Lexeme.number) (hfew : s.toList.countP Text.isDigit ≤ Text.maxDigits) :
    ∃ x : Number, parse s = .ok (Literal.node x.toScalar s) ∧
      (∀ text e value, parse text = .ok e → (value, .text s) ∈ e.literals →
        value = .scalar x.toScalar) ∧
      ∀ before behind : List Char,
        (∀ c ∈ before, Text.isBlank c = true) → (∀ c ∈ behind, Text.isBlank c = true) →
          Value.toNumber (.text (String.ofList (before ++ s.toList ++ behind))) = x := by
  obtain ⟨x, hx, hcounts⟩ := Literal.number?_eq_numberOfText hs hfew
  refine ⟨x, ?_, fun text e value hparse hmem => ?_, hcounts⟩
  · have hread := parse_rendering (.number hs hx)
    have htext : rendering (Literal.node x.toScalar s) = s := by
      simp [rendering, Literal.node, words, held]
    rwa [htext] at hread
  · obtain ⟨v, hv, hvalue⟩ := numeric_of_wellShaped (wellShaped_of_parse hparse) _ hmem s rfl hs
    cases hx.symm.trans hv
    exact hvalue

/-- Digits of two scripts, a point, and an exponent with a sign. -/
theorem a_quarter_is_read_alike :
    parse "\u06625.0e-2" = .ok (Literal.node (.float (.ofRatio false 1 4)) "\u06625.0e-2") ∧
      Value.toNumber (.text "\u2003\u06625.0e-2\n") = .float (.ofRatio false 1 4) := by
  have hfound : Token.numberAt? "\u06625.0e-2".toList = some "\u06625.0e-2".toList := by
    decide +kernel
  have hlongest := Lexeme.numberAt?_longest "\u06625.0e-2".toList
  rw [hfound] at hlongest
  obtain ⟨x, hparse, -, htext⟩ := a_number_is_read_alike_as_a_literal_and_as_a_text
    "\u06625.0e-2" hlongest.2.1 (by decide +kernel)
  have hblank : Value.toNumber (.text "\u2003\u06625.0e-2\n") = x :=
    htext ['\u2003'] ['\n'] (List.forall_mem_singleton.mpr (by decide))
      (List.forall_mem_singleton.mpr (by decide))
  have hquarter : Value.toNumber (.text "\u2003\u06625.0e-2\n") = .float (.ofRatio false 1 4) := by
    decide +kernel
  cases hblank.symm.trans hquarter
  exact ⟨hparse, hquarter⟩

end Expr
end Switchboard
