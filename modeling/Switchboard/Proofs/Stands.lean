-- Which tokens can stand where, and how a row of terminals is read as tokens. Behind the tokens
-- before it a terminal stands for one token at most, and the token that is found in a text is the
-- longest one that can stand there.
import Mathlib.Data.List.Nodup
import Switchboard.Proofs.Lexemes
namespace Switchboard

open Grammar

/-! ## Tokens and terminals -/

namespace Grammar.Terminal

/-- Is the text of a literal or of a name one that such a terminal can have? -/
def Spelled : Terminal → Prop
  | number s => s.toList ∈ Lexeme.number
  | hexNumber s => s.toList ∈ Lexeme.hexNumber
  | quoted s => s.toList ∈ Lexeme.quoted
  | name s => s.toList ∈ Lexeme.name
  | mark _ => True

end Grammar.Terminal

namespace Token

/-- The terminal that a token is an occurrence of. -/
def terminal : Token → Terminal
  | number s => .number s
  | hexNumber s => .hexNumber s
  | quoted s => .quoted s
  | name s => .name s
  | t => .mark t.text

@[simp] theorem terminal_text (t : Token) : t.terminal.text = t.text := by
  cases t <;> rfl

/-- Can the token stand there? -/
def fits : Stand → Token → Bool
  | .operand, t => t.terminal.isOperand || operandMarks.contains t
  | .operator, t => operatorMarks.contains t
  | .part, name _ => true
  | .part, _ => false

/-- Is the token spelled as a terminal of its kind can be? -/
def Spelled (t : Token) : Prop := t.terminal.Spelled

theorem operandMarks_nodup : (operandMarks.map text).Nodup := by decide

theorem operatorMarks_nodup : (operatorMarks.map text).Nodup := by decide

/-- A mark that fits is one of the marks that can stand there. -/
theorem mem_operandMarks {t : Token} {m : String} (h : t.fits .operand = true)
    (ht : t.terminal = .mark m) : t ∈ operandMarks := by
  simpa [fits, ht, Terminal.isOperand] using h

theorem mem_operatorMarks {t : Token} (h : t.fits .operator = true) : t ∈ operatorMarks :=
  List.contains_iff_mem.mp h

theorem terminal_of_operator {t : Token} (h : t.fits .operator = true) :
    t.terminal = .mark t.text := by
  have hmarks : ∀ t ∈ operatorMarks, t.terminal = .mark t.text := by decide
  exact hmarks t (mem_operatorMarks h)

theorem name_of_part {t : Token} (h : t.fits .part = true) : ∃ s, t = .name s := by
  cases t with
  | name s => exact ⟨s, rfl⟩
  | _ => cases h

/-- Where it stands, a token is told by its terminal. -/
theorem eq_of_terminal {stand : Stand} {t u : Token} (ht : t.fits stand = true)
    (hu : u.fits stand = true) (h : t.terminal = u.terminal) : t = u := by
  cases stand with
  | operand =>
    cases hm : t.terminal with
    | mark m =>
      have htext : t.text = u.text := by
        rw [← terminal_text t, ← terminal_text u, h]
      exact List.inj_on_of_nodup_map operandMarks_nodup (mem_operandMarks ht hm)
        (mem_operandMarks hu (h.symm.trans hm)) htext
    | number s | hexNumber s | quoted s | name s =>
      rw [hm] at h
      cases t <;> cases hm
      cases u <;> cases h
      rfl
  | operator =>
    have htext : t.text = u.text := by
      rw [← terminal_text t, ← terminal_text u, h]
    exact List.inj_on_of_nodup_map operatorMarks_nodup (mem_operatorMarks ht)
      (mem_operatorMarks hu) htext
  | part =>
    obtain ⟨s, rfl⟩ := name_of_part ht
    obtain ⟨r, rfl⟩ := name_of_part hu
    cases h
    rfl

end Token

/-! ## Rows of tokens -/

/-- The row of terminals, read from one stand to another, is this row of tokens. -/
inductive Reads : Stand → List Terminal → List Token → Stand → Prop
  | nil {σ} : Reads σ [] [] σ
  | cons {σ t w ts σ'} : t.fits σ = true → Reads t.next w ts σ' →
      Reads σ (t.terminal :: w) (t :: ts) σ'

namespace Reads

variable {σ σ' σ'' : Stand} {w v : List Terminal} {ts us : List Token} {t : Token}

theorem token (t : Token) (ht : t.fits σ = true) (h : Reads t.next w ts σ') :
    Reads σ (t.terminal :: w) (t :: ts) σ' := .cons ht h

theorem one (t : Token) (h : t.fits σ = true) : Reads σ [t.terminal] [t] t.next := .cons h .nil

theorem terminals (h : Reads σ w ts σ') : ts.map Token.terminal = w := by
  induction h with
  | nil => rfl
  | cons _ _ ih => rw [List.map_cons, ih]

theorem append (h : Reads σ w ts σ') (h' : Reads σ' v us σ'') :
    Reads σ (w ++ v) (ts ++ us) σ'' := by
  induction h with
  | nil => exact h'
  | cons ht _ ih => exact .cons ht (ih h')

theorem split (h : Reads σ (w ++ v) ts σ'') :
    ∃ us vs σ', ts = us ++ vs ∧ Reads σ w us σ' ∧ Reads σ' v vs σ'' := by
  induction w generalizing σ ts with
  | nil => exact ⟨[], ts, σ, rfl, .nil, h⟩
  | cons x w ih =>
    cases h with
    | cons ht h =>
      obtain ⟨us, vs, σ', rfl, hw, hv⟩ := ih h
      exact ⟨_ :: us, vs, σ', rfl, .cons ht hw, hv⟩

/-- There is one way to read a row of terminals. -/
theorem unique (h : Reads σ w ts σ') (h' : Reads σ w us σ'') : ts = us ∧ σ' = σ'' := by
  induction h generalizing us with
  | nil =>
    cases h'
    exact ⟨rfl, rfl⟩
  | @cons σ t w ts σ' ht _ ih =>
    generalize hx : t.terminal = x at h'
    cases h' with
    | cons hu h' =>
      obtain rfl := Token.eq_of_terminal ht hu hx
      obtain ⟨rfl, rfl⟩ := ih h'
      exact ⟨rfl, rfl⟩

end Reads

/-! ## The token at the front -/

namespace Lexeme

/-- The first characters of numbers. -/
def startsNumber (c : Char) : Bool := Text.isDigit c || c == '.'

def isQuote (c : Char) : Bool := c == '"' || c == '\''

theorem zero_isDigit : Text.isDigit '0' = true := by decide +kernel

theorem number_head {w : List Char} (h : w ∈ number) :
    ∃ c r, w = c :: r ∧ startsNumber c = true := by
  obtain ⟨a, ha, x, -, rfl⟩ := Language.mem_mul.mp h
  rcases mem_mantissa.mp ha with ⟨ds, hne, hds, hform⟩ | ⟨es, -, -, rfl⟩
  · obtain ⟨d, ds, rfl⟩ := List.exists_cons_of_ne_nil hne
    have hd : startsNumber d = true := by simp [startsNumber, hds d List.mem_cons_self]
    rcases hform with rfl | ⟨es, -, rfl⟩
    · exact ⟨d, _, rfl, hd⟩
    · exact ⟨d, _, rfl, hd⟩
  · exact ⟨'.', _, rfl, by simp [startsNumber]⟩

theorem hexNumber_head {w : List Char} (h : w ∈ hexNumber) :
    ∃ c r, w = c :: r ∧ startsNumber c = true := by
  obtain ⟨x, ds, -, -, -, rfl⟩ := mem_hexNumber.mp h
  exact ⟨'0', _, rfl, by simp [startsNumber, zero_isDigit]⟩

theorem quoted_head {w : List Char} (h : w ∈ quoted) : ∃ c r, w = c :: r ∧ isQuote c = true := by
  obtain ⟨q, r, hq, -, rfl⟩ := mem_quoted.mp h
  exact ⟨q, r, rfl, by simpa [isQuote] using hq⟩

theorem name_head {w : List Char} (h : w ∈ name) :
    ∃ c r, w = c :: r ∧ Token.isNameStart c = true := by
  obtain ⟨c, r, hc, -, rfl⟩ := mem_name.mp h
  exact ⟨c, r, rfl, hc⟩

/-- Words that start with a character of a class are found only where one stands. -/
theorem none_of_head {l : Language Char} {p : Char → Bool} {found : Option (List Char)}
    {c : Char} {cs : List Char} (hl : ∀ w ∈ l, ∃ d r, w = d :: r ∧ p d = true)
    (h : Longest l (c :: cs) found) (hc : p c = false) : found = none := by
  cases found with
  | none => rfl
  | some w =>
    obtain ⟨d, r, rfl, hd⟩ := hl w h.2.1
    rw [(List.cons_prefix_cons.mp h.1).1, hc] at hd
    cases hd

/-- A word that is at the front is found, or a longer one. -/
theorem some_of_prefix {l : Language Char} {found : Option (List Char)} {v cs : List Char}
    (h : Longest l cs found) (hv : v <+: cs) (hm : v ∈ l) :
    ∃ w, found = some w ∧ v.length ≤ w.length := by
  cases found with
  | none => exact absurd hm (h v hv)
  | some w => exact ⟨w, rfl, h.2.2 v hv hm⟩

theorem startsNumber_of_isQuote {c : Char} (h : isQuote c = true) : startsNumber c = false := by
  simp only [isQuote, Bool.or_eq_true, beq_iff_eq] at h
  rcases h with rfl | rfl
  · simp [startsNumber, not_isDigit (c := '"') (by decide)]
  · simp [startsNumber, not_isDigit (c := '\'') (by decide)]

theorem ne_of_isNameStart {c d : Char} (h : Token.isNameStart c = true)
    (hd : Token.isNameStart d = false) : c ≠ d := by
  rintro rfl
  rw [h] at hd
  cases hd

theorem startsNumber_of_isNameStart {c : Char} (h : Token.isNameStart c = true) :
    startsNumber c = false := by
  have hpoint : c ≠ '.' := ne_of_isNameStart h (by decide)
  simp [startsNumber, not_isDigit_of_isNameStart h, hpoint]

theorem isQuote_of_isNameStart {c : Char} (h : Token.isNameStart c = true) : isQuote c = false := by
  have hdouble : c ≠ '"' := ne_of_isNameStart h (by decide)
  have hsingle : c ≠ '\'' := ne_of_isNameStart h (by decide)
  simp [isQuote, hdouble, hsingle]

/-- Behind a zero and an x, a number is the zero. -/
theorem number_before_x {x : Char} {v rest : List Char} (hx : (x == 'x' || x == 'X') = true)
    (hv : v <+: '0' :: x :: rest) (h : v ∈ number) : v.length ≤ 1 := by
  have hdigit : Text.isDigit x = false := by
    simp only [Bool.or_eq_true, beq_iff_eq] at hx
    rcases hx with rfl | rfl <;> exact not_isDigit (by decide)
  obtain ⟨a, ha, e, he, rfl⟩ := Language.mem_mul.mp h
  have hdigits : Token.digitsAt ('0' :: x :: rest) = ['0'] := by
    simp [Token.digitsAt, zero_isDigit, hdigit]
  have hbehind : ('0' :: x :: rest).dropWhile Text.isDigit = x :: rest := by
    simp [zero_isDigit, hdigit]
  have he := mem_optional.mp he
  rcases mantissa_at_digits (by simp) ha he hv with ⟨rfl, hin⟩ | ⟨rfl, hlt⟩ | ⟨es, -, -, hin⟩
  · rw [hbehind] at hin
    rcases he with rfl | he
    · simp [hdigits]
    · obtain ⟨m, s, ds, hm, -, -, -, rfl⟩ := mem_exponent.mp he
      rw [(List.cons_prefix_cons.mp hin).1] at hm
      simp only [isPower, Bool.or_eq_true, beq_iff_eq] at hx hm
      rcases hx with rfl | rfl <;> rcases hm with h | h <;> exact absurd h (by decide)
  · rw [hdigits] at hlt
    simpa using Nat.le_of_lt hlt
  · rw [hbehind] at hin
    rw [← (List.cons_prefix_cons.mp hin).1] at hx
    exact absurd hx (by decide)

end Lexeme

namespace Token

open Lexeme

variable {stand : Stand} {cs : List Char} {t u : Token}

/-- Longer marks are looked for before those they begin with. -/
theorem operandMarks_order : operandMarks.Pairwise fun t u =>
    t.text.toList <+: u.text.toList → u.text.toList.length ≤ t.text.toList.length := by
  decide +kernel

theorem operatorMarks_order : operatorMarks.Pairwise fun t u =>
    t.text.toList <+: u.text.toList → u.text.toList.length ≤ t.text.toList.length := by
  decide +kernel

theorem markAt?_longest {marks : List Token} (h : marks.Pairwise fun t u =>
      t.text.toList <+: u.text.toList → u.text.toList.length ≤ t.text.toList.length)
    (hu : u ∈ marks) (hp : u.text.toList <+: cs) :
    ∃ t, markAt? marks cs = some t ∧ u.text.toList.length ≤ t.text.toList.length := by
  induction marks with
  | nil => cases hu
  | cons m marks ih =>
    obtain ⟨hm, h⟩ := List.pairwise_cons.mp h
    unfold markAt?
    by_cases hc : m.text.toList <+: cs
    · rw [List.find?_cons_of_pos (by simpa using hc)]
      refine ⟨m, rfl, ?_⟩
      rcases List.mem_cons.mp hu with rfl | hu
      · exact Nat.le_refl _
      · rcases List.prefix_or_prefix_of_prefix hc hp with hmu | hum
        · exact hm u hu hmu
        · exact hum.length_le
    · rw [List.find?_cons_of_neg (by simpa using hc)]
      rcases List.mem_cons.mp hu with rfl | hu
      · exact absurd hp hc
      · exact ih h hu

/-- The first characters of the marks that stand for an operand start nothing else. -/
theorem operandMarks_head : ∀ t ∈ operandMarks, ∃ c r, t.text.toList = c :: r ∧
    startsNumber c = false ∧ isQuote c = false ∧ isNameStart c = false := by
  have hheads : ∀ t ∈ operandMarks, (t.text.toList.head?.any
      ['!', '~', '+', '-', '(', '[', ')', ']'].contains) = true := by decide
  have hclasses : (['!', '~', '+', '-', '(', '[', ')', ']'].all fun c =>
      decide (c.toNat < 48 ∨ (58 ≤ c.toNat ∧ c.toNat < 128)) && c != '.' && !isQuote c &&
        !isNameStart c) = true := by decide
  intro t ht
  obtain ⟨c, hhead, hc⟩ := (Option.any_eq_true _ _).mp (hheads t ht)
  obtain ⟨r, hr⟩ := List.head?_eq_some_iff.mp hhead
  have hclass := List.all_eq_true.mp hclasses c (List.contains_iff_mem.mp hc)
  simp only [Bool.and_eq_true, decide_eq_true_eq, Bool.not_eq_true', bne_iff_ne] at hclass
  obtain ⟨⟨⟨hdigit, hpoint⟩, hquote⟩, hname⟩ := hclass
  refine ⟨c, r, hr, ?_, hquote, hname⟩
  simp [startsNumber, not_isDigit hdigit, hpoint]

theorem spelled_some {kind : String → Token} {w : List Char} :
    spelled kind (some w) = some (kind (String.ofList w)) := rfl

theorem of_spelled_some {kind : String → Token} {l : Language Char} {found : Option (List Char)}
    (hl : Longest l cs found) (h : spelled kind found = some t) :
    ∃ w, t = kind (String.ofList w) ∧ w <+: cs ∧ w ∈ l := by
  obtain ⟨w, rfl, rfl⟩ := Option.map_eq_some_iff.mp h
  exact ⟨w, rfl, hl.1, hl.2.1⟩

theorem of_markAt?_some {marks : List Token} (h : markAt? marks cs = some t) :
    t ∈ marks ∧ t.text.toList <+: cs :=
  ⟨List.mem_of_find?_eq_some h, by simpa using List.find?_some h⟩

theorem spelled_of_mark (h : t.terminal = .mark t.text) : t.Spelled := by
  rw [Spelled, h]
  trivial

/-- The token that is found fits, is spelled as it should be and stands at the front. -/
theorem at?_some (h : at? stand cs = some t) :
    t.fits stand = true ∧ t.Spelled ∧ t.text.toList <+: cs := by
  cases stand with
  | operand =>
    simp only [at?, Option.or_eq_some_iff] at h
    rcases h with h | ⟨-, h | ⟨-, h | ⟨-, h | ⟨-, h⟩⟩⟩⟩
    · obtain ⟨w, rfl, hp, hm⟩ := of_spelled_some (hexAt?_longest cs) h
      exact ⟨rfl, by simpa [Spelled, terminal, Terminal.Spelled] using hm, by simpa [text] using hp⟩
    · obtain ⟨w, rfl, hp, hm⟩ := of_spelled_some (numberAt?_longest cs) h
      exact ⟨rfl, by simpa [Spelled, terminal, Terminal.Spelled] using hm, by simpa [text] using hp⟩
    · obtain ⟨w, rfl, hp, hm⟩ := of_spelled_some (quotedAt?_longest cs) h
      exact ⟨rfl, by simpa [Spelled, terminal, Terminal.Spelled] using hm, by simpa [text] using hp⟩
    · obtain ⟨w, rfl, hp, hm⟩ := of_spelled_some (nameAt?_longest cs) h
      exact ⟨rfl, by simpa [Spelled, terminal, Terminal.Spelled] using hm, by simpa [text] using hp⟩
    · obtain ⟨hm, hp⟩ := of_markAt?_some h
      have hmarks : ∀ t ∈ operandMarks, t.fits .operand = true ∧ t.terminal = .mark t.text := by
        decide
      obtain ⟨hfits, hterminal⟩ := hmarks t hm
      exact ⟨hfits, spelled_of_mark hterminal, hp⟩
  | operator =>
    obtain ⟨hm, hp⟩ := of_markAt?_some h
    have hfits : t.fits .operator = true := List.contains_iff_mem.mpr hm
    exact ⟨hfits, spelled_of_mark (terminal_of_operator hfits), hp⟩
  | part =>
    obtain ⟨w, rfl, hp, hm⟩ := of_spelled_some (nameAt?_longest cs) h
    exact ⟨rfl, by simpa [Spelled, terminal, Terminal.Spelled] using hm, by simpa [text] using hp⟩

/-! What is not looked for behind a first character -/

theorem no_number {c : Char} (hc : startsNumber c = false) (cs : List Char) :
    hexAt? (c :: cs) = none ∧ numberAt? (c :: cs) = none :=
  ⟨none_of_head (fun _ => hexNumber_head) (hexAt?_longest _) hc,
    none_of_head (fun _ => number_head) (numberAt?_longest _) hc⟩

theorem no_quoted {c : Char} (hc : isQuote c = false) (cs : List Char) :
    quotedAt? (c :: cs) = none :=
  none_of_head (fun _ => quoted_head) (quotedAt?_longest _) hc

theorem no_name {c : Char} (hc : isNameStart c = false) (cs : List Char) :
    nameAt? (c :: cs) = none :=
  none_of_head (fun _ => name_head) (nameAt?_longest _) hc

/-- Where a number is at the front, it is found or a longer one, or a hexadecimal number of which
it is the zero. -/
theorem at?_number {v : List Char} (hp : v <+: cs) (hv : v ∈ Lexeme.number) :
    ∃ t, at? .operand cs = some t ∧ v.length ≤ t.text.toList.length := by
  obtain ⟨w, hw, hle⟩ := some_of_prefix (numberAt?_longest cs) hp hv
  cases hhex : hexAt? cs with
  | none =>
    exact ⟨.number (String.ofList w), by simp [at?, hhex, hw, spelled],
      by simpa [text] using hle⟩
  | some h =>
    have hlong := hexAt?_longest cs
    rw [hhex] at hlong
    obtain ⟨⟨rest, rfl⟩, hmem, -⟩ := hlong
    obtain ⟨x, ds, hx, -, -, rfl⟩ := mem_hexNumber.mp hmem
    refine ⟨.hexNumber (String.ofList ('0' :: x :: ds)), ?_, ?_⟩
    · rw [at?, hhex, spelled_some, Option.some_or]
    · have hone := number_before_x hx hp hv
      simp only [text, String.toList_ofList, List.length_cons]
      omega

/-- No token that can stand there is longer than the one that is found. -/
theorem at?_longest (hu : u.fits stand = true) (hs : u.Spelled) (hp : u.text.toList <+: cs) :
    ∃ t, at? stand cs = some t ∧ u.text.toList.length ≤ t.text.toList.length := by
  cases stand with
  | operand =>
    cases hm : u.terminal with
    | hexNumber s =>
      cases u <;> cases hm
      obtain ⟨w, hw, hle⟩ := some_of_prefix (hexAt?_longest cs) hp hs
      exact ⟨.hexNumber (String.ofList w), by simp [at?, hw, spelled_some],
        by simpa [text] using hle⟩
    | number s =>
      cases u <;> cases hm
      exact at?_number hp hs
    | quoted s =>
      cases u <;> cases hm
      obtain ⟨w, hw, hle⟩ := some_of_prefix (quotedAt?_longest cs) hp hs
      obtain ⟨c, r, hc, hquote⟩ := quoted_head hs
      obtain ⟨rest, rfl⟩ := hp
      simp only [text, hc, List.cons_append] at hw hle ⊢
      obtain ⟨hhex, hnumber⟩ := no_number (startsNumber_of_isQuote hquote) (r ++ rest)
      exact ⟨.quoted (String.ofList w), by simp [at?, hhex, hnumber, hw, spelled],
        by simpa [text] using hle⟩
    | name s =>
      cases u <;> cases hm
      obtain ⟨w, hw, hle⟩ := some_of_prefix (nameAt?_longest cs) hp hs
      obtain ⟨c, r, hc, hstart⟩ := name_head hs
      obtain ⟨rest, rfl⟩ := hp
      simp only [text, hc, List.cons_append] at hw hle ⊢
      obtain ⟨hhex, hnumber⟩ := no_number (startsNumber_of_isNameStart hstart) (r ++ rest)
      have hquoted := no_quoted (isQuote_of_isNameStart hstart) (r ++ rest)
      exact ⟨.name (String.ofList w), by simp [at?, hhex, hnumber, hquoted, hw, spelled],
        by simpa [text] using hle⟩
    | mark m =>
      have hmem := mem_operandMarks hu hm
      obtain ⟨t, ht, hle⟩ := markAt?_longest operandMarks_order hmem hp
      obtain ⟨c, r, hc, hstart, hquote, hname⟩ := operandMarks_head u hmem
      obtain ⟨rest, rfl⟩ := hp
      simp only [hc, List.cons_append] at ht hle ⊢
      obtain ⟨hhex, hnumber⟩ := no_number hstart (r ++ rest)
      have hquoted := no_quoted hquote (r ++ rest)
      have hname := no_name hname (r ++ rest)
      exact ⟨t, by simp [at?, hhex, hnumber, hquoted, hname, ht, spelled], hle⟩
  | operator => exact markAt?_longest operatorMarks_order (mem_operatorMarks hu) hp
  | part =>
    obtain ⟨s, rfl⟩ := name_of_part hu
    obtain ⟨w, hw, hle⟩ := some_of_prefix (nameAt?_longest cs) hp hs
    exact ⟨.name (String.ofList w), by simp [at?, hw, spelled_some], by simpa [text] using hle⟩

end Token
end Switchboard
