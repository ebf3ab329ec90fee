-- How terminals are spelled: a language of characters for each kind of literal and for names. What
-- is found at the front of a text is the longest spelling there that can stand in its place.
import Mathlib.Computability.Language
import Mathlib.Data.List.TakeWhile
import Switchboard.Expr.Token
import Switchboard.Proofs.Grammar
import Switchboard.Proofs.Spelled
namespace Switchboard

open scoped Computability

/-! ## The longest word at the front -/

/-- What is found is the longest word of a language at the front, and nothing is found only where
there is none. -/
def Longest (l : Language Char) (cs : List Char) : Option (List Char) → Prop
  | some w => w <+: cs ∧ w ∈ l ∧ ∀ v, v <+: cs → v ∈ l → v.length ≤ w.length
  | none => ∀ v, v <+: cs → v ∉ l

/-- Characters of a class and what is no such character: a prefix that is cut in this way either
ends within the characters at the front, or takes them all. -/
theorem prefix_cases {p : Char → Bool} {a b cs : List Char} (ha : ∀ c ∈ a, p c = true)
    (hb : ∀ c ∈ b.head?, p c = false) (h : a ++ b <+: cs) :
    (a = cs.takeWhile p ∧ b <+: cs.dropWhile p) ∨
      (b = [] ∧ a.length < (cs.takeWhile p).length) := by
  induction cs generalizing a with
  | nil =>
    obtain ⟨rfl, rfl⟩ := List.append_eq_nil_iff.mp (List.prefix_nil.mp h)
    simp
  | cons c cs ih =>
    cases a with
    | nil =>
      cases b with
      | nil =>
        cases hc : p c with
        | true => simp [hc]
        | false => simp [hc]
      | cons d b =>
        obtain ⟨rfl, -⟩ := List.cons_prefix_cons.mp h
        have hc := hb d rfl
        simpa [hc] using h
    | cons d a =>
      obtain ⟨rfl, hrest⟩ := List.cons_prefix_cons.mp h
      have hc := ha d List.mem_cons_self
      rcases ih (fun c hm => ha c (List.mem_cons_of_mem _ hm)) hrest with ⟨h₁, h₂⟩ | ⟨h₁, h₂⟩
      · exact .inl ⟨by simp [hc, h₁], by simp [hc, h₂]⟩
      · exact .inr ⟨h₁, by simp [hc, h₂]⟩

theorem length_le_takeWhile {p : Char → Bool} {a cs : List Char} (ha : ∀ c ∈ a, p c = true)
    (h : a <+: cs) : a.length ≤ (cs.takeWhile p).length := by
  rcases prefix_cases (b := []) ha (by simp) (by simpa using h) with ⟨ha, -⟩ | ⟨-, hlt⟩
  · exact Nat.le_of_eq (congrArg List.length ha)
  · exact Nat.le_of_lt hlt

/-! ## Languages -/

namespace Lexeme

variable {p : Char → Bool} {l m : Language Char} {w cs : List Char}

/-- One character of a class. -/
def one (p : Char → Bool) : Language Char := {w | ∃ c, p c = true ∧ w = [c]}

def many1 (p : Char → Bool) : Language Char := one p * (one p)∗

def optional (l : Language Char) : Language Char := 1 + l

def point : Language Char := one (· == '.')

/-- Digits with a point behind or among them, or a point and digits. -/
def mantissa : Language Char :=
  many1 Text.isDigit * optional (point * (one Text.isDigit)∗) + point * many1 Text.isDigit

def isSign (c : Char) : Bool := c == '+' || c == '-'

def isPower (c : Char) : Bool := c == 'e' || c == 'E'

def exponent : Language Char := one isPower * optional (one isSign) * many1 Text.isDigit

def number : Language Char := mantissa * optional exponent

def hexNumber : Language Char :=
  one (· == '0') * one (fun c => c == 'x' || c == 'X') * many1 Text.isHexDigit

def name : Language Char := one Token.isNameStart * (one Token.isNamePart)∗

/-- What may stand between quotes: a plain character, or a backslash and any character but a line
feed. -/
def piece (quote : Char) : Language Char :=
  one (fun c => c != quote && c != '\\' && c != '\n') + one (· == '\\') * one (· != '\n')

/-- What follows an opening quote. -/
def closed (quote : Char) : Language Char := (piece quote)∗ * one (· == quote)

def quoted : Language Char :=
  one (· == '"') * closed '"' + one (· == '\'') * closed '\''

/-! ### Members -/

theorem mem_one : w ∈ one p ↔ ∃ c, p c = true ∧ w = [c] := Iff.rfl

theorem mem_one_mul : w ∈ one p * l ↔ ∃ c r, p c = true ∧ r ∈ l ∧ w = c :: r := by
  constructor
  · intro h
    obtain ⟨_, ⟨c, hc, rfl⟩, r, hr, rfl⟩ := Language.mem_mul.mp h
    exact ⟨c, r, hc, hr, rfl⟩
  · rintro ⟨c, r, hc, hr, rfl⟩
    exact Language.mem_mul.mpr ⟨[c], ⟨c, hc, rfl⟩, r, hr, rfl⟩

theorem mem_star : w ∈ (one p)∗ ↔ ∀ c ∈ w, p c = true := by
  constructor
  · intro h
    obtain ⟨ws, rfl, hws⟩ := Language.mem_kstar.mp h
    intro c hc
    obtain ⟨w, hw, hc⟩ := List.mem_flatten.mp hc
    obtain ⟨d, hd, rfl⟩ := hws w hw
    rwa [List.mem_singleton.mp hc]
  · intro h
    refine Language.mem_kstar.mpr ⟨w.map ([·]), by simp [← List.flatMap_def], ?_⟩
    intro v hv
    obtain ⟨c, hc, rfl⟩ := List.mem_map.mp hv
    exact ⟨c, h c hc, rfl⟩

theorem mem_many1 : w ∈ many1 p ↔ w ≠ [] ∧ ∀ c ∈ w, p c = true := by
  unfold many1
  rw [mem_one_mul]
  simp only [mem_star]
  cases w with
  | nil => simp
  | cons c w =>
    simp only [List.cons.injEq, ne_eq, reduceCtorEq, not_false_eq_true, List.forall_mem_cons,
      true_and]
    exact ⟨fun ⟨_, _, hc, hr, rfl, rfl⟩ => ⟨hc, hr⟩, fun ⟨hc, hr⟩ => ⟨c, w, hc, hr, rfl, rfl⟩⟩

theorem mem_optional : w ∈ optional l ↔ w = [] ∨ w ∈ l := by
  unfold optional
  rw [Language.mem_add, Language.mem_one]

theorem mem_hexNumber :
    w ∈ hexNumber ↔ ∃ x ds, (x == 'x' || x == 'X') = true ∧ ds ≠ [] ∧
      (∀ c ∈ ds, Text.isHexDigit c = true) ∧ w = '0' :: x :: ds := by
  unfold hexNumber
  rw [mul_assoc, mem_one_mul]
  simp only [mem_one_mul, mem_many1, beq_iff_eq]
  constructor
  · rintro ⟨_, _, rfl, ⟨x, ds, hx, ⟨hne, hds⟩, rfl⟩, rfl⟩
    exact ⟨x, ds, hx, hne, hds, rfl⟩
  · rintro ⟨x, ds, hx, hne, hds, rfl⟩
    exact ⟨_, _, rfl, ⟨x, ds, hx, ⟨hne, hds⟩, rfl⟩, rfl⟩

theorem mem_name :
    w ∈ name ↔ ∃ c r, Token.isNameStart c = true ∧ (∀ d ∈ r, Token.isNamePart d = true) ∧
      w = c :: r := by
  unfold name
  simp only [mem_one_mul, mem_star]

theorem mem_mantissa :
    w ∈ mantissa ↔
      (∃ ds, ds ≠ [] ∧ (∀ c ∈ ds, Text.isDigit c = true) ∧
        (w = ds ∨ ∃ es, (∀ c ∈ es, Text.isDigit c = true) ∧ w = ds ++ '.' :: es)) ∨
      ∃ es, es ≠ [] ∧ (∀ c ∈ es, Text.isDigit c = true) ∧ w = '.' :: es := by
  unfold mantissa point
  rw [Language.mem_add, Language.mem_mul]
  simp only [mem_optional, mem_one_mul, mem_star, mem_many1, beq_iff_eq]
  constructor
  · rintro (⟨ds, ⟨hne, hds⟩, b, rfl | ⟨_, es, rfl, hes, rfl⟩, rfl⟩ |
      ⟨_, es, rfl, ⟨hne, hes⟩, rfl⟩)
    · exact .inl ⟨ds, hne, hds, .inl (by simp)⟩
    · exact .inl ⟨ds, hne, hds, .inr ⟨es, hes, rfl⟩⟩
    · exact .inr ⟨es, hne, hes, rfl⟩
  · rintro (⟨ds, hne, hds, rfl | ⟨es, hes, rfl⟩⟩ | ⟨es, hne, hes, rfl⟩)
    · exact .inl ⟨w, ⟨hne, hds⟩, [], .inl rfl, by simp⟩
    · exact .inl ⟨ds, ⟨hne, hds⟩, _, .inr ⟨_, es, rfl, hes, rfl⟩, rfl⟩
    · exact .inr ⟨_, es, rfl, ⟨hne, hes⟩, rfl⟩

theorem mem_exponent :
    w ∈ exponent ↔ ∃ e s ds, isPower e = true ∧ (s = [] ∨ ∃ c, isSign c = true ∧ s = [c]) ∧
      ds ≠ [] ∧ (∀ c ∈ ds, Text.isDigit c = true) ∧ w = e :: (s ++ ds) := by
  unfold exponent
  rw [mul_assoc, mem_one_mul]
  simp only [Language.mem_mul, mem_optional, mem_many1, mem_one]
  constructor
  · rintro ⟨e, _, he, ⟨s, hs, ds, ⟨hne, hds⟩, rfl⟩, rfl⟩
    exact ⟨e, s, ds, he, hs, hne, hds, rfl⟩
  · rintro ⟨e, s, ds, he, hs, hne, hds, rfl⟩
    exact ⟨e, _, he, ⟨s, hs, ds, ⟨hne, hds⟩, rfl⟩, rfl⟩

theorem mem_closed {quote : Char} :
    w ∈ closed quote ↔ w = [quote] ∨
      (∃ c r, (c != quote && c != '\\' && c != '\n') = true ∧ r ∈ closed quote ∧ w = c :: r) ∨
      ∃ c r, (c != '\n') = true ∧ r ∈ closed quote ∧ w = '\\' :: c :: r := by
  have hunfold : closed quote = one (· == quote) + piece quote * closed quote := by
    unfold closed
    nth_rewrite 1 [← Language.one_add_self_mul_kstar_eq_kstar]
    rw [add_mul, one_mul, mul_assoc]
  rw [hunfold, Language.mem_add, ← hunfold]
  unfold piece
  rw [add_mul, mul_assoc, Language.mem_add]
  simp only [mem_one, mem_one_mul, beq_iff_eq]
  constructor
  · rintro (⟨_, rfl, rfl⟩ | ⟨c, r, hc, hr, rfl⟩ | ⟨_, _, rfl, ⟨c, r, hc, hr, rfl⟩, rfl⟩)
    · exact .inl rfl
    · exact .inr (.inl ⟨c, r, hc, hr, rfl⟩)
    · exact .inr (.inr ⟨c, r, hc, hr, rfl⟩)
  · rintro (rfl | ⟨c, r, hc, hr, rfl⟩ | ⟨c, r, hc, hr, rfl⟩)
    · exact .inl ⟨_, rfl, rfl⟩
    · exact .inr (.inl ⟨c, r, hc, hr, rfl⟩)
    · exact .inr (.inr ⟨_, _, rfl, ⟨c, r, hc, hr, rfl⟩, rfl⟩)

/-! ### What is found -/

theorem nameAt?_longest (cs : List Char) : Longest name cs (Token.nameAt? cs) := by
  cases cs with
  | nil =>
    intro v hv hm
    obtain ⟨c, r, -, -, rfl⟩ := mem_name.mp hm
    cases List.prefix_nil.mp hv
  | cons c cs =>
    dsimp only [Token.nameAt?]
    by_cases hc : Token.isNameStart c = true
    · rw [if_pos hc]
      refine ⟨List.cons_prefix_cons.mpr ⟨rfl, List.takeWhile_prefix _⟩, ?_, ?_⟩
      · exact mem_name.mpr ⟨c, _, hc, fun d hd => List.mem_takeWhile_imp hd, rfl⟩
      · intro v hv hm
        obtain ⟨d, r, -, hr, rfl⟩ := mem_name.mp hm
        have hle := length_le_takeWhile hr (List.cons_prefix_cons.mp hv).2
        simpa using hle
    · rw [if_neg hc]
      intro v hv hm
      obtain ⟨d, r, hd, -, rfl⟩ := mem_name.mp hm
      rw [(List.cons_prefix_cons.mp hv).1] at hd
      exact hc hd

theorem hexAt?_longest (cs : List Char) : Longest hexNumber cs (Token.hexAt? cs) := by
  unfold Token.hexAt?
  split
  · rename_i x rest
    dsimp only
    split
    · rename_i h
      simp only [Bool.and_eq_true, Bool.not_eq_true', List.isEmpty_eq_false_iff] at h
      refine ⟨?_, ?_, ?_⟩
      · simpa using List.takeWhile_prefix _
      · exact mem_hexNumber.mpr ⟨x, _, h.1, h.2, fun d hd => List.mem_takeWhile_imp hd, rfl⟩
      · intro v hv hm
        obtain ⟨y, ds, -, -, hds, rfl⟩ := mem_hexNumber.mp hm
        simp only [List.cons_prefix_cons] at hv
        have hle := length_le_takeWhile hds hv.2.2
        simpa using hle
    · rename_i h
      intro v hv hm
      obtain ⟨y, ds, hy, hne, hds, rfl⟩ := mem_hexNumber.mp hm
      simp only [List.cons_prefix_cons] at hv
      obtain ⟨-, rfl, hv⟩ := hv
      refine h ?_
      have hle := length_le_takeWhile hds hv
      have hpos := List.length_pos_of_ne_nil hne
      simp only [hy, Bool.true_and, Bool.not_eq_true', List.isEmpty_eq_false_iff]
      exact List.ne_nil_of_length_pos (by omega)
  · rename_i h
    intro v hv hm
    obtain ⟨y, ds, -, -, -, rfl⟩ := mem_hexNumber.mp hm
    obtain ⟨rest, rfl⟩ := hv
    exact h y (ds ++ rest) rfl

/-- Reading on behind an opening quote finds the one place where the text is closed. -/
theorem quotedRest?_eq {quote : Char} (hq : quote ≠ '\\' ∧ quote ≠ '\n') (n : Nat) {r : List Char}
    (hn : r.length ≤ n) (h : r ∈ closed quote) (rest : List Char) :
    Token.quotedRest? quote (r ++ rest) = some r := by
  induction n generalizing r with
  | zero =>
    obtain rfl := List.length_eq_zero_iff.mp (Nat.le_zero.mp hn)
    rcases mem_closed.mp h with h | ⟨_, _, -, -, h⟩ | ⟨_, _, -, -, h⟩ <;> cases h
  | succ n ih =>
    rcases mem_closed.mp h with rfl | ⟨c, r, hc, hr, rfl⟩ | ⟨c, r, hc, hr, rfl⟩
    · rw [List.singleton_append, Token.quotedRest?]
      · rw [if_pos (by simp)]
      · exact fun _ _ h _ => hq.1 h
    · simp only [Bool.and_eq_true, bne_iff_ne] at hc
      rw [List.cons_append, Token.quotedRest?]
      · rw [if_neg (by simpa using hc.1.1), if_neg (by simp [hc.1.2, hc.2]),
          ih (Nat.le_of_succ_le_succ hn) hr, Option.map_some]
      · exact fun _ _ h _ => hc.1.2 h
    · have hlen : r.length ≤ n := by
        simp only [List.length_cons] at hn
        omega
      rw [List.cons_append, List.cons_append, Token.quotedRest?,
        if_neg (by simpa using hc), ih hlen hr, Option.map_some]

theorem quotedRest?_some {quote : Char} {cs r : List Char} (h : Token.quotedRest? quote cs = some r) :
    r <+: cs ∧ r ∈ closed quote := by
  induction cs using Token.quotedRest?.induct quote generalizing r with
  | case1 => cases h
  | case2 c rest hc =>
    rw [Token.quotedRest?, if_pos hc] at h
    cases h
  | case3 c rest hc ih =>
    rw [Token.quotedRest?, if_neg hc] at h
    obtain ⟨r, hr, rfl⟩ := Option.map_eq_some_iff.mp h
    obtain ⟨hp, hm⟩ := ih hr
    exact ⟨by simpa using hp, mem_closed.mpr (.inr (.inr ⟨c, r, by simpa using hc, hm, rfl⟩))⟩
  | case4 c rest hslash hc =>
    rw [Token.quotedRest? , if_pos hc] at h
    · cases h
      exact ⟨by simp, mem_closed.mpr (.inl (by simpa using hc))⟩
    · exact hslash
  | case5 c rest hslash hc hc' =>
    rw [Token.quotedRest?, if_neg hc, if_pos hc'] at h
    · cases h
    · exact hslash
  | case6 c rest hslash hc hc' ih =>
    rw [Token.quotedRest?, if_neg hc, if_neg hc'] at h
    · obtain ⟨r, hr, rfl⟩ := Option.map_eq_some_iff.mp h
      obtain ⟨hp, hm⟩ := ih hr
      simp only [Bool.or_eq_true, beq_iff_eq, not_or] at hc hc'
      refine ⟨by simpa using hp, mem_closed.mpr (.inr (.inl ⟨c, r, ?_, hm, rfl⟩))⟩
      simp [hc, hc']
    · exact hslash

theorem mem_quoted :
    w ∈ quoted ↔ ∃ q r, (q = '"' ∨ q = '\'') ∧ r ∈ closed q ∧ w = q :: r := by
  unfold quoted
  simp only [Language.mem_add, mem_one_mul, beq_iff_eq]
  constructor
  · rintro (⟨q, r, rfl, hr, rfl⟩ | ⟨q, r, rfl, hr, rfl⟩)
    · exact ⟨_, r, .inl rfl, hr, rfl⟩
    · exact ⟨_, r, .inr rfl, hr, rfl⟩
  · rintro ⟨q, r, rfl | rfl, hr, rfl⟩
    · exact .inl ⟨_, r, rfl, hr, rfl⟩
    · exact .inr ⟨_, r, rfl, hr, rfl⟩

/-- A quoted text at the front is the one that is found. -/
theorem quotedAt?_eq (h : w ∈ quoted) (rest : List Char) :
    Token.quotedAt? (w ++ rest) = some w := by
  obtain ⟨q, r, hq, hr, rfl⟩ := mem_quoted.mp h
  have hplain : q ≠ '\\' ∧ q ≠ '\n' := by
    rcases hq with rfl | rfl <;> decide
  have hquote : (q == '"' || q == '\'') = true := by
    rcases hq with rfl | rfl <;> decide
  rw [List.cons_append, Token.quotedAt?, if_pos hquote,
    quotedRest?_eq hplain _ (Nat.le_refl _) hr, Option.map_some]

theorem quotedAt?_longest (cs : List Char) : Longest quoted cs (Token.quotedAt? cs) := by
  cases h : Token.quotedAt? cs with
  | none =>
    rintro v ⟨rest, rfl⟩ hv
    rw [quotedAt?_eq hv] at h
    cases h
  | some w =>
    have hw : w <+: cs ∧ w ∈ quoted := by
      cases cs with
      | nil => cases h
      | cons c cs =>
        rw [Token.quotedAt?] at h
        split at h
        · rename_i hc
          obtain ⟨r, hr, rfl⟩ := Option.map_eq_some_iff.mp h
          obtain ⟨hp, hm⟩ := quotedRest?_some hr
          refine ⟨by simpa using hp, mem_quoted.mpr ⟨c, r, by simpa using hc, hm, rfl⟩⟩
        · cases h
    refine ⟨hw.1, hw.2, ?_⟩
    rintro v ⟨rest, rfl⟩ hv
    rw [quotedAt?_eq hv] at h
    cases h
    exact Nat.le_refl _

/-! ### Numbers -/

theorem point_not_isDigit : Text.isDigit '.' = false := not_isDigit (by decide)

theorem not_isDigit_of_isPower {c : Char} (h : isPower c = true) : Text.isDigit c = false := by
  simp only [isPower, Bool.or_eq_true, beq_iff_eq] at h
  rcases h with rfl | rfl <;> exact not_isDigit (by decide)

theorem not_isDigit_of_isSign {c : Char} (h : isSign c = true) : Text.isDigit c = false := by
  simp only [isSign, Bool.or_eq_true, beq_iff_eq] at h
  rcases h with rfl | rfl <;> exact not_isDigit (by decide)

/-- What follows a mantissa starts with no digit. -/
theorem exponent_head {x : List Char} (h : x = [] ∨ x ∈ exponent) :
    ∀ c ∈ x.head?, Text.isDigit c = false := by
  intro c hc
  rcases h with rfl | h
  · cases hc
  · obtain ⟨e, s, ds, he, -, -, -, rfl⟩ := mem_exponent.mp h
    cases hc
    exact not_isDigit_of_isPower he

/-- A point with digits behind it, of which what is left starts with no digit. -/
theorem point_cases {es x rest : List Char} (hes : ∀ c ∈ es, Text.isDigit c = true)
    (hx : x = [] ∨ x ∈ exponent) (h : es ++ x <+: rest) :
    es = Token.digitsAt rest ∨ (x = [] ∧ es.length ≤ (Token.digitsAt rest).length) := by
  rcases prefix_cases hes (exponent_head hx) h with ⟨he, -⟩ | ⟨hx, hlt⟩
  · exact .inl he
  · exact .inr ⟨hx, Nat.le_of_lt hlt⟩

theorem mantissaAt?_point {rest : List Char} :
    Token.mantissaAt? ('.' :: rest) =
      if Token.digitsAt rest = [] then none else some ('.' :: Token.digitsAt rest) := by
  have hwhole : Token.digitsAt ('.' :: rest) = [] := by
    simp [Token.digitsAt, point_not_isDigit]
  unfold Token.mantissaAt?
  rw [hwhole]
  cases hd : Token.digitsAt rest with
  | nil =>
    rw [if_pos rfl]
    simp only [hd]
  | cons d ds =>
    rw [if_neg (List.cons_ne_nil d ds)]
    simp only [hd]

theorem mantissaAt?_none {cs : List Char} (h : Token.digitsAt cs = [])
    (hpoint : ∀ rest, cs ≠ '.' :: rest) : Token.mantissaAt? cs = none := by
  unfold Token.mantissaAt?
  rw [h]
  split
  · exact absurd rfl (hpoint _)
  · rfl
  · contradiction

theorem drop_digitsAt (cs : List Char) :
    cs.drop (Token.digitsAt cs).length = cs.dropWhile Text.isDigit := by
  have hsplit : cs = Token.digitsAt cs ++ cs.dropWhile Text.isDigit :=
    List.takeWhile_append_dropWhile.symm
  rw [congrArg (List.drop (Token.digitsAt cs).length) hsplit]
  exact List.drop_left

theorem mantissaAt?_whole {cs : List Char} (h : Token.digitsAt cs ≠ [])
    (hpoint : ∀ rest, cs.dropWhile Text.isDigit ≠ '.' :: rest) :
    Token.mantissaAt? cs = some (Token.digitsAt cs) := by
  unfold Token.mantissaAt?
  split
  · contradiction
  · contradiction
  · rw [drop_digitsAt]
    split
    · rename_i rest hrest
      exact absurd hrest (hpoint rest)
    · rfl

theorem mantissaAt?_digits {cs rest : List Char} (h : Token.digitsAt cs ≠ [])
    (hpoint : cs.dropWhile Text.isDigit = '.' :: rest) :
    Token.mantissaAt? cs = some (Token.digitsAt cs ++ '.' :: Token.digitsAt rest) := by
  unfold Token.mantissaAt?
  split
  · contradiction
  · contradiction
  · rw [drop_digitsAt, hpoint]
    rfl

/-- The mantissa that is found at the front: any other there is no longer, and has nothing of a
number behind it. -/
structure Mantissa (cs m : List Char) : Prop where
  isPrefix : m <+: cs
  mem : m ∈ mantissa
  others : ∀ a x, a ∈ mantissa → (x = [] ∨ x ∈ exponent) → a ++ x <+: cs →
    a = m ∨ (x = [] ∧ a.length ≤ m.length)

/-- With a point at the front, a mantissa is the point and the digits behind it. -/
theorem mantissa_at_point {rest a x : List Char} (ha : a ∈ mantissa)
    (h : a ++ x <+: '.' :: rest) :
    ∃ es, es ≠ [] ∧ (∀ c ∈ es, Text.isDigit c = true) ∧ a = '.' :: es ∧ es ++ x <+: rest := by
  rcases mem_mantissa.mp ha with ⟨ds, hne, hds, hform⟩ | ⟨es, hne, hes, rfl⟩
  · exfalso
    obtain ⟨d, ds, rfl⟩ := List.exists_cons_of_ne_nil hne
    have hd : d = '.' := by
      rcases hform with rfl | ⟨es, -, rfl⟩ <;> exact (List.cons_prefix_cons.mp h).1
    have hdigit := hds d List.mem_cons_self
    rw [hd, point_not_isDigit] at hdigit
    cases hdigit
  · exact ⟨es, hne, hes, rfl, (List.cons_prefix_cons.mp h).2⟩

/-- Without a point at the front, a mantissa is made of digits, or of digits, a point and digits. -/
theorem mantissa_at_digits {cs a x : List Char} (hpoint : ∀ rest, cs ≠ '.' :: rest)
    (ha : a ∈ mantissa) (hx : x = [] ∨ x ∈ exponent) (h : a ++ x <+: cs) :
    (a = Token.digitsAt cs ∧ x <+: cs.dropWhile Text.isDigit) ∨
      (x = [] ∧ a.length < (Token.digitsAt cs).length) ∨
      ∃ es, (∀ c ∈ es, Text.isDigit c = true) ∧ a = Token.digitsAt cs ++ '.' :: es ∧
        '.' :: (es ++ x) <+: cs.dropWhile Text.isDigit := by
  rcases mem_mantissa.mp ha with ⟨ds, hne, hds, rfl | ⟨es, hes, rfl⟩⟩ | ⟨es, hne, hes, rfl⟩
  · rcases prefix_cases hds (exponent_head hx) h with ⟨he, hp⟩ | ⟨hx, hlt⟩
    · exact .inl ⟨he, hp⟩
    · exact .inr (.inl ⟨hx, hlt⟩)
  · rw [List.append_assoc] at h
    have hhead : ∀ c ∈ ('.' :: es ++ x).head?, Text.isDigit c = false := by
      intro c hc
      cases hc
      exact point_not_isDigit
    rcases prefix_cases hds hhead h with ⟨rfl, hp⟩ | ⟨hnil, -⟩
    · exact .inr (.inr ⟨es, hes, rfl, hp⟩)
    · cases hnil
  · obtain ⟨rest, rfl⟩ := h
    exact absurd rfl (hpoint _)

theorem digitsAt_isDigit (cs : List Char) : ∀ c ∈ Token.digitsAt cs, Text.isDigit c = true :=
  fun _ hc => List.mem_takeWhile_imp hc

theorem Mantissa.point {rest : List Char} (hne : Token.digitsAt rest ≠ []) :
    Mantissa ('.' :: rest) ('.' :: Token.digitsAt rest) where
  isPrefix := List.cons_prefix_cons.mpr ⟨rfl, List.takeWhile_prefix _⟩
  mem := mem_mantissa.mpr (.inr ⟨_, hne, digitsAt_isDigit rest, rfl⟩)
  others a x ha hx hp := by
    obtain ⟨es, -, hes, rfl, hrest⟩ := mantissa_at_point ha hp
    rcases point_cases hes hx hrest with rfl | ⟨hx, hle⟩
    · exact .inl rfl
    · exact .inr ⟨hx, by simpa using hle⟩

theorem Mantissa.digits {cs rest : List Char} (hne : Token.digitsAt cs ≠ [])
    (hpoint : ∀ rest, cs ≠ '.' :: rest) (hrest : cs.dropWhile Text.isDigit = '.' :: rest) :
    Mantissa cs (Token.digitsAt cs ++ '.' :: Token.digitsAt rest) where
  isPrefix := by
    have hsplit : Token.digitsAt cs ++ cs.dropWhile Text.isDigit = cs :=
      List.takeWhile_append_dropWhile
    nth_rewrite 2 [← hsplit]
    rw [hrest, List.prefix_append_right_inj, List.cons_prefix_cons]
    exact ⟨rfl, List.takeWhile_prefix _⟩
  mem := mem_mantissa.mpr
    (.inl ⟨_, hne, digitsAt_isDigit cs, .inr ⟨_, digitsAt_isDigit rest, rfl⟩⟩)
  others a x ha hx hp := by
    rcases mantissa_at_digits hpoint ha hx hp with ⟨rfl, hin⟩ | ⟨hx, hlt⟩ | ⟨es, hes, rfl, hin⟩
    · -- an exponent does not start with the point that is there
      refine .inr ⟨?_, by simp⟩
      rcases hx with hx | hx
      · exact hx
      · obtain ⟨e, s, ds, he, -, -, -, rfl⟩ := mem_exponent.mp hx
        rw [hrest] at hin
        rw [(List.cons_prefix_cons.mp hin).1] at he
        exact absurd he (by decide)
    · exact .inr ⟨hx, by simp; omega⟩
    · rw [hrest] at hin
      rcases point_cases hes hx (List.cons_prefix_cons.mp hin).2 with rfl | ⟨hx, hle⟩
      · exact .inl rfl
      · exact .inr ⟨hx, by simpa using hle⟩

theorem Mantissa.whole {cs : List Char} (hne : Token.digitsAt cs ≠ [])
    (hpoint : ∀ rest, cs ≠ '.' :: rest)
    (hinner : ∀ rest, cs.dropWhile Text.isDigit ≠ '.' :: rest) :
    Mantissa cs (Token.digitsAt cs) where
  isPrefix := List.takeWhile_prefix _
  mem := mem_mantissa.mpr (.inl ⟨_, hne, digitsAt_isDigit cs, .inl rfl⟩)
  others a x ha hx hp := by
    rcases mantissa_at_digits hpoint ha hx hp with ⟨rfl, -⟩ | ⟨hx, hlt⟩ | ⟨es, hes, rfl, hin⟩
    · exact .inl rfl
    · exact .inr ⟨hx, Nat.le_of_lt hlt⟩
    · obtain ⟨rest, hrest⟩ := hin
      exact absurd hrest.symm (hinner _)

theorem mantissaAt?_some {cs m : List Char} (h : Token.mantissaAt? cs = some m) :
    Mantissa cs m := by
  by_cases hpoint : ∃ rest, cs = '.' :: rest
  · obtain ⟨rest, rfl⟩ := hpoint
    rw [mantissaAt?_point] at h
    split at h
    · cases h
    · rename_i hne
      cases h
      exact .point hne
  · have hpoint : ∀ rest, cs ≠ '.' :: rest := fun rest h => hpoint ⟨rest, h⟩
    have hne : Token.digitsAt cs ≠ [] := by
      intro hnil
      rw [mantissaAt?_none hnil hpoint] at h
      cases h
    by_cases hinner : ∃ rest, cs.dropWhile Text.isDigit = '.' :: rest
    · obtain ⟨rest, hrest⟩ := hinner
      rw [mantissaAt?_digits hne hrest] at h
      cases h
      exact .digits hne hpoint hrest
    · have hinner : ∀ rest, cs.dropWhile Text.isDigit ≠ '.' :: rest :=
        fun rest h => hinner ⟨rest, h⟩
      rw [mantissaAt?_whole hne hinner] at h
      cases h
      exact .whole hne hpoint hinner

theorem no_mantissa {cs a : List Char} (h : Token.mantissaAt? cs = none) (ha : a ∈ mantissa) :
    ¬ a <+: cs := by
  intro hp
  have hp : a ++ [] <+: cs := by simpa using hp
  by_cases hpoint : ∃ rest, cs = '.' :: rest
  · obtain ⟨rest, rfl⟩ := hpoint
    obtain ⟨es, hne, hes, -, hrest⟩ := mantissa_at_point ha hp
    have hle := length_le_takeWhile hes (by simpa using hrest)
    rw [mantissaAt?_point, if_neg] at h
    · cases h
    · exact List.ne_nil_of_length_pos (Nat.lt_of_lt_of_le (List.length_pos_of_ne_nil hne) hle)
  · have hpoint : ∀ rest, cs ≠ '.' :: rest := fun rest h => hpoint ⟨rest, h⟩
    have hnil : Token.digitsAt cs = [] := by
      by_contra hne
      by_cases hinner : ∃ rest, cs.dropWhile Text.isDigit = '.' :: rest
      · obtain ⟨rest, hrest⟩ := hinner
        rw [mantissaAt?_digits hne hrest] at h
        cases h
      · rw [mantissaAt?_whole hne fun rest h => hinner ⟨rest, h⟩] at h
        cases h
    rcases mem_mantissa.mp ha with ⟨ds, hne, hds, hform⟩ | ⟨es, hne, hes, rfl⟩
    · have hds' : ds <+: cs := by
        rcases hform with rfl | ⟨es, -, rfl⟩
        · simpa using hp
        · rw [List.append_nil] at hp
          exact (List.prefix_append _ _).trans hp
      have hle := length_le_takeWhile hds hds'
      rw [Token.digitsAt] at hnil
      rw [hnil] at hle
      exact hne (List.length_eq_zero_iff.mp (Nat.le_zero.mp hle))
    · obtain ⟨rest, rfl⟩ := hp
      exact hpoint _ rfl

/-- The sign in front of the digits of an exponent, if there is one. -/
def signAt (cs : List Char) : List Char := (cs.take 1).filter isSign

theorem signAt_cases (cs : List Char) :
    (signAt cs = [] ∨ ∃ c, isSign c = true ∧ signAt cs = [c]) ∧
      signAt cs ++ cs.drop (signAt cs).length = cs := by
  unfold signAt
  cases cs with
  | nil => exact ⟨.inl rfl, rfl⟩
  | cons c cs =>
    cases hc : isSign c with
    | true => simp [hc]
    | false => simp [hc]

theorem signAt_eq {s ds rest : List Char} (hs : s = [] ∨ ∃ c, isSign c = true ∧ s = [c])
    (hne : ds ≠ []) (hds : ∀ c ∈ ds, Text.isDigit c = true) (h : s ++ ds <+: rest) :
    signAt rest = s := by
  obtain ⟨rest, rfl⟩ := h
  rcases hs with rfl | ⟨c, hc, rfl⟩
  · obtain ⟨d, ds, rfl⟩ := List.exists_cons_of_ne_nil hne
    cases hsign : isSign d with
    | false => simp [signAt, hsign]
    | true =>
      have hd := hds d List.mem_cons_self
      rw [not_isDigit_of_isSign hsign] at hd
      cases hd
  · simp [signAt, hc]

theorem exponentAt_cons (mark : Char) (rest : List Char) :
    Token.exponentAt (mark :: rest) =
      if isPower mark = true ∧ Token.digitsAt (rest.drop (signAt rest).length) ≠ [] then
        mark :: (signAt rest ++ Token.digitsAt (rest.drop (signAt rest).length))
      else [] := by
  have hpower : (mark == 'e' || mark == 'E') = isPower mark := rfl
  have hsign : (rest.take 1).filter (fun c => c == '+' || c == '-') = signAt rest := rfl
  unfold Token.exponentAt
  dsimp only
  rw [hpower, hsign]
  by_cases he : isPower mark = true
  · rw [if_pos he]
    split
    · rename_i hnil
      simp [hnil]
    · rename_i hne
      rw [if_pos ⟨he, hne⟩]
      rfl
  · rw [if_neg he, if_neg (fun h => he h.1)]

/-- An exponent is found wherever there is one, and no other there is longer. -/
theorem exponentAt_longest (cs : List Char) :
    Token.exponentAt cs <+: cs ∧ (Token.exponentAt cs = [] ∨ Token.exponentAt cs ∈ exponent) ∧
      ∀ x, x <+: cs → x ∈ exponent → x.length ≤ (Token.exponentAt cs).length := by
  cases cs with
  | nil =>
    refine ⟨List.nil_prefix, .inl rfl, fun x hx _ => ?_⟩
    rw [List.prefix_nil.mp hx]
    exact Nat.le_refl _
  | cons mark rest =>
    obtain ⟨hsign, hsplit⟩ := signAt_cases rest
    rw [exponentAt_cons]
    refine ⟨?_, ?_, ?_⟩
    · split
      · rw [List.cons_prefix_cons]
        refine ⟨rfl, ?_⟩
        rw [congrArg (_ <+: ·) hsplit.symm, List.prefix_append_right_inj]
        exact List.takeWhile_prefix _
      · exact List.nil_prefix
    · split
      · rename_i h
        refine .inr (mem_exponent.mpr ⟨mark, _, _, h.1, hsign, h.2, ?_, rfl⟩)
        exact fun c hc => List.mem_takeWhile_imp hc
      · exact .inl rfl
    · intro x hx hm
      obtain ⟨e, s, ds, he, hs, hne, hds, rfl⟩ := mem_exponent.mp hm
      obtain ⟨rfl, hrest⟩ := List.cons_prefix_cons.mp hx
      obtain rfl := signAt_eq hs hne hds hrest
      have hle : ds.length ≤ (Token.digitsAt (rest.drop (signAt rest).length)).length := by
        rw [congrArg (_ <+: ·) hsplit.symm, List.prefix_append_right_inj] at hrest
        exact length_le_takeWhile hds hrest
      have hpos := List.length_pos_of_ne_nil hne
      rw [if_pos ⟨he, List.ne_nil_of_length_pos (by omega)⟩]
      simpa using hle

theorem numberAt?_longest (cs : List Char) : Longest number cs (Token.numberAt? cs) := by
  have hparts : ∀ {v}, v ∈ number → ∃ a x, a ∈ mantissa ∧ (x = [] ∨ x ∈ exponent) ∧ a ++ x = v := by
    intro v hv
    obtain ⟨a, ha, x, hx, rfl⟩ := Language.mem_mul.mp hv
    exact ⟨a, x, ha, mem_optional.mp hx, rfl⟩
  unfold Token.numberAt?
  cases hm : Token.mantissaAt? cs with
  | none =>
    intro v hv hn
    obtain ⟨a, x, ha, -, rfl⟩ := hparts hn
    exact no_mantissa hm ha ((List.prefix_append a x).trans hv)
  | some m =>
    obtain ⟨hp, hmem, hothers⟩ := mantissaAt?_some hm
    obtain ⟨rest, rfl⟩ := hp
    obtain ⟨hfront, hlast, hlongest⟩ := exponentAt_longest rest
    rw [Option.map_some, List.drop_left]
    refine ⟨by simpa using hfront, ?_, ?_⟩
    · exact Language.mem_mul.mpr ⟨m, hmem, _, mem_optional.mpr hlast, rfl⟩
    · intro v hv hn
      obtain ⟨a, x, ha, hx, rfl⟩ := hparts hn
      simp only [List.length_append]
      rcases hothers a x ha hx hv with rfl | ⟨rfl, hle⟩
      · rcases hx with rfl | hx
        · simp
        · have hle := hlongest x (by simpa using hv) hx
          omega
      · simp only [List.length_nil]
        omega

end Lexeme
end Switchboard
