-- What may stand behind a terminal without changing where it ends. Gaps, quotes and the closing
-- parenthesis stand in no token of several characters but in quoted texts, and a quoted text at the
-- front of another one is the whole of it; so no terminal goes on over one of them. A sentence whose
-- terminals are written with single spaces between them is therefore cut into these terminals again.
import Switchboard.Proofs.Acceptance
namespace Switchboard

open Grammar Symbol

/-! ## Characters that part tokens -/

namespace Lexeme

variable {w : List Char} {c : Char}

/-- The characters that part what stands before them from what follows. -/
def parting : List Char := [' ', '\t', '\x0c', '\r', '\n', ')', '"', '\'']

def parts (c : Char) : Bool := parting.contains c

theorem parts_of_isGap (h : Cut.isGap c = true) : parts c = true := by
  simp only [Cut.isGap, Bool.or_eq_true, beq_iff_eq] at h
  rcases h with (((rfl | rfl) | rfl) | rfl) | rfl <;> rfl

/-- The characters of numbers and names. -/
def inner (c : Char) : Bool :=
  Text.isDigit c || Text.isHexDigit c || Token.isNamePart c || isSign c || c == '.'

theorem not_inner_of_parts (h : parts c = true) : inner c = false := by
  have hclasses : (parting.all fun d => decide (d.toNat < 48) && !Text.isHexDigit d &&
      !Token.isNamePart d && !isSign d && d != '.') = true := by decide
  have hc := List.all_eq_true.mp hclasses c (List.contains_iff_mem.mp h)
  simp only [Bool.and_eq_true, decide_eq_true_eq, Bool.not_eq_true', bne_iff_ne] at hc
  obtain ⟨⟨⟨⟨hdigit, hhex⟩, hname⟩, hsign⟩, hpoint⟩ := hc
  simp [inner, not_isDigit (.inl hdigit), hhex, hname, hsign, hpoint]

theorem inner_of_isDigit (h : Text.isDigit c = true) : inner c = true := by
  simp [inner, h]

theorem mantissa_inner (h : w ∈ mantissa) : ∀ c ∈ w, inner c = true := by
  have hdigits : ∀ {ds : List Char}, (∀ c ∈ ds, Text.isDigit c = true) → ∀ c ∈ ds, inner c = true :=
    fun hds c hc => inner_of_isDigit (hds c hc)
  rcases mem_mantissa.mp h with ⟨ds, -, hds, rfl | ⟨es, hes, rfl⟩⟩ | ⟨es, -, hes, rfl⟩
  · exact hdigits hds
  · exact List.forall_mem_append.mpr
      ⟨hdigits hds, List.forall_mem_cons.mpr ⟨by decide +kernel, hdigits hes⟩⟩
  · exact List.forall_mem_cons.mpr ⟨by decide +kernel, hdigits hes⟩

theorem exponent_inner (h : w ∈ exponent) : ∀ c ∈ w, inner c = true := by
  obtain ⟨e, s, ds, he, hs, -, hds, rfl⟩ := mem_exponent.mp h
  have hpower : inner e = true := by
    simp only [isPower, Bool.or_eq_true, beq_iff_eq] at he
    rcases he with rfl | rfl <;> decide +kernel
  have hsign : ∀ c ∈ s, inner c = true := by
    rcases hs with rfl | ⟨c, hc, rfl⟩
    · exact List.forall_mem_nil _
    · exact List.forall_mem_singleton.mpr (by simp [inner, hc])
  exact List.forall_mem_cons.mpr ⟨hpower,
    List.forall_mem_append.mpr ⟨hsign, fun c hc => inner_of_isDigit (hds c hc)⟩⟩

theorem number_inner (h : w ∈ number) : ∀ c ∈ w, inner c = true := by
  obtain ⟨a, ha, x, hx, rfl⟩ := Language.mem_mul.mp h
  refine List.forall_mem_append.mpr ⟨mantissa_inner ha, ?_⟩
  rcases mem_optional.mp hx with rfl | hx
  · exact List.forall_mem_nil _
  · exact exponent_inner hx

theorem hexNumber_inner (h : w ∈ hexNumber) : ∀ c ∈ w, inner c = true := by
  obtain ⟨x, ds, hx, -, hds, rfl⟩ := mem_hexNumber.mp h
  have hmark : inner x = true := by
    simp only [Bool.or_eq_true, beq_iff_eq] at hx
    rcases hx with rfl | rfl <;> decide +kernel
  exact List.forall_mem_cons.mpr ⟨by decide +kernel,
    List.forall_mem_cons.mpr ⟨hmark, fun c hc => by simp [inner, hds c hc]⟩⟩

theorem name_inner (h : w ∈ name) : ∀ c ∈ w, inner c = true := by
  obtain ⟨c, r, hc, hr, rfl⟩ := mem_name.mp h
  have hstart : Token.isNamePart c = true := by
    simp only [Token.isNameStart, Bool.or_eq_true] at hc
    rcases hc with (hc | hc) | hc <;> simp [Token.isNamePart, Char.isAlphanum, hc]
  exact List.forall_mem_cons.mpr ⟨by simp [inner, hstart], fun c hc => by simp [inner, hr c hc]⟩

/-- A quoted text at the front of another one is the whole of it. -/
theorem quoted_eq_of_prefix {v : List Char} (hv : v ∈ quoted) (hw : w ∈ quoted) (h : v <+: w) :
    v = w := by
  obtain ⟨rest, rfl⟩ := h
  have hwhole := quotedAt?_eq hw []
  rw [List.append_nil, quotedAt?_eq hv rest] at hwhole
  exact Option.some.inj hwhole

end Lexeme

namespace Token

open Lexeme

variable {stand : Stand} {t u : Token} {c : Char}

theorem mark_parted {m : String} (h : t.fits stand = true) (hm : t.terminal = .mark m)
    (hc : parts c = true) (hmem : c ∈ t.text.toList) : t.text.toList.length = 1 := by
  have hmarks : ∀ t ∈ operandMarks ++ operatorMarks, t.text.toList.any parts = true →
      t.text.toList.length = 1 := by decide
  have hmark : t ∈ operandMarks ++ operatorMarks := by
    cases stand with
    | operand => exact List.mem_append_left _ (mem_operandMarks h hm)
    | operator => exact List.mem_append_right _ (mem_operatorMarks h)
    | part =>
      obtain ⟨s, rfl⟩ := name_of_part h
      cases hm
  exact hmarks t hmark (List.any_eq_true.mpr ⟨c, hmem, hc⟩)

/-- A token with such a character in it is a quoted text, or that character. -/
theorem quoted_of_parted (h : t.fits stand = true) (hs : t.Spelled) (hc : parts c = true)
    (hmem : c ∈ t.text.toList) : t.kind = .quoted ∨ t.text.toList.length = 1 := by
  have hinner : ¬ ∀ d ∈ t.text.toList, inner d = true := by
    intro hall
    have hpart := hall c hmem
    rw [not_inner_of_parts hc] at hpart
    cases hpart
  cases hm : t.terminal with
  | number s =>
    cases t <;> cases hm
    exact absurd (number_inner hs) hinner
  | hexNumber s =>
    cases t <;> cases hm
    exact absurd (hexNumber_inner hs) hinner
  | quoted s =>
    cases t <;> cases hm
    exact .inl rfl
  | name s =>
    cases t <;> cases hm
    exact absurd (name_inner hs) hinner
  | mark m => exact .inr (mark_parted h hm hc hmem)

/-- Where a quoted text can stand, a token that it starts with is the text itself. -/
theorem eq_of_quoted (ht : t.fits stand = true) (hu : u.fits stand = true) (hst : t.Spelled)
    (hsu : u.Spelled) (hkind : u.kind = .quoted) (h : t.text.toList <+: u.text.toList) :
    t.text.toList = u.text.toList := by
  obtain ⟨s, rfl⟩ : ∃ s, u = .quoted s := by
    cases u <;> first | exact ⟨_, rfl⟩ | cases hkind
  cases stand with
  | operand =>
    have hkinds : t.kind = .quoted := by
      obtain ⟨c, r, hc, hk⟩ := kindOf_head ht hst
      obtain ⟨d, r', hd, hk'⟩ := kindOf_head hu hsu
      rw [hc, hd, List.cons_prefix_cons] at h
      rw [← hk, h.1, hk', hkind]
    obtain ⟨s', rfl⟩ : ∃ s', t = .quoted s' := by
      cases t <;> first | exact ⟨_, rfl⟩ | cases hkinds
    exact quoted_eq_of_prefix hst hsu h
  | operator =>
    have hmark := terminal_of_operator hu
    cases hmark
  | part => cases hu

/-- No token goes on over such a character behind a token that can stand in its place. -/
theorem length_le_of_parted (ht : t.fits stand = true) (hu : u.fits stand = true) (hst : t.Spelled)
    (hsu : u.Spelled) (h : t.text.toList <+: u.text.toList) (hc : parts c = true)
    (hmem : c ∈ u.text.toList) : u.text.toList.length ≤ t.text.toList.length := by
  rcases quoted_of_parted hu hsu hc hmem with hkind | hone
  · exact Nat.le_of_eq (congrArg List.length (eq_of_quoted ht hu hst hsu hkind h).symm)
  · obtain ⟨d, r, hd, -⟩ := head_not_gap ht hst
    rw [hone, hd]
    exact Nat.succ_pos _

/-- So a token that is longer than another one has to end before such a character. -/
theorem prefix_or_length_le {a rest : List Char} (ht : t.fits stand = true)
    (hu : u.fits stand = true) (hst : t.Spelled) (hsu : u.Spelled) (hc : parts c = true)
    (h : u.text.toList <+: t.text.toList ++ (a ++ c :: rest)) :
    u.text.toList <+: t.text.toList ++ a ∨ u.text.toList.length ≤ t.text.toList.length := by
  rw [← List.append_assoc] at h
  rcases Nat.lt_or_ge (t.text.toList ++ a).length u.text.toList.length with hlong | hshort
  · have hfront : t.text.toList ++ a ++ [c] <+: u.text.toList := by
      refine List.prefix_of_prefix_length_le ⟨rest, by simp⟩ h ?_
      rw [List.length_append, List.length_singleton]
      exact hlong
    refine .inr (length_le_of_parted ht hu hst hsu ?_ hc (hfront.subset (by simp)))
    rw [List.append_assoc] at hfront
    exact (List.prefix_append _ _).trans hfront
  · exact .inl (List.prefix_of_prefix_length_le h (List.prefix_append _ _) hshort)

end Token

/-! ## Terminals before such a character -/

namespace Grammar

variable {taken ws : List Terminal} {ts : List Token} {σ : Stand} {t : Terminal}
  {a b rest : List Char} {c : Char} {p : Phrase}

/-- The beginning of a sentence is a row of tokens. -/
theorem Derives.reads (hd : Derives sequence (taken ++ ws) p) :
    ∃ ts σ, Reads .operand taken ts σ := by
  obtain ⟨ts, hts, -⟩ := Expr.run_of_derives hd
  obtain ⟨us, vs, σ, -, htaken, -⟩ := hts.split
  exact ⟨us, σ, htaken⟩

namespace LongestAt

/-- A terminal is the longest one where nothing follows it. -/
theorem atEnd (hs : t.Spelled) (hc : Continues taken t) : LongestAt taken t.text.toList t :=
  ⟨hs, List.prefix_refl _, hc, fun _ _ hp _ => hp.length_le⟩

/-- The less of the text follows, the fewer terminals are in the way. -/
theorem before (h : LongestAt taken (t.text.toList ++ (a ++ b)) t) :
    LongestAt taken (t.text.toList ++ a) t := by
  refine ⟨h.spelled, List.prefix_append _ _, h.continues, fun u hu hp hc => ?_⟩
  rw [← List.append_assoc] at h
  exact h.longest u hu (hp.trans (List.prefix_append _ _)) hc

/-- A terminal that is the longest one stays so if a character that parts tokens follows, whatever
stands behind that. -/
theorem parted (h : LongestAt taken (t.text.toList ++ a) t) (hr : Reads .operand taken ts σ)
    (hc : Lexeme.parts c = true) (rest : List Char) :
    LongestAt taken (t.text.toList ++ (a ++ c :: rest)) t := by
  refine ⟨h.spelled, List.prefix_append _ _, h.continues, fun u hu hp hcont => ?_⟩
  obtain ⟨t, rfl, ht⟩ := h.continues.token hr
  obtain ⟨u, rfl, hufits⟩ := hcont.token hr
  have hspelled := h.spelled
  simp only [Token.terminal_text] at h hp ⊢
  rcases Token.prefix_or_length_le ht hufits hspelled hu hc hp with hbefore | hle
  · have hlongest := h.longest u.terminal hu (by rwa [Token.terminal_text]) hcont
    simpa using hlongest
  · exact hle

end LongestAt

/-! ## Cutting what is spaced -/

/-- Before a space or the end, the longest terminal is the one that stands there. -/
theorem longestAt_spaced (hd : Derives sequence (taken ++ t :: ws) p) (hs : t.Spelled)
    (hrest : rest = [] ∨ ∃ cs, rest = ' ' :: cs) : LongestAt taken (t.text.toList ++ rest) t := by
  have hend := LongestAt.atEnd hs ⟨ws, p, hd⟩
  obtain ⟨ts, σ, htaken⟩ := hd.reads
  rcases hrest with rfl | ⟨cs, rfl⟩
  · rwa [List.append_nil]
  · rw [← List.append_nil t.text.toList] at hend
    exact hend.parted htaken (by decide) cs

/-- The characters of terminals, each with a space before it. -/
def spaced (ws : List Terminal) : List Char := ws.flatMap fun t => ' ' :: t.text.toList

theorem spaced_cases (ws : List Terminal) : spaced ws = [] ∨ ∃ cs, spaced ws = ' ' :: cs := by
  cases ws with
  | nil => exact .inl rfl
  | cons t ws => exact .inr ⟨_, rfl⟩

theorem cuts_spaced (hd : Derives sequence (taken ++ ws) p) (hs : ∀ t ∈ ws, t.Spelled) :
    Cuts taken (spaced ws) ws := by
  induction ws generalizing taken with
  | nil => exact .done (by simp [spaced])
  | cons t ws ih =>
    obtain ⟨hst, hsw⟩ := List.forall_mem_cons.mp hs
    have hlongest := longestAt_spaced hd hst (spaced_cases ws)
    have hrest : Derives sequence ((taken ++ [t]) ++ ws) p := by simpa using hd
    have hgap : ∀ c ∈ [' '], Cut.isGap c = true := List.forall_mem_singleton.mpr rfl
    exact .take hgap hlongest (ih hrest hsw)

/-- The text of terminals, with single spaces between them. -/
def spacedText (ws : List Terminal) : String := " ".intercalate (ws.map Terminal.text)

theorem spacedText_toList (t : Terminal) (ws : List Terminal) :
    (spacedText (t :: ws)).toList = t.text.toList ++ spaced ws := by
  induction ws generalizing t with
  | nil => simp [spacedText, spaced, String.intercalate_singleton]
  | cons u ws ih =>
    have hrest : (spacedText (t :: u :: ws)).toList =
        t.text.toList ++ ' ' :: (spacedText (u :: ws)).toList := by
      simp [spacedText, String.intercalate_cons_cons]
    rw [hrest, ih]
    rfl

/-- A sentence is cut from its text. -/
theorem cuts_spacedText (hd : Derives sequence ws p) (hs : ∀ t ∈ ws, t.Spelled) :
    Cuts [] (spacedText ws).toList ws := by
  cases ws with
  | nil => exact .done (by simp [spacedText])
  | cons t ws =>
    obtain ⟨hst, hsw⟩ := List.forall_mem_cons.mp hs
    have hd' : Derives sequence ([] ++ t :: ws) p := hd
    have hlongest := longestAt_spaced hd' hst (spaced_cases ws)
    have hrest : Derives sequence (([] ++ [t]) ++ ws) p := hd
    have hcuts := Cuts.take (List.forall_mem_nil _) hlongest (cuts_spaced hrest hsw)
    rw [spacedText_toList]
    exact hcuts

/-- A sentence that is written with single spaces is read as the expression of its derivation. -/
theorem parse_spacedText {e : Expr} (hd : DerivedSequence ws e) (hs : ∀ t ∈ ws, t.Spelled) :
    Expr.parse (spacedText ws) = .ok e := by
  obtain ⟨p, hp, he⟩ := hd
  rw [Expr.parse_of_cuts (cuts_spacedText hp hs) hp, he, Option.elim_some]

end Grammar
end Switchboard
