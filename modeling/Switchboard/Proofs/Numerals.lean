-- Integers written in decimal. The text of an integer that is short enough to be written is read
-- back as that integer, also with blanks around it.
import Switchboard.Coercion
namespace Switchboard.Text

/-! ## Digits -/

/-- Of all scripts, the ten digits of ASCII come first. -/
theorem digit?_of_isDigit {c : Char} (h : c.isDigit = true) : digit? c = some (c.toNat - 48) := by
  have hc : 48 ≤ c.toNat ∧ c.toNat ≤ 57 := Char.isDigit_iff_toNat.mp h
  have hzero : zeros.find? (fun z => z ≤ c.toNat && c.toNat < z + 10) = some 48 :=
    List.find?_cons_of_pos (by simp; omega)
  unfold digit?
  rw [hzero]
  rfl

/-- A decimal digit of ASCII is a digit. -/
theorem isDigit_of_ascii {c : Char} (h : c.isDigit = true) : isDigit c = true := by
  unfold isDigit
  rw [digit?_of_isDigit h]
  rfl

/-- A digit stands among the ten that begin with a zero. -/
theorem exists_zero {c : Char} (h : isDigit c = true) :
    ∃ z ∈ zeros, z ≤ c.toNat ∧ c.toNat < z + 10 := by
  obtain ⟨d, hd⟩ := Option.isSome_iff_exists.mp h
  obtain ⟨z, hz, -⟩ := Option.map_eq_some_iff.mp hd
  have hwithin := List.find?_some hz
  rw [Bool.and_eq_true, decide_eq_true_eq, decide_eq_true_eq] at hwithin
  exact ⟨z, List.mem_of_find?_eq_some hz, hwithin⟩

theorem zeros_apart : ∀ z ∈ zeros, ∀ r ∈ blankRanges, z + 9 < r.1 ∨ r.2 < z := by decide

/-- No digit of any script is blank. -/
theorem not_isBlank_of_isDigit {c : Char} (h : isDigit c = true) : isBlank c = false := by
  obtain ⟨z, hz, hle, hlt⟩ := exists_zero h
  refine List.any_eq_false.mpr fun r hr => ?_
  rw [Bool.and_eq_true, decide_eq_true_eq, decide_eq_true_eq]
  rcases zeros_apart z hz r hr with h | h <;> omega

theorem underscore_not_digit : isDigit '_' = false := by decide

def digitValues (cs : List Char) : List Nat := cs.map fun c => (digit? c).getD 0

/-- A run of digits without underscores is read digit by digit. -/
theorem digitRun?_of_digits {cs : List Char} (hne : cs ≠ []) (h : ∀ c ∈ cs, isDigit c = true) :
    digitRun? cs = some (digitValues cs) := by
  induction cs with
  | nil => exact absurd rfl hne
  | cons c rest ih =>
    obtain ⟨hc, hrest⟩ := List.forall_mem_cons.mp h
    obtain ⟨d, hd⟩ := Option.isSome_iff_exists.mp hc
    cases rest with
    | nil => simp [digitRun?, digitValues, hd]
    | cons c' rest =>
      have hc' : c' ≠ '_' := by
        rintro rfl
        cases underscore_not_digit.symm.trans (hrest '_' List.mem_cons_self)
      rw [digitRun?, ih (List.cons_ne_nil c' rest) hrest, hd]
      · simp [digitValues, hd]
      · exact List.cons_ne_nil c' rest
      · exact fun _ he => hc' (List.cons.inj he).1

theorem digitRun?_toDigits (n : Nat) :
    ∃ digits, digitRun? (Nat.toDigits 10 n) = some digits ∧
      digits.length = (Nat.toDigits 10 n).length ∧ ofDigits 10 digits = n := by
  have hascii : ∀ c ∈ Nat.toDigits 10 n, c.isDigit = true := fun c hc =>
    Nat.isDigit_of_mem_toDigits (by decide) (by decide) hc
  have hvalues : digitValues (Nat.toDigits 10 n) =
      (Nat.toDigits 10 n).map fun c => c.toNat - 48 :=
    List.map_congr_left fun c hc => by rw [digit?_of_isDigit (hascii c hc), Option.getD_some]
  refine ⟨_, digitRun?_of_digits Nat.toDigits_ne_nil fun c hc => isDigit_of_ascii (hascii c hc),
    List.length_map _, ?_⟩
  rw [hvalues]
  unfold ofDigits
  rw [List.foldl_map]
  exact (Nat.ofDigitChars_eq_foldl ..).symm.trans (Nat.ofDigitChars_ten_toDigits)

/-! ## Integers -/

theorem dropWhile_isBlank {cs : List Char} (hne : cs ≠ []) (h : ∀ c ∈ cs, isBlank c = false)
    (rest : List Char) : (cs ++ rest).dropWhile isBlank = cs ++ rest := by
  obtain ⟨c, tail, rfl⟩ := List.exists_cons_of_ne_nil hne
  have hc : ¬ isBlank c = true := by simp [h c List.mem_cons_self]
  exact List.dropWhile_cons_of_neg hc

/-- Blanks at both ends go away. -/
theorem trim_of_blanks {before cs behind : List Char} (hbefore : ∀ c ∈ before, isBlank c = true)
    (hne : cs ≠ []) (h : ∀ c ∈ cs, isBlank c = false)
    (hbehind : ∀ c ∈ behind, isBlank c = true) : trim (before ++ cs ++ behind) = cs := by
  have hright : trimRight (cs ++ behind) = cs := by
    have hreverse := dropWhile_isBlank (mt List.reverse_eq_nil_iff.mp hne)
      (fun c hc => h c (List.mem_reverse.mp hc)) []
    rw [List.append_nil] at hreverse
    unfold trimRight
    rw [List.reverse_append, List.dropWhile_append_of_pos fun c hc =>
      hbehind c (List.mem_reverse.mp hc), hreverse, List.reverse_reverse]
  unfold trim
  rw [List.append_assoc, List.dropWhile_append_of_pos hbefore, dropWhile_isBlank hne h, hright]

theorem toList_toString (n : Int) :
    (toString n).toList = (if n < 0 then ['-'] else []) ++ Nat.toDigits 10 n.natAbs := by
  rw [Int.toString_eq_repr, Int.repr_eq_if]
  by_cases hn : n < 0
  · have hnat : (-n).toNat = n.natAbs := by omega
    rw [if_neg (by omega), if_pos hn, String.toList_append, Nat.toList_repr, hnat]
    rfl
  · have hnat : n.toNat = n.natAbs := by omega
    rw [if_pos (by omega), if_neg hn, Nat.toList_repr, hnat]
    rfl

theorem toString_ne_nil (n : Int) : (toString n).toList ≠ [] := by
  rw [toList_toString]
  exact List.append_ne_nil_of_right_ne_nil _ Nat.toDigits_ne_nil

theorem not_isBlank_toString {n : Int} {c : Char} (h : c ∈ (toString n).toList) :
    isBlank c = false := by
  rw [toList_toString, List.mem_append] at h
  rcases h with h | h
  · split at h
    · cases List.mem_singleton.mp h
      decide
    · cases h
  · exact not_isBlank_of_isDigit
      (isDigit_of_ascii (Nat.isDigit_of_mem_toDigits (by decide) (by decide) h))

/-- What starts with a digit is read without a sign. -/
theorem sign_of_digit {c : Char} {rest : List Char} (h : isDigit c = true) :
    sign (c :: rest) = (false, c :: rest) := by
  have hminus : isDigit '-' = false := by decide
  have hplus : isDigit '+' = false := by decide
  unfold sign
  split
  · cases ‹c :: rest = _›
    cases hminus.symm.trans h
  · cases ‹c :: rest = _›
    cases hplus.symm.trans h
  · rfl

/-- The sign is the one of the integer, and the digits behind it write its amount. -/
theorem sign_toString (n : Int) :
    sign (toString n).toList = (decide (n < 0), Nat.toDigits 10 n.natAbs) := by
  rw [toList_toString]
  by_cases hn : n < 0
  · simp [hn, sign]
  · obtain ⟨c, rest, hdigits⟩ := List.exists_cons_of_ne_nil (Nat.toDigits_ne_nil (b := 10)
      (n := n.natAbs))
    have hc : c.isDigit = true := Nat.isDigit_of_mem_toDigits (by decide) (by decide)
      (hdigits ▸ List.mem_cons_self)
    rw [if_neg hn, decide_eq_false hn, List.nil_append, hdigits]
    exact sign_of_digit (isDigit_of_ascii hc)

theorem length_toDigits_le {n : Int} (h : isWritable n = true) :
    (Nat.toDigits 10 n.natAbs).length ≤ maxDigits := by
  have hmost : 0 < maxDigits := by decide
  -- the bound is a name here, so that no power of it is computed
  unfold isWritable at h
  generalize maxDigits = most at h hmost ⊢
  exact (Nat.length_toDigits_le_iff (by decide) hmost).mpr (of_decide_eq_true h)

/-- What was written is read back. -/
theorem readInt?_toString {n : Int} (h : isWritable n = true) {before behind : List Char}
    (hbefore : ∀ c ∈ before, isBlank c = true) (hbehind : ∀ c ∈ behind, isBlank c = true) :
    readInt? (before ++ (toString n).toList ++ behind) = some n := by
  obtain ⟨digits, hrun, hlength, hvalue⟩ := digitRun?_toDigits n.natAbs
  have hshort : digits.length ≤ maxDigits :=
    Nat.le_trans (Nat.le_of_eq hlength) (length_toDigits_le h)
  have hsigned : (if decide (n < 0) then -(n.natAbs : Int) else n.natAbs) = n := by
    by_cases hn : n < 0
    · rw [decide_eq_true hn, if_pos rfl]
      omega
    · rw [decide_eq_false hn, if_neg Bool.false_ne_true]
      omega
  have hguard : (guard (digits.length ≤ maxDigits) : Option Unit) = some () := if_pos hshort
  unfold readInt?
  rw [trim_of_blanks hbefore (toString_ne_nil n) (fun _ => not_isBlank_toString) hbehind,
    sign_toString]
  dsimp only
  rw [hrun, Option.bind_eq_bind, Option.bind_some, hguard, hvalue]
  exact congrArg some hsigned

end Switchboard.Text

namespace Switchboard.Value

/-- Blanks around a text do not show in what it counts as. -/
theorem numberOfText_of_blanks {before cs behind : List Char}
    (hbefore : ∀ c ∈ before, Text.isBlank c = true) (hne : cs ≠ [])
    (h : ∀ c ∈ cs, Text.isBlank c = false) (hbehind : ∀ c ∈ behind, Text.isBlank c = true) :
    numberOfText (String.ofList (before ++ cs ++ behind)) =
      match Text.readInt? cs, Decimal.readFloat? cs with
      | some n, _ => .int n
      | none, some x => .float x
      | none, none => .float .nan := by
  unfold numberOfText
  rw [String.toList_ofList, Text.trim_of_blanks hbefore hne h hbehind]
  dsimp only
  rw [List.isEmpty_eq_false_iff.mpr hne]
  rfl

end Switchboard.Value
