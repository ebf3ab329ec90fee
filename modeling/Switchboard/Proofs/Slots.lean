-- Where the entries of a container are found. An integer and its decimal text name the same entry
-- of a list, a text or a table, and no other text names it. Only a text with a sign is no index, so
-- that what a table holds under an integer below zero is not found by its text.
import Switchboard.Lookup
import Switchboard.Proofs.Numerals
import Switchboard.Proofs.Tables
namespace Switchboard.Value

/-! ## Indices -/

/-- All characters of the text of an integer are digits, unless there is a sign. -/
theorem all_isDigit_toString (n : Int) :
    (toString n).toList.all Text.isDigit = decide (0 ≤ n) := by
  rw [Text.toList_toString, Bool.eq_iff_iff, decide_eq_true_iff, List.all_eq_true]
  constructor
  · intro h
    have hsign : Text.isDigit '-' = false := by decide
    refine Int.not_lt.mp fun hn => ?_
    rw [if_pos hn] at h
    cases hsign.symm.trans (h '-' List.mem_cons_self)
  · intro hn c hc
    rw [if_neg (Int.not_lt.mpr hn)] at hc
    exact Text.isDigit_of_ascii (Nat.isDigit_of_mem_toDigits (by decide) (by decide) hc)

theorem read_toString {n : Int} (h : Text.isWritable n = true) :
    Text.readInt? (toString n).toList = some n := by
  simpa using Text.readInt?_toString h (List.forall_mem_nil _) (List.forall_mem_nil _)

/-- The text of an integer is its index, if it has no sign. -/
theorem index?_toString {n : Int} (h : Text.isWritable n = true) :
    (text (toString n)).index? = .ok (if 0 ≤ n then some n else none) := by
  have hne : (toString n == "") = false := by
    rw [beq_eq_false_iff_ne]
    exact fun he => Text.toString_ne_nil n (congrArg String.toList he)
  simp only [index?, all_isDigit_toString, hne, read_toString h]
  by_cases hn : 0 ≤ n <;> simp [hn]

/-- No other text is read as an index. -/
theorem eq_toString_of_index? {s : String} {n : Int} (h : (text s).index? = .ok (some n)) :
    s = toString n := by
  simp only [index?] at h
  split at h
  · cases h
  · split at h
    · simp only [Except.ok.injEq, Option.ite_none_right_eq_some, beq_iff_eq, Option.some.injEq] at h
      obtain ⟨hs, rfl⟩ := h
      exact hs.symm
    · cases h

theorem index?_eq_some_iff {n : Int} (h : Text.isWritable n = true) (s : String) :
    (text s).index? = .ok (some n) ↔ 0 ≤ n ∧ s = toString n := by
  constructor
  · intro hs
    cases eq_toString_of_index? hs
    rw [index?_toString h] at hs
    split at hs
    · exact ⟨‹_›, rfl⟩
    · cases hs
  · rintro ⟨hn, rfl⟩
    rw [index?_toString h, if_pos hn]

/-! ## Entries -/

/-- Is it a list, a text or a table that does not have both spellings of an index? -/
def hasSlot (i : Int) : Value → Bool
  | list .. | text _ => true
  | map _ entries =>
    !(Dict.contains entries (.int i) && Dict.contains entries (.text (toString i)))
  | _ => false

/-- Is it a table with an entry under this integer, which is below zero? -/
def hidesBelowZero (i : Int) : Value → Bool
  | map _ entries => decide (i < 0) && Dict.contains entries (.int i)
  | _ => false

theorem lookup_singleton (container key : Value) : container.lookup [key] = container.part key := by
  unfold lookup
  rw [List.foldlM_cons]
  cases container.part key <;> rfl

/-- What a table has under a key, or under its other spelling. -/
theorem part_map (identity : Nat) (entries : Dict Scalar Value) {key : Scalar}
    (hkey : key ≠ .float .nan) {other : Option Scalar}
    (hother : (scalar key).otherSpelling? = .ok other) :
    (map identity entries).part (scalar key) =
      .ok (((entries.get? key).or (other.bind (under? entries))).getD null) := by
  have hfound : (scalar key).asKey.toOption.bind (under? entries) = entries.get? key := by
    change under? entries key = _
    unfold under?
    split
    · exact absurd rfl hkey
    · rfl
  have hhashable : (scalar key).isHashable = true := rfl
  unfold part
  dsimp only
  rw [if_pos hhashable, hfound, hother]
  cases entries.get? key <;> rfl

/-- The text of an integer finds in a table what has that key, and if the integer is not below zero,
also what has the integer as its key. -/
theorem part_map_text (identity : Nat) (entries : Dict Scalar Value) {i : Int}
    (h : Text.isWritable i = true) :
    (map identity entries).part (text (toString i)) =
      .ok (((entries.get? (.text (toString i))).or
        (if 0 ≤ i then entries.get? (.int i) else none)).getD null) := by
  have hother : (text (toString i)).otherSpelling? =
      .ok (if 0 ≤ i then some (.int i) else none) := by
    unfold otherSpelling?
    rw [index?_toString h]
    split <;> rfl
  rw [part_map identity entries (by simp) hother]
  split <;> rfl

theorem part_map_int (identity : Nat) (entries : Dict Scalar Value) {i : Int}
    (h : Text.isWritable i = true) :
    (map identity entries).part (int i) =
      .ok (((entries.get? (.int i)).or (entries.get? (.text (toString i)))).getD null) := by
  have hother : (int i).otherSpelling? = .ok (some (.text (toString i))) := by
    simp only [otherSpelling?, index?, bind, Except.bind, h, if_true]
    rfl
  exact part_map identity entries (by simp) hother

/-- The text of an integer is not the name of a length. -/
theorem toString_ne_length {i : Int} (h : Text.isWritable i = true) : toString i ≠ "length" := by
  intro he
  have hread := read_toString h
  rw [he] at hread
  have hnone : Text.readInt? "length".toList = none := by decide
  cases hnone.symm.trans hread

theorem part_list (identity : Nat) (items : List Value) {key : Value} {index : Option Int}
    (hlength : key ≠ text "length") (hindex : key.index? = .ok index) :
    (list identity items).part key = .ok ((index.bind (item? items)).getD null) := by
  dsimp only [part]
  split
  · exact absurd rfl hlength
  · rw [hindex]
    rfl

theorem part_text (s : String) {key : Value} {index : Option Int}
    (hlength : key ≠ text "length") (hindex : key.index? = .ok index) :
    (text s).part key = .ok (((index.bind (item? s.toList)).map
      fun c => text (String.singleton c)).getD null) := by
  dsimp only [part]
  split
  · exact absurd rfl hlength
  · rw [hindex]
    rfl

/-- Nothing has an index below zero. -/
theorem bind_item? {α : Type} (items : List α) (i : Int) :
    (if 0 ≤ i then some i else none).bind (item? items) = item? items i := by
  by_cases hi : 0 ≤ i
  · rw [if_pos hi]
    rfl
  · rw [if_neg hi]
    exact (if_neg hi).symm

/-! ## Both names of an entry -/

/-- One of the two entries is missing, and the other is what is found. -/
theorem found_by_text (i : Int) {byInt byText : Option Value}
    (h : (!(byInt.isSome && byText.isSome)) = true) :
    (byText.or (if 0 ≤ i then byInt else none)).getD null =
      if decide (i < 0) && byInt.isSome then null else (byInt.or byText).getD null := by
  cases byInt with
  | none => simp
  | some v =>
    cases byText with
    | some u => cases h
    | none =>
      by_cases hi : 0 ≤ i
      · rw [if_pos hi, decide_eq_false (Int.not_lt.mpr hi)]
        rfl
      · rw [if_neg hi, decide_eq_true (Int.not_le.mp hi)]
        rfl

/-- An integer and its text find the same in every container, unless the text has a sign that hides
an entry. -/
theorem an_integer_and_its_text_name_one_entry_unless_a_sign_hides_it {i : Int}
    (h : Text.isWritable i = true) {container : Value} (hc : container.hasSlot i = true) :
    (∃ v, container.lookup [int i] = .ok v ∧
      container.lookup [text (toString i)] =
        .ok (if container.hidesBelowZero i then null else v)) ∧
    ∀ s, (text s).index? = .ok (some i) ↔ 0 ≤ i ∧ s = toString i := by
  refine ⟨?_, index?_eq_some_iff h⟩
  simp only [lookup_singleton]
  have hlength : text (toString i) ≠ text "length" := by simpa using toString_ne_length h
  cases container with
  | list identity items =>
    refine ⟨_, part_list identity items (by simp) rfl, ?_⟩
    rw [part_list identity items hlength (index?_toString h), bind_item?]
    rfl
  | scalar s =>
    cases s with
    | text s =>
      refine ⟨_, part_text s (by simp) rfl, ?_⟩
      rw [part_text s hlength (index?_toString h), bind_item?]
      rfl
    | _ => cases hc
  | map identity entries =>
    refine ⟨_, part_map_int identity entries h, ?_⟩
    rw [part_map_text identity entries h]
    simp only [hasSlot, hidesBelowZero, Dict.contains_eq_isSome] at hc ⊢
    rw [found_by_text i hc]
  | _ => cases hc

/-- A table that has its key as a text is asked with an integer. -/
theorem a_table_of_texts_is_asked_with_an_integer :
    (map 0 [(.text "2", int 7)]).lookup [int 2] = .ok (int 7) ∧
      (map 0 [(.text "2", int 7)]).lookup [text "2"] = .ok (int 7) ∧
      (text "02").index? ≠ .ok (some 2) := by
  have hwritable : Text.isWritable 2 = true := by decide +kernel
  have hslot : (map 0 [(.text "2", int 7)]).hasSlot 2 = true := by decide
  obtain ⟨⟨v, hint, htext⟩, honly⟩ :=
    an_integer_and_its_text_name_one_entry_unless_a_sign_hides_it hwritable hslot
  have hv : (map 0 [(.text "2", int 7)]).lookup [int 2] = .ok (int 7) := by
    rw [lookup_singleton, part_map_int 0 _ hwritable]
    rfl
  cases hint.symm.trans hv
  exact ⟨hint, htext, fun h => absurd ((honly "02").mp h).2 (by decide)⟩

/-- The integer minus one is the key of an entry that its text does not find. -/
theorem the_text_of_minus_one_finds_nothing :
    Text.isWritable (-1) = true ∧ (map 0 [(.int (-1), text "x")]).hasSlot (-1) = true ∧
      (map 0 [(.int (-1), text "x")]).lookup [int (-1)] = .ok (text "x") ∧
      (map 0 [(.int (-1), text "x")]).lookup [text (toString (-1 : Int))] = .ok null :=
  ⟨by decide +kernel, by decide, by rfl, by rfl⟩

end Switchboard.Value
