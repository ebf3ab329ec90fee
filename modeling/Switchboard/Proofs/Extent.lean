-- How far the reading of a text goes. What is read is no larger than the characters that it is read
-- from, and something is always taken. So the bound on the nesting is never in the way: with any
-- other bound that is large enough the same comes out.
import Mathlib.Data.List.TakeDrop
import Switchboard.Datum.Reading
import Switchboard.Proofs.Conduct
namespace Switchboard.Datum

/-! ## Sizes -/

theorem size_pos (d : Datum) : 0 < d.size := by
  unfold size
  split <;> omega

theorem size_le_of_mem {items : List Datum} {d : Datum} (h : d ∈ items) :
    d.size ≤ sizeOfItems items := by
  induction items with
  | nil => cases h
  | cons e rest ih =>
    simp only [sizeOfItems]
    rcases List.mem_cons.mp h with rfl | h
    · omega
    · have hle := ih h
      omega

theorem size_le_of_mem_entries {entries : List (String × Datum)} {e : String × Datum}
    (h : e ∈ entries) : e.1.length + e.2.size ≤ sizeOfEntries entries := by
  induction entries with
  | nil => cases h
  | cons e' rest ih =>
    simp only [sizeOfEntries]
    rcases List.mem_cons.mp h with rfl | h
    · omega
    · have hle := ih h
      omega

theorem sizeOfEntries_put (entries : Dict String Datum) (k : String) (d : Datum) :
    sizeOfEntries (entries.put k d) ≤ sizeOfEntries entries + k.length + d.size := by
  induction entries with
  | nil =>
    simp only [Dict.put, sizeOfEntries]
    omega
  | cons e rest ih =>
    simp only [Dict.put]
    split
    · rename_i hk
      rw [eq_of_beq hk]
      simp only [sizeOfEntries]
      omega
    · simp only [sizeOfEntries]
      omega

theorem sizeOfEntries_merge (table : Dict String Datum) (entries : List (String × Datum)) :
    sizeOfEntries (table.merge entries) ≤ sizeOfEntries table + sizeOfEntries entries := by
  induction entries generalizing table with
  | nil => simp [Dict.merge, sizeOfEntries]
  | cons e rest ih =>
    have hput := sizeOfEntries_put table e.1 e.2
    have hrest := ih (table.put e.1 e.2)
    simp only [Dict.merge, List.foldl_cons, sizeOfEntries] at hrest ⊢
    omega

/-! ## Parts of a text -/

theorem skipBlanks_length (cs : List Char) : (skipBlanks cs).length ≤ cs.length :=
  (List.dropWhile_sublist _).length_le

theorem joined_length (units : List Nat) : (joined units).length ≤ units.length := by
  fun_induction joined units with
  | case1 high low rest h ih =>
    simp only [List.length_cons]
    omega
  | case2 high low rest h ih =>
    simp only [List.length_cons] at ih ⊢
    omega
  | case3 unit => simp
  | case4 => simp

theorem readUnits_length {cs rest : List Char} {units : List Nat}
    (h : readUnits cs = .ok (units, rest)) : units.length + rest.length + 1 ≤ cs.length := by
  fun_induction readUnits cs generalizing units rest with
  | case1 => cases h
  | case2 after =>
    cases h
    simp
  | case3 => cases h
  | case4 a b c d after unit hu ih =>
    obtain ⟨⟨more, left⟩, hr, h⟩ := ok_of_bind_ok h
    cases h
    have hle := ih hr
    simp only [List.length_cons] at hle ⊢
    omega
  | case5 => cases h
  | case6 c after _ plain hp ih =>
    obtain ⟨⟨more, left⟩, hr, h⟩ := ok_of_bind_ok h
    cases h
    have hle := ih hr
    simp only [List.length_cons] at hle ⊢
    omega
  | case7 => cases h
  | case8 c after _ _ _ hc ih =>
    obtain ⟨⟨more, left⟩, hr, h⟩ := ok_of_bind_ok h
    cases h
    have hle := ih hr
    simp only [List.length_cons] at hle ⊢
    omega

theorem readText_length {cs rest : List Char} {s : String} (h : readText cs = .ok (s, rest)) :
    s.length + rest.length + 1 ≤ cs.length := by
  obtain ⟨⟨units, left⟩, hr, h⟩ := ok_of_bind_ok h
  cases h
  have hle := readUnits_length hr
  have hjoined := joined_length units
  rw [String.length_ofList]
  omega

/-! ## Numbers and words -/

theorem span_length (p : Char → Bool) (cs : List Char) :
    (cs.span p).1.length + (cs.span p).2.length = cs.length := by
  rw [List.span_eq_takeWhile_dropWhile, ← List.length_append, List.takeWhile_append_dropWhile]

theorem wholePart_length (cs : List Char) :
    (wholePart cs).1.length + (wholePart cs).2.length = cs.length := by
  unfold wholePart
  split
  · simp only [List.length_cons, List.length_nil]
    omega
  · exact span_length _ _

theorem fractionPart_length (cs : List Char) : (fractionPart cs).2.length ≤ cs.length := by
  unfold fractionPart
  split
  · rename_i rest
    have hspan := span_length isAsciiDigit rest
    split
    · simp
    · rename_i hs
      simp only [hs] at hspan
      simp only [List.length_cons]
      omega
  · simp

theorem exponentPart_length (cs : List Char) : (exponentPart cs).2.length ≤ cs.length := by
  unfold exponentPart
  split
  · rename_i mark rest
    split
    · split
      rename_i signs body hsigns
      have hbody : body.length ≤ rest.length := by
        split at hsigns <;> cases hsigns <;> simp
      have hspan := span_length isAsciiDigit body
      split
      · simp
      · rename_i hs
        simp only [hs] at hspan
        simp only [List.length_cons]
        omega
    · simp
  · simp

theorem readNumber_size {minus cs rest : List Char} {d : Datum}
    (h : readNumber minus cs = .ok (d, rest)) : d.size + rest.length ≤ cs.length := by
  have hwhole := wholePart_length cs
  unfold readNumber at h
  split at h
  · cases h
  · rename_i whole after hne hw
    have hpos : 0 < whole.length := by
      cases whole with
      | nil => exact absurd rfl hne
      | cons c more => simp
    have hfraction := fractionPart_length after
    have hpower := exponentPart_length (fractionPart after).2
    rw [hw] at hwhole
    dsimp only at h hwhole
    split at h <;> split at h <;> cases h <;> simp only [size] <;> omega

theorem words_size : ∀ w ∈ words, w.2.size ≤ w.1.length := by decide

theorem readWord_size {cs rest : List Char} {d : Datum} (h : readWord? cs = some (d, rest)) :
    d.size + rest.length ≤ cs.length := by
  obtain ⟨w, hw, hf⟩ := List.exists_of_findSome?_eq_some h
  obtain ⟨left, ha, hd⟩ := Option.map_eq_some_iff.mp hf
  cases hd
  have hsize := words_size w hw
  unfold after? at ha
  split at ha
  · rename_i hp
    cases ha
    have hle := (List.isPrefixOf_iff_prefix.mp hp).length_le
    rw [List.length_drop, ← String.length_toList]
    rw [← String.length_toList] at hsize
    omega
  · cases ha

/-! ## Everything -/

/-- Is what is read, to a given bound, no larger than the characters that it takes? A list and a
table are one character larger than their parts, and so is what they are read from. -/
structure Fits (n : Nat) : Prop where
  datum : ∀ cs d rest, readDatum n cs = .ok (d, rest) → d.size + rest.length ≤ cs.length
  items : ∀ cs items rest, readItems n cs = .ok (items, rest) →
    sizeOfItems items + rest.length + 1 ≤ cs.length
  entries : ∀ cs entries rest, readEntries n cs = .ok (entries, rest) →
    sizeOfEntries entries + rest.length + 1 ≤ cs.length

namespace Fits

variable {n : Nat} {cs rest : List Char}

theorem datum_succ (hn : Fits n) {d : Datum} (h : readDatum (n + 1) cs = .ok (d, rest)) :
    d.size + rest.length ≤ cs.length := by
  unfold readDatum at h
  split at h
  · cases ‹n + 1 = 0›
  · obtain ⟨⟨s, left⟩, hr, h⟩ := ok_of_bind_ok h
    cases h
    have hle := readText_length hr
    simp only [size, List.length_cons]
    omega
  · rename_i after hk
    cases hk
    have hskip := skipBlanks_length after
    split at h
    · rename_i hc
      cases h
      rw [hc] at hskip
      simp only [size, sizeOfItems, List.length_cons] at hskip ⊢
      omega
    · obtain ⟨⟨items, left⟩, hr, h⟩ := ok_of_bind_ok h
      cases h
      have hle := hn.items _ _ _ hr
      simp only [size, List.length_cons]
      omega
  · rename_i after hk
    cases hk
    have hskip := skipBlanks_length after
    split at h
    · rename_i hc
      cases h
      rw [hc] at hskip
      simp only [size, sizeOfEntries, List.length_cons] at hskip ⊢
      omega
    · obtain ⟨⟨entries, left⟩, hr, h⟩ := ok_of_bind_ok h
      cases h
      have hle := hn.entries _ _ _ hr
      have hmerge := sizeOfEntries_merge [] entries
      simp only [size, sizeOfEntries, Dict.ofList, List.length_cons] at hmerge ⊢
      omega
  · split at h
    · rename_i hw
      cases h
      exact readWord_size hw
    · split at h
      · have hle := readNumber_size h
        simp only [List.length_cons]
        omega
      · exact readNumber_size h

theorem items_succ (hn : Fits n) {items : List Datum}
    (h : readItems (n + 1) cs = .ok (items, rest)) :
    sizeOfItems items + rest.length + 1 ≤ cs.length := by
  unfold readItems at h
  obtain ⟨⟨d, left⟩, hr, h⟩ := ok_of_bind_ok h
  have hle := hn.datum _ _ _ hr
  have hskip := skipBlanks_length left
  dsimp only at h
  split at h
  · rename_i after hc
    obtain ⟨⟨more, left'⟩, hm, h⟩ := ok_of_bind_ok h
    cases h
    have hmore := hn.items _ _ _ hm
    have hafter := skipBlanks_length after
    simp only [hc, sizeOfItems, List.length_cons] at hskip ⊢
    omega
  · rename_i hc
    cases h
    simp only [hc, sizeOfItems, List.length_cons] at hskip ⊢
    omega
  · cases h

theorem entries_succ (hn : Fits n) {entries : List (String × Datum)}
    (h : readEntries (n + 1) cs = .ok (entries, rest)) :
    sizeOfEntries entries + rest.length + 1 ≤ cs.length := by
  unfold readEntries at h
  split at h
  · cases ‹n + 1 = 0›
  · rename_i after hk
    cases hk
    obtain ⟨⟨key, left⟩, hr, h⟩ := ok_of_bind_ok h
    have hkey := readText_length hr
    have hskip := skipBlanks_length left
    dsimp only at h
    split at h
    · rename_i after hc
      obtain ⟨⟨d, left'⟩, hd, h⟩ := ok_of_bind_ok h
      have hle := hn.datum _ _ _ hd
      have hafter := skipBlanks_length after
      have hskip' := skipBlanks_length left'
      rw [hc] at hskip
      dsimp only at h
      split at h
      · rename_i after' hc'
        obtain ⟨⟨more, left''⟩, hm, h⟩ := ok_of_bind_ok h
        cases h
        have hmore := hn.entries _ _ _ hm
        have hafter' := skipBlanks_length after'
        simp only [hc', sizeOfEntries, List.length_cons] at hskip hskip' ⊢
        omega
      · rename_i hc'
        cases h
        simp only [hc', sizeOfEntries, List.length_cons] at hskip hskip' ⊢
        omega
      · cases h
    · cases h
  · cases h

end Fits

theorem fits (n : Nat) : Fits n := by
  induction n with
  | zero => exact ⟨nofun, nofun, nofun⟩
  | succ n ih =>
    exact ⟨fun _ _ _ h => ih.datum_succ h, fun _ _ _ h => ih.items_succ h,
      fun _ _ _ h => ih.entries_succ h⟩

/-! ## The bound -/

/-- Is a bound large enough for texts of a certain length, so that no larger one gives anything
else? Each bracket uses up two of it. -/
structure Ample (n : Nat) : Prop where
  datum : ∀ cs m, 2 * cs.length < n → n ≤ m → readDatum m cs = readDatum n cs
  items : ∀ cs m, 2 * cs.length + 1 < n → n ≤ m → readItems m cs = readItems n cs
  entries : ∀ cs m, 2 * cs.length + 1 < n → n ≤ m → readEntries m cs = readEntries n cs

namespace Ample

variable {n m : Nat} {cs : List Char}

theorem datum_succ (hn : Ample n) (hcs : 2 * cs.length < n + 1) (hm : n ≤ m) :
    readDatum (m + 1) cs = readDatum (n + 1) cs := by
  unfold readDatum
  split
  · cases ‹m + 1 = 0›
  · rfl
  · rename_i rest hk
    cases hk
    have hskip := skipBlanks_length rest
    rw [List.length_cons] at hcs
    dsimp only
    split
    · rfl
    · rw [hn.items _ m (by omega) hm]
  · rename_i rest hk
    cases hk
    have hskip := skipBlanks_length rest
    rw [List.length_cons] at hcs
    dsimp only
    split
    · rfl
    · rw [hn.entries _ m (by omega) hm]
  · rfl

theorem items_succ (hn : Ample n) (hcs : 2 * cs.length + 1 < n + 1) (hm : n ≤ m) :
    readItems (m + 1) cs = readItems (n + 1) cs := by
  simp only [readItems]
  rw [hn.datum cs m (by omega) hm]
  cases hr : readDatum n cs with
  | error f => rfl
  | ok r =>
    obtain ⟨d, rest⟩ := r
    have hfit := (fits n).datum _ _ _ hr
    have hskip := skipBlanks_length rest
    dsimp only [bind, Except.bind]
    split
    · rename_i after hc
      have hafter := skipBlanks_length after
      rw [hc, List.length_cons] at hskip
      rw [hn.items _ m (by omega) hm]
    · rfl
    · rfl

theorem entries_succ (hn : Ample n) (hcs : 2 * cs.length + 1 < n + 1) (hm : n ≤ m) :
    readEntries (m + 1) cs = readEntries (n + 1) cs := by
  unfold readEntries
  split
  · cases ‹m + 1 = 0›
  · rename_i rest hk
    cases hk
    dsimp only
    cases hr : readText rest with
    | error f => rfl
    | ok r =>
      obtain ⟨key, left⟩ := r
      have hfit := readText_length hr
      have hskip := skipBlanks_length left
      rw [List.length_cons] at hcs
      dsimp only [bind, Except.bind]
      split
      · rename_i after hc
        have hafter := skipBlanks_length after
        rw [hc, List.length_cons] at hskip
        rw [hn.datum _ m (by omega) hm]
        cases hd : readDatum n (skipBlanks after) with
        | error f => rfl
        | ok r =>
          obtain ⟨d, left'⟩ := r
          have hfit' := (fits n).datum _ _ _ hd
          have hskip' := skipBlanks_length left'
          dsimp only
          split
          · rename_i after' hc'
            have hafter' := skipBlanks_length after'
            rw [hc', List.length_cons] at hskip'
            rw [hn.entries _ m (by omega) hm]
          · rfl
          · rfl
      · rfl
  · rfl

end Ample

theorem ample (n : Nat) : Ample n := by
  induction n with
  | zero => exact ⟨by simp, by simp, by simp⟩
  | succ n ih =>
    refine ⟨fun cs m hcs hm => ?_, fun cs m hcs hm => ?_, fun cs m hcs hm => ?_⟩ <;>
      obtain ⟨m, rfl⟩ := Nat.exists_eq_add_of_le' (Nat.le_trans (Nat.le_add_left 1 n) hm)
    · exact ih.datum_succ hcs (by omega)
    · exact ih.items_succ hcs (by omega)
    · exact ih.entries_succ hcs (by omega)

/-- The bound is never in the way of reading a text. -/
theorem readDatum_of_bound {n m : Nat} {cs : List Char} (hn : 2 * cs.length < n)
    (hm : 2 * cs.length < m) : readDatum n cs = readDatum m cs := by
  have hmin : 2 * cs.length < min n m := by omega
  rw [(ample _).datum cs n hmin (Nat.min_le_left n m),
    (ample _).datum cs m hmin (Nat.min_le_right n m)]

/-- A text gives data that are smaller than itself. -/
theorem ofText_size {s : String} {d : Datum} (h : ofText s = .ok d) : d.size ≤ s.length := by
  unfold ofText at h
  obtain ⟨⟨d', rest⟩, hr, h⟩ := ok_of_bind_ok h
  have hle := (fits _).datum _ _ _ hr
  have hskip := skipBlanks_length s.toList
  rw [String.length_toList] at hskip
  dsimp only at h
  split at h
  · cases h
    omega
  · cases h

end Switchboard.Datum
