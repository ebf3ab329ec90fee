-- Tables and what many writes do to them. A table remembers the last value written under a key, at
-- the place where the key first came; one that writes only what is new remembers the first value.
import Switchboard.Dict
namespace Switchboard

variable {κ ν : Type} [BEq κ]

/-! ## Keys at their first places -/

/-- Add a key at the end, unless it is there. -/
def addKey (seen : List κ) (key : κ) : List κ := if seen.contains key then seen else seen ++ [key]

theorem distinct_eq (keys : List κ) : distinct keys = keys.foldl addKey [] := rfl

/-- A key that was added is there, and so is all that was there before. -/
theorem contains_addKey [EquivBEq κ] (seen : List κ) (key k : κ) :
    (addKey seen key).contains k = (seen.contains k || key == k) := by
  unfold addKey
  split
  · rename_i h
    cases hk : key == k with
    | true => rw [← List.contains_congr hk, h, Bool.or_true]
    | false => rw [Bool.or_false]
  · simp [BEq.comm]

theorem contains_foldl_addKey [EquivBEq κ] (keys seen : List κ) (k : κ) :
    (keys.foldl addKey seen).contains k = (seen.contains k || keys.contains k) := by
  induction keys generalizing seen with
  | nil => simp
  | cons key rest ih =>
    rw [List.foldl_cons, ih, contains_addKey, List.contains_cons, BEq.comm (a := k), Bool.or_assoc]

theorem contains_distinct [EquivBEq κ] (keys : List κ) (k : κ) :
    (distinct keys).contains k = keys.contains k := by
  rw [distinct_eq, contains_foldl_addKey]
  rfl

/-- Is no member of a list equal to a later one? -/
def NoneTwice (keys : List κ) : Prop := keys.Pairwise fun a b => (a == b) = false

theorem noneTwice_addKey [EquivBEq κ] {seen : List κ} (h : NoneTwice seen) (key : κ) :
    NoneTwice (addKey seen key) := by
  unfold addKey
  split
  · exact h
  · rename_i hnew
    refine List.pairwise_append.mpr ⟨h, List.pairwise_singleton _ _, fun a ha b hb => ?_⟩
    cases List.mem_singleton.mp hb
    rw [Bool.eq_false_iff]
    exact fun he => hnew (List.contains_iff_exists_mem_beq.mpr ⟨a, ha, BEq.symm he⟩)

namespace Dict

variable [EquivBEq κ]

/-! ## Reading -/

/-- Equal keys read the same. -/
theorem get?_congr (d : Dict κ ν) {a b : κ} (h : a == b) : d.get? a = d.get? b := by
  induction d with
  | nil => rfl
  | cons e rest ih =>
    have he : (e.1 == a) = (e.1 == b) := BEq.congr_right h
    simp only [get?, he, ih]

theorem get?_eq_none_iff (d : Dict κ ν) (k : κ) : d.get? k = none ↔ d.keys.contains k = false := by
  induction d with
  | nil => simp [get?, keys]
  | cons e rest ih =>
    simp only [get?, keys, List.map_cons, List.contains_cons, BEq.comm (a := k)] at ih ⊢
    by_cases h : e.1 == k
    · simp [h]
    · simpa [h] using ih

/-- An entry is found under its key, if no key stands twice. -/
theorem get?_of_mem {d : Dict κ ν} (h : NoneTwice d.keys) {e : κ × ν} (he : e ∈ d) :
    d.get? e.1 = some e.2 := by
  induction d with
  | nil => cases he
  | cons x rest ih =>
    obtain ⟨hx, hrest⟩ := List.pairwise_cons.mp h
    rcases List.mem_cons.mp he with rfl | he
    · exact if_pos BEq.rfl
    · have hne : (x.1 == e.1) = false := hx e.1 (List.mem_map_of_mem he)
      simpa [get?, hne] using ih hrest he

omit [EquivBEq κ] in
/-- What is found is one of the values. -/
theorem mem_values_of_get? {d : Dict κ ν} {k : κ} {v : ν} (h : d.get? k = some v) :
    v ∈ d.values := by
  induction d with
  | nil => cases h
  | cons e rest ih =>
    simp only [get?] at h
    split at h
    · cases h
      exact List.mem_cons_self
    · exact List.mem_cons_of_mem _ (ih h)

omit [EquivBEq κ] in
theorem get?_append (d e : Dict κ ν) (k : κ) :
    Dict.get? (d ++ e) k = (d.get? k).or (e.get? k) := by
  induction d with
  | nil => rfl
  | cons x rest ih =>
    simp only [List.cons_append, get?]
    split
    · rfl
    · exact ih

theorem contains_eq (d : Dict κ ν) (key : κ) : d.contains key = d.keys.contains key := by
  unfold contains keys
  rw [List.contains_eq_any_beq, List.any_map]
  simp only [Function.comp_def, BEq.comm (a := key)]

omit [EquivBEq κ] in
theorem contains_eq_isSome (d : Dict κ ν) (key : κ) : d.contains key = (d.get? key).isSome := by
  induction d with
  | nil => rfl
  | cons e rest ih =>
    unfold contains at ih ⊢
    rw [List.any_cons, ih, get?]
    cases e.1 == key <;> rfl

theorem get?_putNew (d : Dict κ ν) (key k : κ) (value : ν) :
    (d.putNew key value).get? k = (d.get? k).or (if key == k then some value else none) := by
  unfold putNew
  split
  · rename_i h
    split
    · rename_i hk
      rw [contains_eq] at h
      have hs : d.get? k ≠ none := by
        rw [← get?_congr d hk, Ne, get?_eq_none_iff, h]
        decide
      obtain ⟨v, hv⟩ := Option.ne_none_iff_exists'.mp hs
      rw [hv]
      rfl
    · rw [Option.or_none]
  · exact get?_append d [(key, value)] k

/-! ## Many writes -/

/-- Of values that are written one after the other the last counts. -/
theorem get?_merge (d : Dict κ ν) (entries : List (κ × ν)) (k : κ) :
    (d.merge entries).get? k = ((ofList entries).get? k).or (d.get? k) := by
  induction entries generalizing d with
  | nil => rfl
  | cons e rest ih =>
    have hd : (d.merge (e :: rest)).get? k = ((d.put e.1 e.2).merge rest).get? k := rfl
    have hn : (ofList (e :: rest)).get? k = (merge (put [] e.1 e.2) rest).get? k := rfl
    rw [hd, hn, ih, ih (put [] e.1 e.2), Option.or_assoc, get?_put, get?_put]
    congr 1
    split <;> rfl

/-- Writing the entries of a table anew gives the same table, if no key stands twice. -/
theorem get?_ofList {d : Dict κ ν} (h : NoneTwice d.keys) (k : κ) :
    (ofList d).get? k = d.get? k := by
  induction d with
  | nil => rfl
  | cons e rest ih =>
    obtain ⟨he, hrest⟩ := List.pairwise_cons.mp h
    have hwrite : (ofList (e :: rest)).get? k = (merge [e] rest).get? k := rfl
    rw [hwrite, get?_merge, ih hrest]
    by_cases hk : (e.1 == k) = true
    · have hnone : get? rest k = none := by
        rw [get?_eq_none_iff, Bool.eq_false_iff]
        intro hin
        obtain ⟨key, hkey, hsame⟩ := List.contains_iff_exists_mem_beq.mp hin
        have hne := he key hkey
        rw [BEq.congr_left hk, hsame] at hne
        cases hne
      simp [get?, hk, hnone]
    · simp [get?, hk]

/-- A write under one key does not show under another, whatever the order of the entries. -/
theorem get?_merge_put (d s : Dict κ ν) {key k : κ} (value : ν) (h : (key == k) = false) :
    (d.merge (s.put key value)).get? k = (d.merge s).get? k := by
  induction s generalizing d with
  | nil =>
    change (d.put key value).get? k = d.get? k
    rw [get?_put, h]
    rfl
  | cons e rest ih =>
    by_cases he : e.1 == key
    · have hk : (e.1 == k) = false := by rw [BEq.congr_left he, h]
      have hput : put (e :: rest) key value = (e.1, value) :: rest := by simp [put, he]
      have hv : d.merge ((e.1, value) :: rest) = (d.put e.1 value).merge rest := rfl
      have hd : d.merge (e :: rest) = (d.put e.1 e.2).merge rest := rfl
      rw [hput, hv, hd, get?_merge, get?_merge (d.put e.1 e.2), get?_put, get?_put, hk]
      rfl
    · have hput : put (e :: rest) key value = e :: put rest key value := by simp [put, he]
      rw [hput]
      exact ih (d.put e.1 e.2)

/-- Of values that are written only under new keys the first counts, as in a list of entries. -/
theorem get?_foldl_putNew (d entries : Dict κ ν) (k : κ) :
    (entries.foldl (fun d e => d.putNew e.1 e.2) d).get? k = (d.get? k).or (entries.get? k) := by
  induction entries generalizing d with
  | nil => exact (Option.or_none).symm
  | cons e rest ih =>
    rw [List.foldl_cons, ih, get?_putNew, Option.or_assoc]
    congr 1
    simp only [get?]
    split <;> rfl

theorem keys_put (d : Dict κ ν) (key : κ) (value : ν) :
    (d.put key value).keys = addKey d.keys key := by
  unfold addKey
  rw [← contains_eq]
  split
  · rename_i h
    exact keys_put_of_contains d key value h
  · rename_i h
    exact keys_put_of_not_contains d key value (Bool.eq_false_iff.mpr h)

theorem noneTwice_put {d : Dict κ ν} (h : NoneTwice d.keys) (key : κ) (value : ν) :
    NoneTwice (d.put key value).keys := by
  rw [keys_put]
  exact noneTwice_addKey h key

omit [EquivBEq κ] in
/-- A new key goes to the end. -/
theorem put_of_not_contains (d : Dict κ ν) (key : κ) (value : ν) (h : d.contains key = false) :
    d.put key value = d ++ [(key, value)] := by
  induction d with
  | nil => rfl
  | cons e rest ih =>
    simp only [contains, List.any_cons, Bool.or_eq_false_iff] at h
    rw [put, h.1, ih h.2]
    rfl

/-- Of two writes under one key the second counts. -/
theorem put_put (d : Dict κ ν) {key other : κ} (v u : ν) (h : (key == other) = true) :
    (d.put key v).put other u = d.put key u := by
  induction d with
  | nil => simp [put, h]
  | cons e rest ih =>
    have he : (e.1 == other) = (e.1 == key) := (BEq.congr_right h).symm
    cases hk : e.1 == key with
    | true => simp [put, hk, he]
    | false => simpa [put, hk, he] using ih

/-- Writes under different keys can change places if one of the keys has its place already. -/
theorem put_comm {d : Dict κ ν} {key other : κ} (value u : ν) (hd : d.contains key = true)
    (hk : (key == other) = false) :
    (d.put key value).put other u = (d.put other u).put key value := by
  induction d with
  | nil => cases hd
  | cons e rest ih =>
    cases he : e.1 == key with
    | true =>
      have ho : (e.1 == other) = false := by rw [BEq.congr_left he, hk]
      simp [put, he, ho]
    | false =>
      have hrest : contains rest key = true := by simpa [contains, he] using hd
      cases ho : e.1 == other with
      | true => simp [put, he, ho]
      | false => simp [put, he, ho, ih hrest]

theorem contains_put (d : Dict κ ν) (key k : κ) (value : ν) :
    (d.put key value).contains k = (d.contains k || key == k) := by
  rw [contains_eq, contains_eq, keys_put, contains_addKey]

/-- A write under a key that has its place can be made before writes under other keys. -/
theorem merge_put_comm {d s : Dict κ ν} {key : κ} (value : ν) (hd : d.contains key = true)
    (hs : s.contains key = false) : (d.merge s).put key value = (d.put key value).merge s := by
  induction s generalizing d with
  | nil => rfl
  | cons e rest ih =>
    simp only [contains, List.any_cons, Bool.or_eq_false_iff] at hs
    have he : (key == e.1) = false := by rw [BEq.comm, hs.1]
    have hput : (d.put e.1 e.2).contains key = true := by rw [contains_put, hd, Bool.true_or]
    have hmerge : ∀ d' : Dict κ ν, d'.merge (e :: rest) = (d'.put e.1 e.2).merge rest := fun _ => rfl
    rw [hmerge, hmerge, ih hput hs.2, put_comm value e.2 hd he]

omit [EquivBEq κ] in
theorem put_ne_nil (d : Dict κ ν) (key : κ) (value : ν) : d.put key value ≠ [] := by
  cases d with
  | nil => exact List.cons_ne_nil _ _
  | cons x rest =>
    unfold put
    split <;> exact List.cons_ne_nil _ _

omit [EquivBEq κ] in
/-- Nothing that is written makes a table empty. -/
theorem merge_ne_nil {d : Dict κ ν} (h : d ≠ []) (entries : List (κ × ν)) :
    d.merge entries ≠ [] := by
  induction entries generalizing d with
  | nil => exact h
  | cons e rest ih => exact ih (put_ne_nil d e.1 e.2)

/-- Writing all entries of a table and then one more is writing those of the table with that one. -/
theorem merge_put {d s : Dict κ ν} (hs : NoneTwice s.keys) (key : κ) (value : ν) :
    d.merge (s.put key value) = (d.merge s).put key value := by
  induction s generalizing d with
  | nil => rfl
  | cons e rest ih =>
    obtain ⟨he, hrest⟩ := List.pairwise_cons.mp hs
    have hmerge : ∀ (d' : Dict κ ν) (x : κ × ν) (l : Dict κ ν),
        d'.merge (x :: l) = (d'.put x.1 x.2).merge l := fun _ _ _ => rfl
    cases hk : e.1 == key with
    | false =>
      have hput : put (e :: rest) key value = e :: put rest key value := by simp [put, hk]
      rw [hput, hmerge, hmerge, ih hrest]
    | true =>
      have hput : put (e :: rest) key value = (e.1, value) :: rest := by simp [put, hk]
      have hnone : contains rest key = false := by
        rw [contains, List.any_eq_false]
        intro x hx hxk
        have hxe := he x.1 (List.mem_map_of_mem hx)
        rw [BEq.congr_left hk, BEq.comm, hxk] at hxe
        cases hxe
      have hplace : (d.put e.1 e.2).contains key = true := by
        rw [contains_put, hk, Bool.or_true]
      rw [hput, hmerge, hmerge, merge_put_comm value hplace hnone, put_put d e.2 value hk]

/-- What is written to a table is one of its entries, and the others are as they were. -/
theorem mem_put {d : Dict κ ν} {key : κ} {value : ν} {e : κ × ν} (h : e ∈ d.put key value) :
    e ∈ d ∨ ((key == e.1) = true ∧ value = e.2) := by
  induction d with
  | nil =>
    cases List.mem_singleton.mp h
    exact .inr ⟨BEq.rfl, rfl⟩
  | cons x rest ih =>
    unfold Dict.put at h
    split at h
    · rename_i hx
      rcases List.mem_cons.mp h with rfl | h
      · exact .inr ⟨BEq.symm hx, rfl⟩
      · exact .inl (List.mem_cons_of_mem x h)
    · rcases List.mem_cons.mp h with rfl | h
      · exact .inl List.mem_cons_self
      · exact (ih h).imp_left (List.mem_cons_of_mem x)

theorem mem_putNew {d : Dict κ ν} {key : κ} {value : ν} {e : κ × ν}
    (h : e ∈ d.putNew key value) : e ∈ d ∨ ((key == e.1) = true ∧ value = e.2) := by
  unfold Dict.putNew at h
  split at h
  · exact .inl h
  · rcases List.mem_append.mp h with h | h
    · exact .inl h
    · cases List.mem_singleton.mp h
      exact .inr ⟨BEq.rfl, rfl⟩

theorem keys_putNew (d : Dict κ ν) (key : κ) (value : ν) :
    (d.putNew key value).keys = addKey d.keys key := by
  unfold addKey putNew
  rw [← contains_eq]
  split
  · rfl
  · exact List.map_append

theorem keys_merge (d : Dict κ ν) (entries : List (κ × ν)) :
    (d.merge entries).keys = (keys entries).foldl addKey d.keys := by
  induction entries generalizing d with
  | nil => rfl
  | cons e rest ih => exact (ih _).trans (by rw [keys_put]; rfl)

theorem keys_foldl_putNew (d : Dict κ ν) (entries : List (κ × ν)) :
    (entries.foldl (fun d e => d.putNew e.1 e.2) d).keys = (keys entries).foldl addKey d.keys := by
  induction entries generalizing d with
  | nil => rfl
  | cons e rest ih => exact (ih _).trans (by rw [keys_putNew]; rfl)

/-- Noting all entries of a table and then one more is noting those of the table with that one. -/
theorem foldl_putNew_putNew (d s : Dict κ ν) (key : κ) (value : ν) :
    (s.putNew key value).foldl (fun d e => d.putNew e.1 e.2) d =
      (s.foldl (fun d e => d.putNew e.1 e.2) d).putNew key value := by
  cases hs : s.contains key with
  | true =>
    have hd : Dict.contains (s.foldl (fun d e => d.putNew e.1 e.2) d) key = true := by
      rw [contains_eq, keys_foldl_putNew, contains_foldl_addKey, ← contains_eq s, hs, Bool.or_true]
    have hput : s.putNew key value = s := by simp [putNew, hs]
    rw [hput]
    exact (if_pos hd).symm
  | false =>
    have hput : s.putNew key value = s ++ [(key, value)] := by simp [putNew, hs]
    rw [hput, List.foldl_append]
    rfl

end Dict
end Switchboard
