-- Tables that keep their entries in the order in which the keys first came. A later write to a
-- key changes its value and leaves its place, and the first spelling of the key, as they were.
namespace Switchboard

/-- A table from keys to values, as the list of its entries. -/
abbrev Dict (κ ν : Type) := List (κ × ν)

namespace Dict

variable {κ ν : Type} [BEq κ]

/-! ## Reading -/

/-- The value under a key. -/
def get? : Dict κ ν → κ → Option ν
  | [], _ => none
  | (k, v) :: rest, key => if k == key then some v else get? rest key

def contains (d : Dict κ ν) (key : κ) : Bool := d.any (·.1 == key)

def keys (d : Dict κ ν) : List κ := d.map (·.1)

def values (d : Dict κ ν) : List ν := d.map (·.2)

/-! ## Writing -/

/-- Write a value. A new key goes to the end, a known key stays where it is. -/
def put : Dict κ ν → κ → ν → Dict κ ν
  | [], key, value => [(key, value)]
  | (k, v) :: rest, key, value =>
    if k == key then (k, value) :: rest else (k, v) :: put rest key value

/-- Write a value only if the key has none yet. -/
def putNew (d : Dict κ ν) (key : κ) (value : ν) : Dict κ ν :=
  if d.contains key then d else d ++ [(key, value)]

/-- Write all entries of a list, first to last. -/
def merge (d : Dict κ ν) (entries : List (κ × ν)) : Dict κ ν :=
  entries.foldl (fun d e => put d e.1 e.2) d

def ofList (entries : List (κ × ν)) : Dict κ ν := merge [] entries

/-! ## What a write changes -/

theorem keys_put_of_contains (d : Dict κ ν) (key : κ) (value : ν) (h : d.contains key) :
    (d.put key value).keys = d.keys := by
  induction d with
  | nil => simp [contains] at h
  | cons e rest ih =>
    by_cases hk : e.1 == key
    · simp [put, hk, keys]
    · have hr : contains rest key := by simpa [contains, hk] using h
      simpa [put, hk, keys] using ih hr

theorem keys_put_of_not_contains (d : Dict κ ν) (key : κ) (value : ν)
    (h : d.contains key = false) : (d.put key value).keys = d.keys ++ [key] := by
  induction d with
  | nil => rfl
  | cons e rest ih =>
    simp only [contains, List.any_cons, Bool.or_eq_false_iff] at h
    simpa [put, h.1, keys] using ih h.2

/-- A key written is read back, and every other key keeps its value. -/
theorem get?_put [EquivBEq κ] (d : Dict κ ν) (key other : κ) (value : ν) :
    (d.put key value).get? other = if key == other then some value else d.get? other := by
  induction d with
  | nil => rfl
  | cons e rest ih =>
    simp only [put, get?]
    by_cases h : e.1 == key
    · simp only [h, if_true, get?, BEq.congr_left h]
      split <;> rfl
    · by_cases h' : e.1 == other
      · have hne : (key == other) = false := by
          rw [Bool.eq_false_iff]
          intro hk
          exact h (BEq.trans h' (BEq.symm hk))
        simp [h, h', get?, hne]
      · simp [h, h', get?, ih]

end Dict

/-- The members of a list at their first places, without the repetitions. -/
def distinct {κ : Type} [BEq κ] (keys : List κ) : List κ :=
  keys.foldl (fun seen k => if seen.contains k then seen else seen ++ [k]) []

end Switchboard
