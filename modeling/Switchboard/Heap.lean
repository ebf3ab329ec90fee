-- Heaps: binary trees, filled level by level from the left, whose top stands before everything
-- else. An entry that is added rises from the last place. When the top is taken, the gap sinks to
-- the bottom, and the entry of the last place fills it and rises. Entries need not all be
-- comparable: one that does not stand before the entry above it stays below.
namespace Switchboard

inductive Heap (α : Type)
  | empty
  | node (top : α) (left right : Heap α)

namespace Heap

variable {α : Type}

def top? : Heap α → Option α
  | empty => none
  | node x _ _ => some x

def size : Heap α → Nat
  | empty => 0
  | node _ l r => l.size + r.size + 1

/-- The entries, each before those below it. -/
def toList : Heap α → List α
  | empty => []
  | node x l r => x :: (l.toList ++ r.toList)

/-- Change all entries where they are. -/
def map (change : α → α) : Heap α → Heap α
  | empty => empty
  | node x l r => node (change x) (l.map change) (r.map change)

/-- Put another entry at the top. -/
def setTop (x : α) : Heap α → Heap α
  | empty => empty
  | node _ l r => node x l r

/-- The turns from the top to a place, `true` to the right. Places are counted from one, level by
level. -/
def path (place : Nat) : List Bool := (List.range place.log2).reverse.map place.testBit

section

variable (before : α → α → Bool)

/-! ## Rising

An entry `x` that has come to the top of the tree below an entry `y` changes places with it if it
stands before it. The truth value tells whether `x` is at the top. -/

def riseLeft (x y : α) (rose : Bool) (l r : Heap α) : Bool × Heap α :=
  if rose && before x y then (true, node x (l.setTop y) r) else (false, node y l r)

def riseRight (x y : α) (rose : Bool) (l r : Heap α) : Bool × Heap α :=
  if rose && before x y then (true, node x l (r.setTop y)) else (false, node y l r)

/-- Add an entry at the end of a path, and let it rise. -/
def insertAt (x : α) : Heap α → List Bool → Bool × Heap α
  | empty, _ => (true, node x empty empty)
  | node y l r, turns =>
    if turns.headD false then
      let (rose, r) := insertAt x r turns.tail
      riseRight before x y rose l r
    else
      let (rose, l) := insertAt x l turns.tail
      riseLeft before x y rose l r

def push (x : α) (h : Heap α) : Heap α := (h.insertAt before x (path (h.size + 1))).2

/-! ## Sinking -/

/-- The entry that moves up into a gap, and whether it comes from the right. Of two it is the left
one if that stands before the other. -/
def mover : Option α → Option α → Option (α × Bool)
  | none, none => none
  | some y, none => some (y, false)
  | none, some z => some (z, true)
  | some y, some z => if before y z then some (y, false) else some (z, true)

/-- Drop the top, let the gap sink to the bottom, and let `x` rise from there. -/
def refill (x : α) : Heap α → Bool × Heap α
  | empty => (true, empty)
  | node _ l r =>
    match mover before l.top? r.top? with
    | none => (true, node x l r)
    | some (y, false) =>
      let (rose, l) := refill x l
      riseLeft before x y rose l r
    | some (y, true) =>
      let (rose, r) := refill x r
      riseRight before x y rose l r

/-- Take out the entry at the end of a path. -/
def takeAt : Heap α → List Bool → Option (α × Heap α)
  | empty, _ => none
  | node y l r, turns =>
    let fromLeft := (takeAt l turns.tail).map fun (x, l) => (x, node y l r)
    let fromRight := (takeAt r turns.tail).map fun (x, r) => (x, node y l r)
    let below := if turns.headD false then fromRight <|> fromLeft else fromLeft <|> fromRight
    below <|> some (y, empty)

/-- Drop the top. -/
def pop (h : Heap α) : Heap α :=
  match h.takeAt (path h.size) with
  | none => empty
  | some (x, rest) => (rest.refill before x).2

end
end Heap
end Switchboard
