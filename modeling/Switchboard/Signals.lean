-- Signals: cells that follow state keys, values derived from them by expressions, and effects that
-- run when a derived value has changed. A derived value is computed when it is read, and again
-- only after one of its cells has changed. A computation that fails leaves nothing behind, so the
-- next reading tries again.
import Switchboard.Expr.Making
namespace Switchboard

structure Cell where
  value : Value
  /-- How often the value has changed. -/
  version : Nat

/-- A derived value as it was last computed without a fault. -/
structure Memo where
  value : Value
  /-- The versions of the cells it was computed from. -/
  seen : List Nat
  /-- How often the value has changed, counting the first. -/
  version : Nat

structure Derived where
  expression : Expr
  /-- The numbers of the cells it reads. -/
  reads : List Nat
  memo : Option Memo

/-- A call-back for each new value of a derived value. -/
structure Effect (κ : Type) where
  derived : Nat
  callback : κ
  /-- The version of the derived value it was last handed, zero if that failed. -/
  seen : Nat

/-- One view of the state: the cell of each key asked for, and its effects. -/
structure Bridge where
  /-- The number under which it hears of events. -/
  subscription : Nat
  cells : Dict Scalar Nat
  /-- The numbers of its effects, in order of creation. -/
  effects : List Nat

/-- All cells, derived values and effects ever made, by number. -/
structure Signals (κ : Type) where
  cells : List Cell := []
  derived : List Derived := []
  effects : List (Effect κ) := []
  bridges : List Bridge := []

namespace Signals

variable {κ : Type}

/-! ## Cells -/

def addCell (s : Signals κ) (value : Value) : Nat × Signals κ :=
  (s.cells.length, { s with cells := s.cells ++ [⟨value, 0⟩] })

def cellValue (s : Signals κ) (number : Nat) : Value :=
  (s.cells[number]?.map (·.value)).getD .null

/-- Set a cell, if the value is not the same. -/
def setCell? (s : Signals κ) (number : Nat) (value : Value) : Option (Signals κ) :=
  match s.cells[number]? with
  | none => none
  | some cell =>
    if cell.value.isSame value then none
    else some { s with cells := s.cells.set number ⟨value, cell.version + 1⟩ }

/-! ## Derived values -/

def addDerived (s : Signals κ) (expression : Expr) (reads : List Nat) : Nat × Signals κ :=
  (s.derived.length, { s with derived := s.derived ++ [⟨expression, reads, none⟩] })

/-- The versions of the cells a derived value reads. -/
def versions (s : Signals κ) (d : Derived) : List Nat :=
  d.reads.map fun n => (s.cells[n]?.map (·.version)).getD 0

/-- The value of a derived value, if no cell has changed since it was computed. -/
def fresh? (s : Signals κ) (d : Derived) : Option Value :=
  d.memo.bind fun memo => if memo.seen = s.versions d then some memo.value else none

/-- Does a cell that was set since its version was as given hold a value that looks like this? -/
def hasNew (s : Signals κ) (value : Value) (number version : Nat) : Bool :=
  s.cells[number]?.any fun cell => cell.version ≠ version && cell.value.looksLike value

/-- Is a newly computed value the very same as the last one? It must look like it, and neither have
been made by the expression nor set anew in a cell it reads. -/
def isLast (s : Signals κ) (d : Derived) (memo : Memo) (value : Value) : Bool :=
  memo.value.isSame value ||
    memo.value.looksLike value && !d.expression.makes value &&
      !(d.reads.zip memo.seen).any fun (number, version) => s.hasNew value number version

/-- What to remember of a value computed from the cells as they were. -/
def memoOf (s : Signals κ) (d : Derived) (value : Value) : Memo :=
  let version := match d.memo with
    | none => 1
    | some memo => if s.isLast d memo value then memo.version else memo.version + 1
  ⟨value, s.versions d, version⟩

def remember (s : Signals κ) (number : Nat) (memo : Memo) : Signals κ :=
  { s with derived := s.derived.modify number fun d => { d with memo := some memo } }

/-- The version of a derived value, zero before the first. -/
def versionOf (s : Signals κ) (number : Nat) : Nat :=
  ((s.derived[number]?.bind (·.memo)).map (·.version)).getD 0

/-! ## Bridges -/

def addBridge (s : Signals κ) (subscription : Nat) : Nat × Signals κ :=
  (s.bridges.length, { s with bridges := s.bridges ++ [⟨subscription, [], []⟩] })

def updateBridge (s : Signals κ) (number : Nat) (change : Bridge → Bridge) : Signals κ :=
  { s with bridges := s.bridges.modify number change }

def bridge (s : Signals κ) (number : Nat) : Bridge :=
  match s.bridges[number]? with
  | some b => b
  | none => ⟨0, [], []⟩

/-- The cell of a key, made on first use with the given value. -/
def cellOf (s : Signals κ) (bridge : Nat) (key : Scalar) (value : Value) : Nat × Signals κ :=
  match (s.bridge bridge).cells.get? key with
  | some number => (number, s)
  | none =>
    let (number, s) := s.addCell value
    (number, s.updateBridge bridge fun b => { b with cells := b.cells.put key number })

def addEffect (s : Signals κ) (bridge derived : Nat) (callback : κ) : Nat × Signals κ :=
  let number := s.effects.length
  let s : Signals κ := { s with effects := s.effects ++ [⟨derived, callback, 0⟩] }
  (number, s.updateBridge bridge fun b => { b with effects := b.effects ++ [number] })

/-- Note the version an effect has been handed. -/
def see (s : Signals κ) (number version : Nat) : Signals κ :=
  { s with effects := s.effects.modify number fun e => { e with seen := version } }

/-- Does an effect depend on a cell? -/
def follows (s : Signals κ) (effect : Effect κ) (cell : Nat) : Bool :=
  s.derived[effect.derived]?.any (·.reads.contains cell)

/-- The numbers of the effects alive that depend on a cell, in order of creation. -/
def followers (s : Signals κ) (cell : Nat) : List Nat :=
  (s.effects.zipIdx.filter fun (effect, number) =>
    s.bridges.any (·.effects.contains number) && s.follows effect cell).map (·.2)

/-- Forget the cells and effects of a bridge. Who holds one can still read it. -/
def closeBridge (s : Signals κ) (number : Nat) : Signals κ :=
  s.updateBridge number fun b => { b with cells := [], effects := [] }

end Signals
end Switchboard
