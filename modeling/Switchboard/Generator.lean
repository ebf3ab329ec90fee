-- Random integers. A generator is a state of 64 bits, so that a seed fixes all numbers that follow.
import Switchboard.Value
namespace Switchboard

structure Generator where
  state : UInt64

namespace Generator

/-- The state that a number of any size sets. -/
def ofNat (n : Nat) : Generator := ⟨UInt64.ofNat (n % 18446744073709551557)⟩

/-- A number that depends on all characters of a text. -/
def ofChars (cs : List Char) : Nat := cs.foldl (fun n c => n * 1114112 + c.toNat + 1) 1

/-- The number that a floating point number gives as a seed: its value modulo the prime 2^61 - 1,
so that a whole number below it seeds as the integer does. Modulo the prime a unit, 2^-1074, is
2^24. Below zero, numbers count down from 2^64. -/
def ofFloat? : Binary64 → Option Nat
  | .nan => none
  | .infinity negative => some (if negative then Nat.pow 2 64 - 314159 else 314159)
  | .finite negative units =>
    let n := units * Nat.pow 2 24 % (Nat.pow 2 61 - 1)
    some (if negative && n != 0 then Nat.pow 2 64 - (if n = 1 then 2 else n) else n)

/-- The generator that a value seeds. Nothing and NaN leave it to the given number, and what can
change is no seed. -/
def ofSeed (unseeded : Nat) : Value → Except Fault Generator
  | .null => .ok (ofNat unseeded)
  | .bool b => .ok (ofNat (Scalar.ofBool b).natAbs)
  | .int n => .ok (ofNat n.natAbs)
  | .float x => .ok (ofNat ((ofFloat? x).getD unseeded))
  | .text s => .ok (ofNat (ofChars s.toList))
  | _ => .error .wrongType

/-- The next 64 bits: a step of the state, and a mix of its bits. -/
def next (g : Generator) : UInt64 × Generator :=
  let state := g.state + 0x9e3779b97f4a7c15
  let a := (state ^^^ (state >>> 30)) * 0xbf58476d1ce4e5b9
  let b := (a ^^^ (a >>> 27)) * 0x94d049bb133111eb
  (b ^^^ (b >>> 31), ⟨state⟩)

/-- A number of so many blocks of 64 bits. -/
def blocks : Nat → Generator → Nat × Generator
  | 0, g => (0, g)
  | n + 1, g =>
    let (high, g) := g.next
    let (low, g) := blocks n g
    (high.toNat * Nat.pow 2 (64 * n) + low, g)

/-- A number below a positive bound, from one block more than the bound has. -/
def below (bound : Nat) (g : Generator) : Nat × Generator :=
  let (n, g) := blocks (bound.log2 / 64 + 2) g
  (n % bound, g)

/-- The integer a value is turned into for a bound: texts are read and fractions cut off. -/
def boundOf : Value → Except Fault Int
  | .bool b => .ok (Scalar.ofBool b)
  | .int n => .ok n
  | .float x =>
    match x.truncate?, x.isNan with
    | some n, _ => .ok n
    | none, true => .error .badValue
    | none, false => .error .overflow
  | .text s =>
    match Text.readInt? s.toList with
    | some n => .ok n
    | none => .error .badValue
  | _ => .error .wrongType

/-- A random integer between two bounds, both included. -/
def roll (args : List Value) (g : Generator) : Except Fault (Int × Generator) := do
  let [low, high] := args | .error .wrongType
  let low ← boundOf low
  let high ← boundOf high
  if high < low then .error .badValue
  else
    let (n, g) := g.below (high - low + 1).toNat
    return (low + n, g)

end Generator
end Switchboard
