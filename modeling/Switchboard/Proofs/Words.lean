-- Bitwise operators. They take the integer parts of their operands as words of 32 bits, and what
-- they give is that of the words, read back with a sign or, for the unsigned shift, without one.
import Mathlib.Algebra.Group.Int.Defs
import Switchboard.Proofs.Dependencies
import Switchboard.Proofs.Operations
namespace Switchboard

/-! ## Results among the words -/

namespace BinaryOperator

/-- What an operator gives on two integers taken as words of 32 bits, none if it is not one of
words. A word is shifted by the second integer modulo 32. -/
def onWords? (m n : Int) : BinaryOperator → Option Int
  | bitAnd => some (BitVec.ofInt 32 m &&& BitVec.ofInt 32 n).toInt
  | bitOr => some (BitVec.ofInt 32 m ||| BitVec.ofInt 32 n).toInt
  | bitXor => some (BitVec.ofInt 32 m ^^^ BitVec.ofInt 32 n).toInt
  | shiftLeft => some (BitVec.ofInt 32 m <<< (n % 32).toNat).toInt
  | shiftRight => some ((BitVec.ofInt 32 m).sshiftRight (n % 32).toNat).toInt
  | unsignedShift => some (BitVec.ofInt 32 m >>> (n % 32).toNat).toNat
  | _ => none

theorem ofInt_congr {m n : Int} (h : m % 2 ^ 32 = n % 2 ^ 32) :
    BitVec.ofInt 32 m = BitVec.ofInt 32 n := by
  apply BitVec.eq_of_toNat_eq
  rw [BitVec.toNat_ofInt, BitVec.toNat_ofInt]
  exact congrArg Int.toNat h

theorem shift_congr {m n : Int} (h : m % 2 ^ 32 = n % 2 ^ 32) : m % 32 = n % 32 := by
  omega

/-- Only the operands modulo 2^32 matter. -/
theorem onWords?_congr {m m' n n' : Int} (hm : m % 2 ^ 32 = m' % 2 ^ 32)
    (hn : n % 2 ^ 32 = n' % 2 ^ 32) (op : BinaryOperator) :
    op.onWords? m n = op.onWords? m' n' := by
  cases op <;> simp only [onWords?, ofInt_congr hm, ofInt_congr hn, shift_congr hn]

theorem onWords?_range {op : BinaryOperator} {m n k : Int} (h : op.onWords? m n = some k) :
    if op = unsignedShift then 0 ≤ k ∧ k < 2 ^ 32 else -2 ^ 31 ≤ k ∧ k < 2 ^ 31 := by
  have hsigned : ∀ x : BitVec 32, -2 ^ 31 ≤ x.toInt ∧ x.toInt < 2 ^ 31 := fun x =>
    ⟨x.le_toInt, x.toInt_lt⟩
  cases op with
  | bitAnd | bitOr | bitXor | shiftLeft | shiftRight =>
    cases h
    exact hsigned _
  | unsignedShift =>
    cases h
    exact ⟨Int.natCast_nonneg _, by exact_mod_cast (BitVec.isLt _)⟩
  | _ => cases h

end BinaryOperator

/-! ## Operands as words -/

namespace Value

/-- The integer a value counts as, zero if it counts as NaN or an infinity and none if it has a
fraction. -/
def whole? (v : Value) : Option Int :=
  match v.toNumber with
  | .int n => some n
  | .float x => if x.isNan || x.isInfinite then some 0 else x.toInt?

theorem toInt_of_whole {v : Value} {n : Int} (h : v.whole? = some n) : v.toInt = n := by
  unfold whole? at h
  unfold toInt
  cases hv : v.toNumber with
  | int m =>
    rw [hv] at h
    exact Option.some.inj h
  | float x =>
    rw [hv] at h
    cases x with
    | nan => exact Option.some.inj h
    | infinity negative => exact Option.some.inj h
    | finite negative units =>
      -- a whole number has no fraction that could be cut off
      obtain ⟨-, hn⟩ := Option.ite_none_right_eq_some.mp h
      exact Option.some.inj hn

/-- The word of the integer part. -/
def word (v : Value) : BitVec 32 := BitVec.ofInt 32 v.toInt

theorem toUInt32_eq (v : Value) : v.toUInt32 = v.word.toNat := by
  have hnonneg : 0 ≤ v.toInt % 2 ^ 32 := Int.emod_nonneg _ (by decide)
  unfold word
  rw [BitVec.toNat_ofInt]
  exact (Int.toNat_of_nonneg hnonneg).symm

theorem toInt32_eq (v : Value) : v.toInt32 = v.word.toInt :=
  (BitVec.toInt_ofInt v.toInt).symm

theorem shift_eq (v : Value) : v.shift = (v.toInt % 32).toNat :=
  congrArg Int.toNat (Int.emod_emod_of_dvd v.toInt (by decide))

theorem onBits_eq {op : Nat → Nat → Nat} {a b : Value} {result : BitVec 32}
    (h : op a.word.toNat b.word.toNat = result.toNat) : onBits op a b = int result.toInt := by
  unfold onBits
  rw [toUInt32_eq, toUInt32_eq, Int.toNat_natCast, Int.toNat_natCast, h,
    BitVec.toInt_eq_toNat_bmod]

end Value

/-! ## Each operator -/

open Value

theorem complement_word (x : BitVec 32) : -x.toInt - 1 = (~~~x).toInt := by
  have hx := x.isLt
  rw [BitVec.toInt_eq_toNat_cond, BitVec.toInt_eq_toNat_cond, BitVec.toNat_not]
  split <;> split <;> omega

theorem shiftLeft_word (x : BitVec 32) (k : Nat) :
    Int.bmod (x.toInt * Int.pow 2 k) (Nat.pow 2 32) = (x <<< k).toInt := by
  rw [BitVec.toInt_shiftLeft, Nat.shiftLeft_eq, BitVec.toInt_eq_toNat_bmod]
  refine Int.bmod_mul_bmod.trans ?_
  push_cast
  rfl

theorem UnaryOperator.complement_value (v : Value) :
    UnaryOperator.complement.apply v = .ok (int (~~~v.word).toInt) := by
  simp only [apply, toInt32_eq, complement_word]

theorem BinaryOperator.apply_words {op : BinaryOperator} {a b : Value} {k : Int}
    (h : op.onWords? a.toInt b.toInt = some k) : op.apply a b = .ok (int k) := by
  cases op with
  | bitAnd =>
    cases h
    exact congrArg Except.ok (onBits_eq (BitVec.toNat_and _ _).symm)
  | bitOr =>
    cases h
    exact congrArg Except.ok (onBits_eq (BitVec.toNat_or _ _).symm)
  | bitXor =>
    cases h
    exact congrArg Except.ok (onBits_eq (BitVec.toNat_xor _ _).symm)
  | shiftLeft =>
    cases h
    simp only [apply, toInt32_eq, shift_eq, shiftLeft_word]
    rfl
  | shiftRight =>
    cases h
    simp only [apply, toInt32_eq, shift_eq]
    rw [BitVec.toInt_sshiftRight, Int.shiftRight_eq_div_pow]
    rfl
  | unsignedShift =>
    cases h
    simp only [apply, toUInt32_eq, shift_eq]
    rw [BitVec.toNat_ushiftRight, Nat.shiftRight_eq_div_pow]
    rfl
  | _ => cases h

/-! ## Evaluation -/

namespace Expr

open Literal (ofName)

section

variable {ω : Type} {host : Host ω} {context : Value} {l r : Expr} {a b : Value} {m n : Int}
  {w u t : ω}

theorem complement_of_whole (hl : l.evaluate host context w = .ok a u) (hm : a.whole? = some m) :
    (ofUnary .complement l).evaluate host context w =
      .ok (int (~~~BitVec.ofInt 32 m).toInt) u := by
  rw [unary_of_value .complement hl, UnaryOperator.complement_value, word, toInt_of_whole hm]
  rfl

theorem binary_of_whole (hl : l.evaluate host context w = .ok a u)
    (hr : r.evaluate host context u = .ok b t) (hm : a.whole? = some m) (hn : b.whole? = some n)
    {op : BinaryOperator} {k : Int} (hk : op.onWords? m n = some k) :
    (ofBinary op l r).evaluate host context w = .ok (int k) t := by
  rw [← toInt_of_whole hm, ← toInt_of_whole hn] at hk
  rw [binary_of_values op hl hr, BinaryOperator.apply_words hk]
  rfl

/-- Bitwise operators are those of words of 32 bits, on operands that count as an integer of any
size, as NaN or as an infinity. Their results are in the range of the words, and operands that are
the same modulo 2^32 have the same result. -/
theorem bitwise_operators_are_those_of_words (hl : l.evaluate host context w = .ok a u)
    (hr : r.evaluate host context u = .ok b t) (hm : a.whole? = some m) (hn : b.whole? = some n) :
    (∀ op k, op.onWords? m n = some k →
      (ofBinary op l r).evaluate host context w = .ok (int k) t ∧
      (if op = .unsignedShift then 0 ≤ k ∧ k < 2 ^ 32 else -2 ^ 31 ≤ k ∧ k < 2 ^ 31)) ∧
    (∀ k, (~~~BitVec.ofInt 32 m).toInt = k →
      (ofUnary .complement l).evaluate host context w = .ok (int k) u ∧
      -2 ^ 31 ≤ k ∧ k < 2 ^ 31) ∧
    ∀ {l' r' : Expr} {a' b' : Value} {m' n' : Int}, l'.evaluate host context w = .ok a' u →
      r'.evaluate host context u = .ok b' t → a'.whole? = some m' → b'.whole? = some n' →
      m' % 2 ^ 32 = m % 2 ^ 32 → n' % 2 ^ 32 = n % 2 ^ 32 →
      (ofUnary .complement l').evaluate host context w =
        (ofUnary .complement l).evaluate host context w ∧
      ∀ op, (op.onWords? m n).isSome = true →
        (ofBinary op l' r').evaluate host context w =
          (ofBinary op l r).evaluate host context w := by
  refine ⟨fun op k hk => ?_, ?_, ?_⟩
  · exact ⟨binary_of_whole hl hr hm hn hk, BinaryOperator.onWords?_range hk⟩
  · rintro k rfl
    exact ⟨complement_of_whole hl hm, BitVec.le_toInt _, BitVec.toInt_lt⟩
  · intro l' r' a' b' m' n' hl' hr' hm' hn' hsame hsame'
    refine ⟨?_, fun op hop => ?_⟩
    · rw [complement_of_whole hl hm, complement_of_whole hl' hm',
        BinaryOperator.ofInt_congr hsame]
    · obtain ⟨k, hk⟩ := Option.isSome_iff_exists.mp hop
      have hk' := (BinaryOperator.onWords?_congr hsame hsame' op).trans hk
      rw [binary_of_whole hl hr hm hn hk, binary_of_whole hl' hr' hm' hn' hk']

end

/-- A table with a text, a truth value, a negative amount and an infinity. -/
def bitsTable : Value := .map 0
  [(.text "s", .text " -4294967295 "), (.text "b", .bool true), (.text "n", .int (-33)),
    (.text "i", .float (.infinity true))]

/-- A text that is one modulo 2^32 is shifted by 31 places, and so is a truth value. -/
theorem a_text_is_shifted_into_the_sign :
    (ofBinary .shiftLeft (ofName "s") (ofName "n")).evaluate echo bitsTable 9 =
        .ok (int (-2147483648)) 9 ∧
      (ofBinary .shiftLeft (ofName "b") (ofName "n")).evaluate echo bitsTable 9 =
        .ok (int (-2147483648)) 9 ∧
      (ofUnary .complement (ofName "i")).evaluate echo bitsTable 9 = .ok (int (-1)) 9 := by
  have hs : (ofName "s").evaluate echo bitsTable 9 = .ok (text " -4294967295 ") 9 := rfl
  have hb : (ofName "b").evaluate echo bitsTable 9 = .ok (bool true) 9 := rfl
  have hn : (ofName "n").evaluate echo bitsTable 9 = .ok (int (-33)) 9 := rfl
  have hi : (ofName "i").evaluate echo bitsTable 9 = .ok (float (.infinity true)) 9 := rfl
  have hwhole : (text " -4294967295 ").whole? = some (-4294967295) := by decide +kernel
  obtain ⟨hshift, -, hsame⟩ := bitwise_operators_are_those_of_words hs hn hwhole rfl
  obtain ⟨-, hnot, -⟩ := bitwise_operators_are_those_of_words hi hn rfl rfl
  have hresult := (hshift .shiftLeft (-2147483648) (by decide +kernel)).1
  have hequal := (hsame hb hn rfl rfl (by decide) rfl).2 .shiftLeft (by decide +kernel)
  exact ⟨hresult, hequal.trans hresult, (hnot (-1) (by decide +kernel)).1⟩

end Expr
end Switchboard
