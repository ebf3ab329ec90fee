-- What operators come to in an evaluation. The operator of a node is known by its text, and it is
-- applied when its operands have been evaluated from left to right.
import Switchboard.Proofs.Conduct
namespace Switchboard.Expr

open Conduct

theorem operator?_unary (op : UnaryOperator) :
    operator? UnaryOperator.ofText? .unknownUnary (.text op.text) = .ok op := by
  cases op <;> rfl

theorem operator?_binary (op : BinaryOperator) :
    operator? BinaryOperator.ofText? .unknownBinary (.text op.text) = .ok op := by
  cases op <;> rfl

section

variable {ω : Type} {host : Host ω} {context : Value} {l r x y : Expr} {w u t s : ω}
  {a b p q : Value}

theorem evaluate_ofUnary (op : UnaryOperator) (e : Expr) :
    (ofUnary op e).evaluate host context = (do
      let v ← e.evaluate host context
      .ofExcept (op.apply v)) := by
  simp only [ofUnary, evaluate]
  rw [operator?_unary]
  rfl

theorem evaluate_ofBinary (op : BinaryOperator) (l r : Expr) :
    (ofBinary op l r).evaluate host context = (do
      let a ← l.evaluate host context
      let b ← r.evaluate host context
      .ofExcept (op.apply a b)) := by
  unfold ofBinary
  split
  · simp only [evaluate]
    rw [operator?_binary]
    rfl
  · simp only [evaluate]
    rw [operator?_binary]
    rfl

/-- Operands that have values leave an operation to its operator. -/
theorem unary_of_value (op : UnaryOperator) (hl : l.evaluate host context w = .ok a u) :
    (ofUnary op l).evaluate host context w = Run.ofExcept (op.apply a) u := by
  rw [evaluate_ofUnary, bind_ok hl]

theorem binary_of_values (op : BinaryOperator) (hl : l.evaluate host context w = .ok a u)
    (hr : r.evaluate host context u = .ok b t) :
    (ofBinary op l r).evaluate host context w = Run.ofExcept (op.apply a b) t := by
  rw [evaluate_ofBinary, bind_ok hl, bind_ok hr]

/-- So is a choice left to the truth value of its test when both branches have a value. -/
theorem conditional_of_values (hl : l.evaluate host context w = .ok a u)
    (hx : x.evaluate host context u = .ok p s) (hy : y.evaluate host context s = .ok q t) :
    (conditional l x y).evaluate host context w =
      Run.ofExcept (do return if ← a.isTruthy then p else q) t := by
  simp only [evaluate]
  rw [bind_ok hl, bind_ok hx, bind_ok hy]
  cases a.isTruthy <;> rfl

end
end Switchboard.Expr
