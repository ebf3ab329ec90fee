-- The values without parts: nothing, truth values, integers, floating point numbers and texts.
-- They are the keys of every table. As a key a number stands for its amount only, so that `1`,
-- `1.0` and `true` are one key.
import Switchboard.Binary64
namespace Switchboard

inductive Scalar
  | null
  | bool (b : Bool)
  | int (n : Int)
  | float (x : Binary64)
  | text (s : String)
deriving DecidableEq

namespace Scalar

/-- The integer of a truth value. -/
def ofBool (b : Bool) : Int := if b then 1 else 0

/-- The one spelling of all scalars that are the same key. -/
def canonical : Scalar → Scalar
  | bool b => int (ofBool b)
  | float x => (x.toInt?).elim (float x) int
  | s => s

/-- Two scalars are equal if they are the same key. -/
instance : BEq Scalar := ⟨fun a b => decide (a.canonical = b.canonical)⟩

theorem beq_iff (a b : Scalar) : (a == b) = true ↔ a.canonical = b.canonical :=
  decide_eq_true_iff

instance : EquivBEq Scalar where
  rfl := (beq_iff _ _).2 rfl
  symm h := (beq_iff _ _).2 ((beq_iff _ _).1 h).symm
  trans h h' := (beq_iff _ _).2 (((beq_iff _ _).1 h).trans ((beq_iff _ _).1 h'))

end Scalar
end Switchboard
