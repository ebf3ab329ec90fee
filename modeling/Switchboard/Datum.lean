-- Data as interchange texts carry it: scalars, lists, and tables with texts as keys.
import Switchboard.Value
namespace Switchboard

inductive Datum
  | scalar (s : Scalar)
  | list (items : List Datum)
  | map (entries : List (String × Datum))

namespace Datum

@[match_pattern] abbrev null : Datum := scalar .null
@[match_pattern] abbrev bool (b : Bool) : Datum := scalar (.bool b)
@[match_pattern] abbrev int (n : Int) : Datum := scalar (.int n)
@[match_pattern] abbrev float (x : Binary64) : Datum := scalar (.float x)
@[match_pattern] abbrev text (s : String) : Datum := scalar (.text s)

instance : Inhabited Datum := ⟨null⟩

/-! ## Parts -/

/-- The value of a field. -/
def field? : Datum → String → Option Datum
  | map entries, name => Dict.get? entries name
  | _, _ => none

/-- Does a datum count as given? Nothing, zero and everything empty do not. -/
def isGiven : Datum → Bool
  | scalar s => (Value.scalar s).isGiven
  | list items => !items.isEmpty
  | map entries => !entries.isEmpty

mutual

/-- The number of characters and parts. -/
def size : Datum → Nat
  | text s => s.length + 1
  | scalar _ => 1
  | list items => sizeOfItems items + 1
  | map entries => sizeOfEntries entries + 1

def sizeOfItems : List Datum → Nat
  | [] => 0
  | d :: rest => size d + sizeOfItems rest

def sizeOfEntries : List (String × Datum) → Nat
  | [] => 0
  | (k, d) :: rest => k.length + size d + sizeOfEntries rest

end

/-! ## Equality

Data are equal by amount and content. The order of a table's entries does not matter. -/

mutual

def same : Datum → Datum → Bool
  | scalar a, scalar b => a == b
  | list a, list b => sameItems a b
  | map a, map b => a.length == b.length && sameEntries a b
  | _, _ => false

def sameItems : List Datum → List Datum → Bool
  | [], [] => true
  | a :: as, b :: bs => same a b && sameItems as bs
  | _, _ => false

/-- Has the other table an equal value under each key? -/
def sameEntries : List (String × Datum) → List (String × Datum) → Bool
  | [], _ => true
  | (k, a) :: rest, other =>
    (match Dict.get? other k with
      | some b => same a b
      | none => false) && sameEntries rest other

end

/-! ## As values -/

section

variable {m : Type → Type} [Monad m] (fresh : m Nat)

mutual

/-- The value that is made of a datum, each container with a new identity. -/
def build : Datum → m Value
  | scalar s => pure (.scalar s)
  | list items => do
    let identity ← fresh
    return .list identity (← buildItems items)
  | map entries => do
    let identity ← fresh
    return .map identity (← buildEntries entries)

def buildItems : List Datum → m (List Value)
  | [] => pure []
  | d :: rest => do return (← build d) :: (← buildItems rest)

def buildEntries : List (String × Datum) → m (List (Scalar × Value))
  | [] => pure []
  | (k, d) :: rest => do return (.text k, ← build d) :: (← buildEntries rest)

end
end

/-- A datum as a value whose identity does not matter. -/
def toValue (d : Datum) : Value := Id.run (build (pure 0) d)

/-- A datum as it stands in a list or table of a message. -/
def written (d : Datum) : Except Fault String := d.toValue.written

/-- A datum as it stands in a sentence. -/
def shown (d : Datum) : Except Fault String := d.toValue.shown

end Datum
end Switchboard
