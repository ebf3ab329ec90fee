-- Settings of a manager, and how a deployment overrides them by name.
import Switchboard.Value
namespace Switchboard

structure Config where
  /-- How deeply writes may nest in one transaction. Without it there is no limit. -/
  maxDepth : Option Int := some 100
  /-- The state key whose first value seeds the random integers. -/
  seedKey : Scalar := .text "seed"

namespace Config

def depthName : String := "EXPRESSION_MAX_CASCADE_DEPTH"

def seedName : String := "EXPRESSION_SEED_KEY"

/-- The depth that a text sets: an integer, or no limit by a word or an empty text. -/
def depthOf (given : String) : Except Fault (Option Int) :=
  let body := Text.trim given.toList
  let word := String.ofList (body.map Char.toLower)
  if word == "" || word == "none" || word == "off" then .ok none
  else
    match Text.readInt? body with
    | some n => .ok (some n)
    | none => .error (.badDepth (String.ofList body))

/-- The settings with those overridden that are given by name. -/
def ofSettings (settings : List (String × String)) : Except Fault Config := do
  let given := Dict.ofList settings
  let depth ← (given.get? depthName).elim (.ok ({} : Config).maxDepth) depthOf
  return ⟨depth, (given.get? seedName).elim ({} : Config).seedKey .text⟩

end Config
end Switchboard
