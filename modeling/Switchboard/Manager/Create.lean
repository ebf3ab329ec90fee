-- New managers.
import Switchboard.Manager.Exec
namespace Switchboard.Manager

/-- What a manager is made of. -/
structure Setup where
  config : Config := {}
  state : Dict Scalar Value := []
  /-- Keys with the expressions of their first values. -/
  initial : List (Scalar × Value) := []
  context : Dict Scalar Value := []
  clock : Clock := .virtual .empty
  timeOfDay : Int := 0
  /-- What seeds the random integers if the state does not. -/
  entropy : Nat := 0
  /-- An identity above those of all containers in the setup. -/
  nextIdentity : Nat := 0

namespace Setup

/-- The manager before its initial assignments. -/
def world {σ : Type} (setup : Setup) (generator : Generator) (host : σ) : World σ where
  config := setup.config
  context := World.defaults.merge setup.context
  store := ((Store.ofState setup.state).subscribe () .null).2
  controls := []
  readLinks := []
  assignments := []
  listeners := []
  nextSubscription := 1
  pending := []
  changes := {}
  events := []
  inTransaction := false
  depth := 0
  clock := setup.clock
  generator := generator
  timeOfDay := setup.timeOfDay
  nextIdentity := setup.nextIdentity
  nextControl := 0
  nextDeferral := 0
  signals := {}
  computing := []
  host := host

/-- Evaluate the initial assignments, which see the context alone, and then write them. -/
def assignInitial {σ : Type} (functions : Functions σ) (below : Level σ) (setup : Setup) :
    Run (World σ) Unit := do
  let patch ← setup.initial.mapM fun (key, expression) => do
    let e ← .ofExcept (Expr.ofValue expression)
    let context := Value.map (← World.fresh) (← get).context
    return (key, ← e.evaluate (evaluationHost functions below) context)
  writePatch functions below patch

/-- A new manager. -/
def create {σ : Type} (functions : Functions σ) (bound : Nat) (setup : Setup) (host : σ) :
    Except Fault (World σ) := do
  let seed := (setup.state.get? setup.config.seedKey).getD .null
  let generator ← Generator.ofSeed setup.entropy seed
  let w := setup.world generator host
  match assignInitial functions (level functions bound) setup w with
  | .ok _ w => return w
  | .error f _ => .error f

end Setup
end Switchboard.Manager
