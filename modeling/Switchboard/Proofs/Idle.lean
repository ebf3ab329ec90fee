-- Runs that break off when a certain task starts, and when this task alone is left in the queue and
-- the clock would be moved for nothing but it to go. What such a run comes to, if it does not break
-- off, is what every run does.
import Switchboard.Proofs.Chronicle
namespace Switchboard.Scheduler

open Conduct Chronicle

/-! ## The tasks that start -/

/-- The number of a task that starts, and what the clock shows then. -/
def Entry.start? {τ ψ : Type} (e : Entry τ ψ) : Option (Nat × τ) :=
  match e.what with
  | .started serial _ => some (serial, e.after.scheduler.now)
  | _ => none

def startsOf {τ ψ : Type} (log : List (Entry τ ψ)) : List (Nat × τ) := log.filterMap (·.start?)

section

variable {τ σ : Type}

theorem startsOf_silent {w : Chronicle τ σ} {what : Happening τ}
    {v : Stage τ (Program (interface τ) σ)} (h : Entry.start? ⟨what, v⟩ = none) :
    startsOf (w.entered what v).log = startsOf w.log := by
  simp [startsOf, Chronicle.entered, h]

theorem startsOf_started {w : Chronicle τ σ} {serial : Nat} {due : τ}
    {v : Stage τ (Program (interface τ) σ)} :
    startsOf (w.entered (.started serial due) v).log =
      startsOf w.log ++ [(serial, v.scheduler.now)] := by
  simp [startsOf, Chronicle.entered, Entry.start?]

end

/-! ## Runs that keep away from a task -/

/-- Is the task of number `k` alone in the queue, and due later than now? -/
def strands {τ ψ : Type} [LT τ] [DecidableLT τ] (k : Nat) (s : Scheduler τ ψ) : Bool :=
  match s.queue.toList with
  | [t] => t.serial = k && decide (s.now < t.due)
  | _ => false

namespace Idle

section

variable {τ σ α : Type} [Add τ] [Sub τ] [Zero τ] [Max τ] [LE τ] [LT τ] [DecidableLE τ]
  [DecidableLT τ] (k : Nat)

/-- Run a task, unless the one of number `k` has been started. -/
def heed (fire : Program (interface τ) σ → Run (Chronicle τ σ) Unit)
    (task : Program (interface τ) σ) : Run (Chronicle τ σ) Unit := do
  let w ← get
  if (startsOf w.log).any (·.1 = k) then throw .exhausted else fire task

/-- Run what waits, unless that is the task of number `k` alone. -/
def runAll (fire : Program (interface τ) σ → Run (Chronicle τ σ) Unit) (bound : Nat) :
    Nat → Run (Chronicle τ σ) Nat
  | 0 => throw .exhausted
  | n + 1 => do
    let w ← get
    if strands k w.session.scheduler then throw .exhausted
    else
      match w.session.scheduler.queue.top? with
      | none => return 0
      | some t =>
        let ran ← Chronicle.advance fire bound (max (t.due - w.session.scheduler.now) 0)
        return ran + (← runAll fire bound n)

def exec (call : Program (interface τ) σ → Run (Chronicle τ σ) Value) (bound : Nat) :
    (c : Command τ) → (c.Input → Program (interface τ) σ) → Run (Chronicle τ σ) c.Answer
  | .advance ms, _ => Chronicle.advance (heed k fun task => do let _ ← call task) bound ms
  | .runAll, _ => runAll k (heed k fun task => do let _ ← call task) bound bound
  | c, callback => Chronicle.exec call bound c callback

/-- A run that breaks off when the task of number `k` starts, and when the clock would be moved for
nothing but this task to go. -/
def run : Nat → Program (interface τ) σ → Run (Chronicle τ σ) Value
  | 0, _ => throw .exhausted
  | n + 1, p => p.run hostPart (exec k (run n) n)

end

/-! ## Rounds -/

section

variable {τ σ : Type} [Add τ] [Sub τ] [Zero τ] [Max τ] [LE τ] [LT τ] [DecidableLE τ]
  [DecidableLT τ] {k : Nat} {fire : Program (interface τ) σ → Run (Chronicle τ σ) Unit}
  {bound : Nat} {w : Chronicle τ σ}

theorem runAll_idle (n : Nat) (h : w.session.scheduler.queue.top? = none) :
    runAll k fire bound (n + 1) w = .ok 0 w := by
  have hget : (get : Run (Chronicle τ σ) (Chronicle τ σ)) w = .ok w w := rfl
  have hnone : strands k w.session.scheduler = false := by
    unfold strands
    rw [Heap.toList_of_no_top h]
  unfold runAll
  rw [bind_ok hget, hnone, if_neg Bool.false_ne_true, h]
  rfl

theorem runAll_next (n : Nat) {t : Task τ (Program (interface τ) σ)}
    (h : w.session.scheduler.queue.top? = some t) (hs : strands k w.session.scheduler = false) :
    runAll k fire bound (n + 1) w = (do
      let ran ← Chronicle.advance fire bound (max (t.due - w.session.scheduler.now) 0)
      return ran + (← runAll k fire bound n)) w := by
  have hget : (get : Run (Chronicle τ σ) (Chronicle τ σ)) w = .ok w w := rfl
  conv => lhs; unfold runAll
  rw [bind_ok hget, hs, if_neg Bool.false_ne_true, h]

end

/-! ## What comes to an end is what every run does -/

section

variable {τ σ α : Type} {k : Nat}

variable [Add τ] [Sub τ] [Zero τ] [Max τ] [LE τ] [LT τ] [DecidableLE τ] [DecidableLT τ]
  {fire fire' : Program (interface τ) σ → Run (Chronicle τ σ) Unit}

end
end Idle

end Switchboard.Scheduler
