-- What is so of every evaluation because it is so of its parts. A law speaks of a family of
-- computations, such as one computation under every bound or on two hosts. If it holds of answers
-- and faults, is kept when one computation follows the other, and holds of calls, then it holds of
-- evaluations.
import Switchboard.Proofs.Ordinary
namespace Switchboard

structure Law (ι ω : Type) where
  holds : {α : Type} → (ι → Run ω α) → Prop
  answer : ∀ {α : Type} (a : α), holds fun _ => (pure a : Run ω α)
  /-- Only what is nested may use up the bound. -/
  fault : ∀ {α : Type} {f : Fault}, f ≠ .exhausted → holds fun _ => (throw f : Run ω α)
  bind : ∀ {α β : Type} {act : ι → Run ω α} {next : ι → α → Run ω β}, holds act →
    (∀ a, holds fun i => next i a) → holds fun i => act i >>= next i

namespace Law

variable {ι ω α β : Type} {L : Law ι ω}

theorem ofExcept {r : Except Fault α} (h : Ordinary r) :
    L.holds fun _ => (Run.ofExcept r : Run ω α) := by
  cases r with
  | ok a => exact L.answer a
  | error f => exact L.fault fun hf => h (by rw [hf])

theorem forM {act : ι → α → Run ω Unit} (items : List α)
    (h : ∀ a ∈ items, L.holds fun i => act i a) : L.holds fun i => items.forM (act i) := by
  induction items with
  | nil => exact L.answer ()
  | cons a rest ih =>
    exact L.bind (h a List.mem_cons_self) fun _ =>
      ih fun b hb => h b (List.mem_cons_of_mem a hb)

theorem mapM {act : ι → α → Run ω β} (items : List α) (h : ∀ a, L.holds fun i => act i a) :
    L.holds fun i => items.mapM (act i) := by
  induction items with
  | nil => exact L.answer []
  | cons a rest ih =>
    simp only [List.mapM_cons]
    exact L.bind (h a) fun _ => L.bind ih fun _ => L.answer _

/-! ## Evaluations -/

variable {host : ι → Host ω}

mutual

theorem build {fresh : ι → Run ω Nat} (hf : L.holds fresh) (d : Datum) :
    L.holds fun i => d.build (fresh i) := by
  cases d with
  | scalar s => exact L.answer _
  | list items =>
    simp only [Datum.build]
    exact L.bind hf fun _ => L.bind (buildItems hf items) fun _ => L.answer _
  | map entries =>
    simp only [Datum.build]
    exact L.bind hf fun _ => L.bind (buildEntries hf entries) fun _ => L.answer _

theorem buildItems {fresh : ι → Run ω Nat} (hf : L.holds fresh) (ds : List Datum) :
    L.holds fun i => Datum.buildItems (fresh i) ds := by
  cases ds with
  | nil => exact L.answer _
  | cons d rest =>
    simp only [Datum.buildItems]
    exact L.bind (build hf d) fun _ => L.bind (buildItems hf rest) fun _ => L.answer _

theorem buildEntries {fresh : ι → Run ω Nat} (hf : L.holds fresh) (es : List (String × Datum)) :
    L.holds fun i => Datum.buildEntries (fresh i) es := by
  cases es with
  | nil => exact L.answer _
  | cons e rest =>
    obtain ⟨k, d⟩ := e
    simp only [Datum.buildEntries]
    exact L.bind (build hf d) fun _ => L.bind (buildEntries hf rest) fun _ => L.answer _

end

/-- What goes on with the key of a member, of whichever kind. -/
theorem withKey {property : Expr} (context : Value)
    (h : L.holds fun i => property.evaluate (host i) context) (computed : Bool)
    {next : Value → Run ω α} (hn : ∀ key, L.holds fun _ => next key) :
    L.holds fun i =>
      (if computed then do
        let v ← property.evaluate (host i) context
        let key ← .ofExcept (Expr.normalKey v)
        next key
      else do
        let key ← .ofExcept (Expr.nameKey property)
        next key : Run ω α) := by
  cases computed with
  | true => exact L.bind h fun v => L.bind (ofExcept (Expr.limited_normalKey v).ordinary) hn
  | false => exact L.bind (ofExcept (Expr.ordinary_nameKey property)) hn

mutual

/-- An evaluation does nothing but call functions and ask for identities. -/
theorem evaluate (hc : ∀ f args, L.holds fun i => (host i).call f args)
    (hf : L.holds fun i => (host i).fresh) (context : Value) (e : Expr) :
    L.holds fun i => e.evaluate (host i) context := by
  cases e with
  | literal value raw =>
    simp only [Expr.evaluate]
    exact build hf value
  | self => exact L.answer _
  | compound body =>
    simp only [Expr.evaluate]
    exact evaluateLast hc hf context .null body
  | array elements =>
    simp only [Expr.evaluate]
    exact L.bind (evaluateAll hc hf context elements) fun _ => L.bind hf fun _ => L.answer _
  | unary operator argument leading =>
    simp only [Expr.evaluate]
    exact L.bind (ofExcept (Expr.ordinary_operator? _ _ _)) fun op =>
      L.bind (evaluate hc hf context argument) fun v => ofExcept (Value.limited_unary op v).ordinary
  | binary operator left right | logical operator left right =>
    simp only [Expr.evaluate]
    exact L.bind (ofExcept (Expr.ordinary_operator? _ _ _)) fun op =>
      L.bind (evaluate hc hf context left) fun a =>
        L.bind (evaluate hc hf context right) fun b =>
          ofExcept (Value.limited_binary op a b).ordinary
  | conditional test consequent alternate =>
    simp only [Expr.evaluate]
    exact L.bind (evaluate hc hf context test) fun t =>
      L.bind (evaluate hc hf context consequent) fun _ =>
        L.bind (evaluate hc hf context alternate) fun _ =>
          L.bind (ofExcept (Value.limited_isTruthy t).ordinary) fun _ => L.answer _
  | call callee arguments =>
    simp only [Expr.evaluate]
    refine L.bind (pathOf hc hf context .callee callee) fun path => ?_
    refine L.bind (ofExcept (Value.ordinary_lookup context path)) fun f => ?_
    refine L.bind (evaluateAll hc hf context arguments) fun args => ?_
    cases f with
    | function f => exact hc f args
    | _ =>
      exact ofExcept (ordinary_bind (Expr.ordinary_pathText path) fun _ => ordinary_error nofun)
  | identifier name =>
    simp only [Expr.evaluate]
    exact ofExcept (Value.ordinary_lookup context _)
  | member object property computed =>
    simp only [Expr.evaluate]
    refine L.bind (pathOf hc hf context .object object) fun front => ?_
    exact withKey context (evaluate hc hf context property) computed fun key =>
      ofExcept (Value.ordinary_lookup context _)

theorem pathOf (hc : ∀ f args, L.holds fun i => (host i).call f args)
    (hf : L.holds fun i => (host i).fresh) (context : Value) (role : Expr.Role) (e : Expr) :
    L.holds fun i => e.pathOf (host i) context role := by
  have hmisfit : ∀ e : Expr, role.misfit e ≠ .exhausted := by
    intro e
    cases role <;> nofun
  cases e with
  | self =>
    cases role with
    | object => exact L.answer _
    | callee => exact L.fault (hmisfit .self)
  | identifier name => exact L.answer _
  | member object property computed =>
    simp only [Expr.pathOf]
    refine L.bind (pathOf hc hf context .object object) fun front => ?_
    exact withKey context (evaluate hc hf context property) computed fun key => L.answer _
  | _ => exact L.fault (hmisfit _)

theorem evaluateAll (hc : ∀ f args, L.holds fun i => (host i).call f args)
    (hf : L.holds fun i => (host i).fresh) (context : Value) (es : List Expr) :
    L.holds fun i => Expr.evaluateAll (host i) context es := by
  cases es with
  | nil => exact L.answer _
  | cons e rest =>
    simp only [Expr.evaluateAll]
    exact L.bind (evaluate hc hf context e) fun _ =>
      L.bind (evaluateAll hc hf context rest) fun _ => L.answer _

theorem evaluateLast (hc : ∀ f args, L.holds fun i => (host i).call f args)
    (hf : L.holds fun i => (host i).fresh) (context last : Value) (es : List Expr) :
    L.holds fun i => Expr.evaluateLast (host i) context last es := by
  cases es with
  | nil => exact L.answer _
  | cons e rest =>
    simp only [Expr.evaluateLast]
    exact L.bind (evaluate hc hf context e) fun v => evaluateLast hc hf context v rest

end

end Law

/-! ## Assignments -/

namespace Manager

open World

variable {ι σ : Type}

theorem callFunction_randomInt (functions : Functions σ) (below : Level σ) (args : List Value)
    (w : World σ) :
    callFunction functions below .randomInt args w =
      match Generator.roll args w.generator with
      | .ok r => .ok (.int r.1) { w with generator := r.2 }
      | .error f => .error f w := by
  change (Run.ofExcept (Generator.roll args w.generator) >>= fun r => (do
    modify fun w => { w with generator := r.2 }
    return .int r.1 : Run (World σ) Value)) w = _
  generalize Generator.roll args w.generator = r
  cases r <;> rfl

/-- What evaluations ask of a manager obeys a law. -/
structure Serves (L : Law ι (World σ)) (functions : Functions σ) (below : ι → Level σ) :
    Prop where
  fresh : L.holds fun _ => (fresh : Run (World σ) Nat)
  context : L.holds fun _ => (contextNow : Run (World σ) Value)
  call : ∀ f args, L.holds fun i => callFunction functions (below i) f args

namespace Serves

variable {L : Law ι (World σ)} {functions : Functions σ} {below : ι → Level σ}

theorem evaluate (h : Serves L functions below) (context : Value) (e : Expr) :
    L.holds fun i => e.evaluate (evaluationHost functions (below i)) context :=
  L.evaluate h.call h.fresh context e

theorem evaluateNow (h : Serves L functions below) (e : Expr) :
    L.holds fun i => evaluateNow functions (below i) e :=
  L.bind h.context fun context => h.evaluate context e

theorem conditionHolds (h : Serves L functions below) (a : Assignment) :
    L.holds fun i => conditionHolds functions (below i) a := by
  unfold Manager.conditionHolds
  cases a.condition with
  | none => exact L.answer true
  | some e => exact L.bind (h.evaluateNow e) fun v => L.ofExcept (Value.limited_isTruthy v).ordinary

theorem applyAssignment (h : Serves L functions below)
    (hw : ∀ key value, L.holds fun i => (below i).write key value) (a : Assignment) :
    L.holds fun i => applyAssignment functions (below i) a := by
  refine L.bind (h.conditionHolds a) fun holds => ?_
  cases holds with
  | false => exact L.answer ()
  | true => exact L.bind (h.evaluateNow a.expression) fun v => hw a.storage v

end Serves

/-! ## What follows a change -/

/-- Follow up a change that is not too deep. -/
def followOn (functions : Functions σ) (below : Level σ) (change : Change) :
    Run (World σ) Unit := do
  modify fun w => { w with changes := w.changes.record change }
  let assignments ← (do return (← get).listeningTo change.key)
  (assignments.filter (!·.isDeferred)).forM (applyAssignment functions below)
  (do addTargets ((← get).affected change.key assignments))
  (assignments.filter (·.isDeferred)).forM defer

theorem followUp_eq (functions : Functions σ) (below : Level σ) (change : Change) :
    followUp functions below change = (do
      checkDepth change.key
      followOn functions below change) := rfl

/-- What following up a change does to a manager, apart from its assignments, obeys a law. -/
structure Follows (L : Law ι (World σ)) : Prop where
  record : ∀ change, L.holds fun _ =>
    (modify fun w => { w with changes := w.changes.record change } : Run (World σ) Unit)
  listening : ∀ key, L.holds fun _ =>
    (do return (← get).listeningTo key : Run (World σ) (List Assignment))
  addTargets : ∀ key assignments, L.holds fun _ =>
    (do addTargets ((← get).affected key assignments) : Run (World σ) Unit)
  defer : ∀ a, L.holds fun _ => (defer a : Run (World σ) Unit)

namespace Follows

variable {L : Law ι (World σ)} {functions : Functions σ} {below : ι → Level σ}

theorem followOn (h : Follows L) (ha : ∀ a, L.holds fun i => applyAssignment functions (below i) a)
    (change : Change) : L.holds fun i => followOn functions (below i) change := by
  refine L.bind (h.record change) fun _ => L.bind (h.listening change.key) fun assignments => ?_
  refine L.bind (L.forM _ fun a _ => ha a) fun _ => ?_
  exact L.bind (h.addTargets change.key assignments) fun _ => L.forM _ fun a _ => h.defer a

theorem followUp (h : Follows L)
    (hdepth : ∀ key, L.holds fun _ => (checkDepth key : Run (World σ) Unit))
    (ha : ∀ a, L.holds fun i => applyAssignment functions (below i) a) (change : Change) :
    L.holds fun i => followUp functions (below i) change :=
  L.bind (hdepth change.key) fun _ => h.followOn ha change

end Follows

end Manager
end Switchboard
