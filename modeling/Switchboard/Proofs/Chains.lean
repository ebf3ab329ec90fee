-- Chains of members. An evaluation collects the keys of a chain first, and then follows them from
-- the context. The plain reading is that of a member the object is evaluated, and then one part is
-- taken of its value. Both come to the same, however long the chains are and however they nest.
import Switchboard.Proofs.Misplaced
namespace Switchboard

/-- Take one part of a value. Of nothing there are no parts. -/
def Value.follow : Value → Value → Except Fault Value
  | null, _ => .ok null
  | container, key => container.part key

theorem Value.follow_eq (container key : Value) : container.follow key = container.part key := by
  unfold Value.follow
  split <;> rfl

theorem Value.lookup_concat (context : Value) (front : List Value) (key : Value) :
    context.lookup (front ++ [key]) = (do
      let v ← context.lookup front
      v.follow key) := by
  unfold Value.lookup
  rw [List.foldlM_append]
  congr 1
  funext v
  rw [Value.follow_eq, List.foldlM_cons]
  cases v.part key <;> rfl

namespace Expr

open Conduct

/-! ## Step by step -/

section

variable {ω : Type} (host : Host ω) (context : Value)

mutual

/-- The value of a tree, of a member step by step: the object first, then one part of it. -/
def stepwise : Expr → Run ω Value
  | literal value _ => value.build host.fresh
  | self => pure context
  | compound body => stepwiseLast .null body
  | array elements => do
    let items ← stepwiseAll elements
    return .list (← host.fresh) items
  | unary operator argument _ => do
    let op ← .ofExcept (operator? UnaryOperator.ofText? .unknownUnary operator)
    let v ← stepwise argument
    .ofExcept (op.apply v)
  | binary operator left right => do
    let op ← .ofExcept (operator? BinaryOperator.ofText? .unknownBinary operator)
    let a ← stepwise left
    let b ← stepwise right
    .ofExcept (op.apply a b)
  | logical operator left right => do
    let op ← .ofExcept (operator? BinaryOperator.ofText? .unknownBinary operator)
    let a ← stepwise left
    let b ← stepwise right
    .ofExcept (op.apply a b)
  | conditional test consequent alternate => do
    let t ← stepwise test
    let a ← stepwise consequent
    let b ← stepwise alternate
    return if ← .ofExcept t.isTruthy then a else b
  | call callee arguments => do
    let f ← stepwise callee
    let args ← stepwiseAll arguments
    match f with
    | .function f => host.call f args
    | _ => throw (.misuse .calleeKind)
  | identifier name => .ofExcept (context.follow name.toValue)
  | member object property computed => do
    let v ← stepwise object
    let key ←
      if computed then do
        let k ← stepwise property
        .ofExcept (normalKey k)
      else .ofExcept (nameKey property)
    .ofExcept (v.follow key)

def stepwiseAll : List Expr → Run ω (List Value)
  | [] => pure []
  | e :: rest => do
    let v ← stepwise e
    return v :: (← stepwiseAll rest)

def stepwiseLast (last : Value) : List Expr → Run ω Value
  | [] => pure last
  | e :: rest => do stepwiseLast (← stepwise e) rest

end

end

/-! ## Computations that come to the same answers -/

section

variable {ω α β γ : Type} {first second : Prop}

theorem bind_ok_iff {act : Run ω α} {next : α → Run ω β} {w t : ω} {b : β} :
    (act >>= next) w = .ok b t ↔ ∃ a u, act w = .ok a u ∧ next a u = .ok b t := by
  refine ⟨bind_ok_inv, fun h => ?_⟩
  obtain ⟨a, u, hr, hn⟩ := h
  rwa [bind_ok hr]

/-- Is every answer of a computation one of the other? The answers of the other are its own under a
condition. -/
structure Accords (placed : Prop) (act act' : Run ω α) : Prop where
  there : ∀ {w a u}, act w = .ok a u → act' w = .ok a u
  back : placed → ∀ {w a u}, act' w = .ok a u → act w = .ok a u

theorem accords_refl (act : Run ω α) : Accords first act act := ⟨id, fun _ => id⟩

theorem Accords.mono {act act' : Run ω α} (h : Accords first act act') (hp : second → first) :
    Accords second act act' := ⟨h.there, fun hs => h.back (hp hs)⟩

theorem Accords.trans {act act' act'' : Run ω α} (h : Accords first act act')
    (h' : Accords second act' act'') : Accords (first ∧ second) act act'' :=
  ⟨fun hr => h'.there (h.there hr), fun hp _ _ _ hr => h.back hp.1 (h'.back hp.2 hr)⟩

theorem accords_bind {act act' : Run ω α} {next next' : α → Run ω β}
    (h : Accords first act act') (hn : ∀ a, Accords second (next a) (next' a)) :
    Accords (first ∧ second) (act >>= next) (act' >>= next') := by
  constructor
  · intro w b t hr
    obtain ⟨a, u, ha, hb⟩ := bind_ok_iff.mp hr
    exact bind_ok_iff.mpr ⟨a, u, h.there ha, (hn a).there hb⟩
  · intro hp w b t hr
    obtain ⟨a, u, ha, hb⟩ := bind_ok_iff.mp hr
    exact bind_ok_iff.mpr ⟨a, u, h.back hp.1 ha, (hn a).back hp.2 hb⟩

theorem accords_after (act : Run ω α) {next next' : α → Run ω β}
    (hn : ∀ a, Accords second (next a) (next' a)) :
    Accords second (act >>= next) (act >>= next') :=
  (accords_bind (accords_refl act) hn).mono fun h => ⟨h, h⟩

theorem accords_before {act act' : Run ω α} (h : Accords first act act') (next : α → Run ω β) :
    Accords first (act >>= next) (act' >>= next) :=
  (accords_bind h fun a => accords_refl (next a)).mono fun h => ⟨h, h⟩

theorem accords_of_fails {act act' : Run ω α} (h : ∀ w a u, act w ≠ .ok a u) (hp : ¬ first) :
    Accords first act act' := ⟨fun hr => absurd hr (h _ _ _), fun hf => absurd hf hp⟩

/-- What does not touch the state may as well come first. -/
theorem accords_swap (r : Except Fault α) (act : Run ω β) (next : α → β → Run ω γ) :
    Accords first (do let b ← act; let a ← .ofExcept r; next a b)
      (do let a ← .ofExcept r; let b ← act; next a b) := by
  cases r with
  | ok a => exact accords_refl _
  | error f =>
    refine ⟨fun hr => ?_, fun _ _ _ _ hr => ?_⟩
    · obtain ⟨b, u, -, hn⟩ := bind_ok_iff.mp hr
      cases hn
    · cases hr

end

/-! ## Paths -/

section

variable {ω : Type} {host : Host ω} {context : Value}

/-- The value of what denotes a place is what its path leads to. -/
theorem evaluate_of_fits {role : Role} {e : Expr} (h : role.fits e = true) :
    e.evaluate host context = (do
      let path ← e.pathOf host context role
      .ofExcept (context.lookup path)) := by
  cases e with
  | identifier name => rfl
  | self =>
    cases role with
    | object => rfl
    | callee => cases h
  | member object property computed =>
    cases computed with
    | true => simp only [evaluate, pathOf, if_true, bind_assoc, pure_bind]
    | false => simp only [evaluate, pathOf, Bool.false_eq_true, if_false, bind_assoc, pure_bind]
  | _ => cases role <;> cases h

/-- The key of a member: the name of its property, or the normal form of its value. -/
def keyOf (host : Host ω) (context : Value) (property : Expr) (computed : Bool) : Run ω Value :=
  if computed then do
    let k ← property.evaluate host context
    .ofExcept (normalKey k)
  else .ofExcept (nameKey property)

theorem evaluate_member {object property : Expr} {computed : Bool} :
    (member object property computed).evaluate host context = (do
      let front ← object.pathOf host context .object
      let key ← keyOf host context property computed
      .ofExcept (context.lookup (front ++ [key]))) := by
  cases computed with
  | true => simp only [evaluate, keyOf, if_true, bind_assoc]
  | false => simp only [evaluate, keyOf, Bool.false_eq_true, if_false]

theorem ofExcept_bind {α β : Type} (r : Except Fault α) (next : α → Except Fault β) :
    (Run.ofExcept (r >>= next) : Run ω β) = (do let a ← .ofExcept r; .ofExcept (next a)) := by
  cases r <;> rfl

/-- The last step of a chain is one from the value of its object. -/
theorem member_accords {object property : Expr} {computed : Bool}
    (h : Role.object.fits object = true) :
    Accords True ((member object property computed).evaluate host context) (do
      let v ← object.evaluate host context
      let key ← keyOf host context property computed
      .ofExcept (v.follow key)) := by
  rw [evaluate_member, evaluate_of_fits h, bind_assoc]
  refine accords_after _ fun front => ?_
  simp only [Value.lookup_concat, ofExcept_bind]
  exact accords_swap _ _ _

theorem not_ok_of_misfit {α : Type} {role : Role} {e : Expr} (h : role.fits e = false)
    {next : List Value → Run ω α} (w : ω) (a : α) (u : ω) :
    (e.pathOf host context role >>= next) w ≠ .ok a u := by
  rw [pathOf_of_misfit h]
  exact nofun

/-- What goes on with the function of a call, whichever way it was found. -/
theorem accords_function (path : List Value) (f : Value) (args : List Value) :
    Accords True
      (match f with
        | .function f => host.call f args
        | _ => .ofExcept (do .error (.misuse (.notAFunction (← pathText path)))))
      (match f with
        | .function f => host.call f args
        | _ => throw (.misuse .calleeKind)) := by
  cases f with
  | function f => exact accords_refl _
  | _ =>
    refine ⟨fun hr => ?_, fun _ _ _ _ hr => by cases hr⟩
    exact absurd (ofExcept_ok hr).1 (Likeness.notAFunction_fails path _)

theorem call_accords {callee : Expr} {arguments : List Expr}
    (h : Role.callee.fits callee = true) :
    Accords True ((call callee arguments).evaluate host context) (do
      let f ← callee.evaluate host context
      let args ← evaluateAll host context arguments
      match f with
      | .function f => host.call f args
      | _ => throw (.misuse .calleeKind)) := by
  simp only [evaluate]
  rw [evaluate_of_fits h, bind_assoc]
  exact accords_after _ fun path => accords_after _ fun f => accords_after _ fun args =>
    accords_function path f args

/-! ## Evaluations -/

mutual

/-- By induction on the tree. A step may be taken before the key of the next one is known, because
only the answer is looked at: a step that fails fails the whole chain in the end. -/
theorem evaluate_accords (e : Expr) :
    Accords (e.misplacement? = none) (e.evaluate host context) (e.stepwise host context) := by
  cases e with
  | literal value raw => exact accords_refl _
  | self => exact accords_refl _
  | identifier name =>
    simp only [evaluate, stepwise, Value.follow_eq]
    have hlookup : context.lookup [name.toValue] = context.part name.toValue := by
      rw [Value.lookup, List.foldlM_cons]
      cases context.part name.toValue <;> rfl
    rw [hlookup]
    exact accords_refl _
  | compound body =>
    simp only [evaluate, stepwise]
    exact evaluateLast_accords .null body
  | array elements =>
    simp only [evaluate, stepwise]
    exact accords_before (evaluateAll_accords elements) _
  | unary operator argument leading =>
    simp only [evaluate, stepwise]
    exact accords_after _ fun op => accords_before (evaluate_accords argument) _
  | binary operator left right | logical operator left right =>
    simp only [evaluate, stepwise, misplacement?, Option.or_eq_none_iff]
    exact accords_after _ fun op => accords_bind (evaluate_accords left) fun a =>
      accords_before (evaluate_accords right) _
  | conditional test consequent alternate =>
    simp only [evaluate, stepwise, misplacement?, Option.or_eq_none_iff]
    exact accords_bind (evaluate_accords test) fun t =>
      accords_bind (evaluate_accords consequent) fun a =>
        accords_before (evaluate_accords alternate) _
  | call callee arguments =>
    cases hfits : Role.callee.fits callee with
    | false =>
      simp only [evaluate]
      refine accords_of_fails (not_ok_of_misfit hfits) ?_
      simp [misplacement?, hfits]
    | true =>
      refine ((call_accords hfits).trans ?_).mono fun h => ⟨trivial, h⟩
      simp only [stepwise, misplacement?, hfits, if_true, Option.or_eq_none_iff]
      exact accords_bind (evaluate_accords callee) fun f =>
        accords_before (evaluateAll_accords arguments) _
  | member object property computed =>
    cases hfits : Role.object.fits object with
    | false =>
      rw [evaluate_member]
      refine accords_of_fails (not_ok_of_misfit hfits) ?_
      simp [misplacement?, hfits]
    | true =>
      refine ((member_accords hfits).trans ?_).mono fun h => ⟨trivial, h⟩
      simp only [stepwise, misplacement?, hfits, if_true, Option.or_eq_none_iff]
      refine accords_bind (evaluate_accords object) fun v => ?_
      cases computed with
      | true =>
        simp only [keyOf, if_true, bind_assoc]
        exact accords_before (evaluate_accords property) _
      | false => exact accords_refl _

theorem evaluateAll_accords (es : List Expr) :
    Accords (misplacementAmong? es = none) (evaluateAll host context es)
      (stepwiseAll host context es) := by
  cases es with
  | nil => exact accords_refl _
  | cons e rest =>
    simp only [evaluateAll, stepwiseAll, misplacementAmong?, Option.or_eq_none_iff]
    exact accords_bind (evaluate_accords e) fun v => accords_before (evaluateAll_accords rest) _

theorem evaluateLast_accords (last : Value) (es : List Expr) :
    Accords (misplacementAmong? es = none) (evaluateLast host context last es)
      (stepwiseLast host context last es) := by
  cases es with
  | nil => exact accords_refl _
  | cons e rest =>
    simp only [evaluateLast, stepwiseLast, misplacementAmong?, Option.or_eq_none_iff]
    exact accords_bind (evaluate_accords e) fun v => evaluateLast_accords v rest

end

end

/-! ## Walking a path is taking its steps -/

end Expr
end Switchboard
