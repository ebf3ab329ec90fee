-- Nodes out of place. A part is taken of a place only, and only a name or a part is called. Where
-- all functions answer and no number is too large, an evaluation fails exactly if such a node
-- stands anywhere in the tree, and the fault is that of the first one, whatever the context holds.
import Switchboard.Proofs.Limits
import Switchboard.Proofs.Eagerness
import Switchboard.Proofs.Operations
import Switchboard.Proofs.Rendering
namespace Switchboard

/-- What holds after a computation if it succeeds. -/
def Run.IfOk {ω α : Type} (act : Run ω α) (w : ω) (p : α → ω → Prop) : Prop :=
  ∀ a u, act w = .ok a u → p a u

theorem Run.ifOk_of_ok {ω α : Type} {act : Run ω α} {w u : ω} {a : α} {p : α → ω → Prop}
    (h : act w = .ok a u) (hp : p a u) : act.IfOk w p := by
  intro b v hb
  cases h.symm.trans hb
  exact hp

namespace Expr

open Conduct

/-! ## Places -/

/-- Does a node denote what is wanted? The context itself is a place, but nothing to call. -/
def Role.fits : Role → Expr → Bool
  | _, identifier _ => true
  | _, member .. => true
  | object, self => true
  | _, _ => false

/-- Why a node does not denote what is wanted. -/
def Role.complaint : Role → Expr → Misuse
  | object, e => .objectKind e.kind
  | callee, _ => .calleeKind

theorem misfit_eq (role : Role) (e : Expr) : role.misfit e = .misuse (role.complaint e) := by
  cases role <;> rfl

/-- Is a node a part of what is no place, or a call of what cannot be called? -/
def isMisplaced : Expr → Bool
  | member object _ _ => !Role.object.fits object
  | call callee _ => !Role.callee.fits callee
  | _ => false

/-- The nodes right below a node. -/
def children : Expr → List Expr
  | literal .. | identifier _ | self => []
  | member object property _ => [object, property]
  | unary _ argument _ => [argument]
  | binary _ left right => [left, right]
  | logical _ left right => [left, right]
  | conditional test consequent alternate => [test, consequent, alternate]
  | call callee arguments => callee :: arguments
  | array elements => elements
  | compound body => body

/-- Does a node stand in a tree, at whatever depth? -/
inductive Within (node : Expr) : Expr → Prop
  | here : Within node node
  | inside {child tree : Expr} : child ∈ tree.children → Within node child → Within node tree

/-- Is no node of a tree out of place? -/
def Placed (e : Expr) : Prop := ∀ node, Within node e → node.isMisplaced = false

mutual

/-- What is wrong with the first node of a tree that is out of place, in the order of evaluation. -/
def misplacement? : Expr → Option Misuse
  | literal .. | identifier _ | self => none
  | member object property _ =>
    (if Role.object.fits object then misplacement? object
      else some (Role.object.complaint object)).or (misplacement? property)
  | unary _ argument _ => misplacement? argument
  | binary _ left right => (misplacement? left).or (misplacement? right)
  | logical _ left right => (misplacement? left).or (misplacement? right)
  | conditional test consequent alternate =>
    (misplacement? test).or ((misplacement? consequent).or (misplacement? alternate))
  | call callee arguments =>
    (if Role.callee.fits callee then misplacement? callee
      else some (Role.callee.complaint callee)).or (misplacementAmong? arguments)
  | array elements => misplacementAmong? elements
  | compound body => misplacementAmong? body

def misplacementAmong? : List Expr → Option Misuse
  | [] => none
  | e :: rest => (misplacement? e).or (misplacementAmong? rest)

end

/-- The first misplacement on the way to what a node denotes. -/
def misplacementAs? (role : Role) (e : Expr) : Option Misuse :=
  if role.fits e then misplacement? e else some (role.complaint e)

theorem misplacementAs?_eq_none (role : Role) (e : Expr) :
    misplacementAs? role e = none ↔ role.fits e = true ∧ misplacement? e = none := by
  unfold misplacementAs?
  split <;> simp_all

theorem placed_iff (e : Expr) :
    e.Placed ↔ e.isMisplaced = false ∧ ∀ child ∈ e.children, child.Placed := by
  constructor
  · intro h
    exact ⟨h e .here, fun child hc node hn => h node (.inside hc hn)⟩
  · intro h node hn
    cases hn with
    | here => exact h.1
    | inside hc hn => exact h.2 _ hc node hn

mutual

/-- No node is out of place exactly if there is no first one that is. -/
theorem misplacement?_eq_none (e : Expr) : e.misplacement? = none ↔ e.Placed := by
  rw [placed_iff]
  cases e with
  | literal value raw | identifier name | self => simp [misplacement?, isMisplaced, children]
  | member object property computed =>
    have ho := misplacement?_eq_none object
    have hp := misplacement?_eq_none property
    have hrole := misplacementAs?_eq_none .object object
    unfold misplacementAs? at hrole
    simp only [misplacement?, isMisplaced, children, Option.or_eq_none_iff, hrole, ho, hp,
      Bool.not_eq_false', List.forall_mem_cons, List.not_mem_nil, false_imp_iff, implies_true,
      and_true, and_assoc]
  | unary operator argument leading =>
    have ha := misplacement?_eq_none argument
    simp [misplacement?, isMisplaced, children, ha]
  | binary operator left right | logical operator left right =>
    have hl := misplacement?_eq_none left
    have hr := misplacement?_eq_none right
    simp [misplacement?, isMisplaced, children, hl, hr]
  | conditional test consequent alternate =>
    have ht := misplacement?_eq_none test
    have hc := misplacement?_eq_none consequent
    have ha := misplacement?_eq_none alternate
    simp [misplacement?, isMisplaced, children, ht, hc, ha]
  | call callee arguments =>
    have hf := misplacement?_eq_none callee
    have ha := misplacementAmong?_eq_none arguments
    have hrole := misplacementAs?_eq_none .callee callee
    unfold misplacementAs? at hrole
    simp only [misplacement?, isMisplaced, children, Option.or_eq_none_iff, hrole, hf, ha,
      Bool.not_eq_false', List.forall_mem_cons, and_assoc]
  | array es | compound es =>
    have hes := misplacementAmong?_eq_none es
    simp [misplacement?, isMisplaced, children, hes]

theorem misplacementAmong?_eq_none (es : List Expr) :
    misplacementAmong? es = none ↔ ∀ e ∈ es, e.Placed := by
  cases es with
  | nil => simp [misplacementAmong?]
  | cons e rest =>
    have he := misplacement?_eq_none e
    have hr := misplacementAmong?_eq_none rest
    simp only [misplacementAmong?, Option.or_eq_none_iff, he, hr, List.forall_mem_cons]

end

/-! ## Calls that answer -/

section

variable {ω : Type} (host : Host ω) (context : Value)

mutual

/-- Does every call answer that the evaluation of a tree comes to? If the path of its callee is
resolved, it leads to a function, and that returns. -/
def CallsAnswer : Expr → ω → Prop
  | literal .., _ => True
  | identifier _, _ => True
  | self, _ => True
  | member object property computed, w =>
    (Role.object.fits object = true → CallsAnswer object w) ∧
      (object.pathOf host context .object).IfOk w fun _ u =>
        computed = true → CallsAnswer property u
  | unary _ argument _, w => CallsAnswer argument w
  | binary _ left right, w =>
    CallsAnswer left w ∧ (left.evaluate host context).IfOk w fun _ u => CallsAnswer right u
  | logical _ left right, w =>
    CallsAnswer left w ∧ (left.evaluate host context).IfOk w fun _ u => CallsAnswer right u
  | conditional test consequent alternate, w =>
    CallsAnswer test w ∧ (test.evaluate host context).IfOk w fun _ u =>
      CallsAnswer consequent u ∧ (consequent.evaluate host context).IfOk u fun _ v =>
        CallsAnswer alternate v
  | call callee arguments, w =>
    (Role.callee.fits callee = true → CallsAnswer callee w) ∧
      (callee.pathOf host context .callee).IfOk w fun path u =>
        ∀ target, context.lookup path = .ok target → ∃ f, target = .function f ∧
          AllCallsAnswer arguments u ∧ (evaluateAll host context arguments).IfOk u fun args v =>
            ∃ result t, host.call f args v = .ok result t
  | array elements, w => AllCallsAnswer elements w
  | compound body, w => AllCallsAnswer body w

def AllCallsAnswer : List Expr → ω → Prop
  | [], _ => True
  | e :: rest, w =>
    CallsAnswer e w ∧ (e.evaluate host context).IfOk w fun _ u => AllCallsAnswer rest u

end

end

/-- A call that comes to a result answers. -/
theorem callsAnswer_call {ω : Type} {host : Host ω} {context : Value} {callee : Expr}
    {arguments : List Expr} {path args : List Value} {f : Function} {result : Value}
    {w u v t : ω} (hc : CallsAnswer host context callee w)
    (hpath : callee.pathOf host context .callee w = .ok path u)
    (htarget : context.lookup path = .ok (.function f))
    (ha : AllCallsAnswer host context arguments u)
    (hargs : evaluateAll host context arguments u = .ok args v)
    (hr : host.call f args v = .ok result t) :
    CallsAnswer host context (call callee arguments) w := by
  refine ⟨fun _ => hc, Run.ifOk_of_ok hpath fun target h => ?_⟩
  cases htarget.symm.trans h
  exact ⟨f, rfl, ha, Run.ifOk_of_ok hargs ⟨result, t, hr⟩⟩

/-! ## What a result tells -/

/-- Does a computation tell whether there is a misplacement? If it succeeds there is none; and where
calls answer, a fault is a limit of numbers or that of the misplacement. -/
structure Tells {ω α : Type} (answers : Prop) (misplacement : Option Misuse) (act : Run ω α)
    (w : ω) : Prop where
  ok : ∀ {a u}, act w = .ok a u → misplacement = none
  error : ∀ {f u}, act w = .error f u → answers →
    f.isLimit = true ∨ ∃ cause, misplacement = some cause ∧ f = .misuse cause

section

variable {ω α β : Type} {answers : Prop} {first second : Option Misuse} {w : ω}

theorem tells_pure (a : α) : Tells answers none (pure a : Run ω α) w :=
  ⟨fun _ => rfl, nofun⟩

theorem tells_misuse (cause : Misuse) :
    Tells answers (some cause) (throw (.misuse cause) : Run ω α) w := by
  refine ⟨nofun, fun h _ => ?_⟩
  cases h
  exact .inr ⟨cause, rfl, rfl⟩

theorem tells_ofExcept {r : Except Fault α} (h : Limited r) :
    Tells answers none (Run.ofExcept r : Run ω α) w := by
  cases r with
  | ok a => exact tells_pure a
  | error f =>
    refine ⟨nofun, fun hf _ => ?_⟩
    cases hf
    exact .inl (h f rfl)

theorem Tells.mono {act : Run ω α} {answers' : Prop} (h : Tells answers first act w)
    (ha : answers' → answers) : Tells answers' first act w :=
  ⟨h.ok, fun hf h' => h.error hf (ha h')⟩

theorem tells_bind {act : Run ω α} {next : α → Run ω β} {then' : α → ω → Prop}
    (h : Tells answers first act w)
    (hn : ∀ a u, act w = .ok a u → Tells (then' a u) second (next a) u) :
    Tells (answers ∧ act.IfOk w then') (first.or second) (act >>= next) w := by
  cases hr : act w with
  | ok a u =>
    have hu := hn a u hr
    refine ⟨fun hb => ?_, fun hf ha => ?_⟩
    · rw [bind_ok hr] at hb
      rw [h.ok hr, hu.ok hb]
      rfl
    · rw [bind_ok hr] at hf
      rw [h.ok hr, Option.none_or]
      exact hu.error hf (ha.2 a u hr)
  | error f u =>
    refine ⟨fun hb => ?_, fun hf ha => ?_⟩
    · rw [bind_error hr] at hb
      cases hb
    · rw [bind_error hr] at hf
      cases hf
      rcases h.error hr ha.1 with hlimit | ⟨cause, hfirst, hf⟩
      · exact .inl hlimit
      · rw [hfirst]
        exact .inr ⟨cause, rfl, hf⟩

/-- What cannot be misplaced may come before what can, or after it. -/
theorem tells_after {act : Run ω α} {next : α → Run ω β} (h : Tells True none act w)
    (hn : ∀ a u, act w = .ok a u → Tells answers second (next a) u) :
    Tells answers second (act >>= next) w :=
  (tells_bind h hn).mono fun ha => ⟨trivial, fun _ _ _ => ha⟩

theorem tells_before {act : Run ω α} {next : α → Run ω β} (h : Tells answers first act w)
    (hn : ∀ a u, act w = .ok a u → Tells True none (next a) u) :
    Tells answers first (act >>= next) w := by
  have hbind := tells_bind h hn
  rw [Option.or_none] at hbind
  exact hbind.mono fun ha => ⟨ha, fun _ _ _ => trivial⟩

end

/-! ## Keys -/

theorem normalKey_hashable {v key : Value} (h : normalKey v = .ok key) :
    key.isHashable = true := by
  unfold normalKey at h
  split at h
  · cases h
    cases Binary64.toInt? _ <;> rfl
  · cases h
    rfl
  · obtain ⟨text, -, hkey⟩ := ok_of_bind_ok h
    cases hkey
    rfl

section

variable {ω : Type} {host : Host ω} {context : Value}

/-- The keys of a path can be keys of a table. -/
theorem pathOf_hashable {e : Expr} (h : WellShaped e) {role : Role} {path : List Value} {w u : ω}
    (hr : e.pathOf host context role w = .ok path u) : ∀ key ∈ path, key.isHashable = true := by
  induction h generalizing role path u with
  | identifier =>
    cases hr
    exact List.forall_mem_singleton.mpr rfl
  | self =>
    cases role with
    | object =>
      cases hr
      exact List.forall_mem_nil _
    | callee => cases hr
  | member _ _ ih =>
    simp only [pathOf, Bool.false_eq_true, if_false] at hr
    obtain ⟨front, v, hfront, hr⟩ := bind_ok_inv hr
    cases hr
    exact List.forall_mem_append.mpr ⟨ih hfront, List.forall_mem_singleton.mpr rfl⟩
  | index _ _ ih _ =>
    simp only [pathOf, if_true] at hr
    obtain ⟨front, v, hfront, hr⟩ := bind_ok_inv hr
    obtain ⟨value, v', -, hr⟩ := bind_ok_inv hr
    obtain ⟨key, v'', hkey, hr⟩ := bind_ok_inv hr
    cases hr
    have hhashable := normalKey_hashable (ofExcept_ok hkey).1
    exact List.forall_mem_append.mpr ⟨ih hfront, List.forall_mem_singleton.mpr hhashable⟩
  | unary => cases hr
  | @binary op =>
    unfold ofBinary at hr
    split at hr <;> cases hr
  | _ => cases hr

/-! ## Evaluations -/

theorem tells_fresh (hfresh : ∀ w, ∃ n u, host.fresh w = .ok n u) (w : ω) :
    Tells True none host.fresh w := by
  obtain ⟨n, u, hr⟩ := hfresh w
  refine ⟨fun _ => rfl, fun hf => ?_⟩
  rw [hr] at hf
  cases hf

/-- Does the evaluation of a tree tell whether a node of it is out of place? -/
def EvaluationTells (host : Host ω) (context : Value) (e : Expr) : Prop :=
  ∀ w, Tells (CallsAnswer host context e w) e.misplacement? (e.evaluate host context) w

/-- Does the path of a tree? -/
def PathTells (host : Host ω) (context : Value) (e : Expr) : Prop :=
  ∀ role w, Tells (role.fits e = true → CallsAnswer host context e w) (misplacementAs? role e)
    (e.pathOf host context role) w

theorem pathOf_of_misfit {role : Role} {e : Expr} (h : role.fits e = false) :
    e.pathOf host context role = throw (role.misfit e) := by
  cases e with
  | identifier name => cases role <;> cases h
  | member object property computed => cases role <;> cases h
  | self =>
    cases role with
    | object => cases h
    | callee => rfl
  | _ => rfl

theorem tells_misfit {role : Role} {e : Expr} (h : role.fits e = false) {answers : Prop} (w : ω) :
    Tells answers (misplacementAs? role e) (e.pathOf host context role) w := by
  rw [pathOf_of_misfit h, misplacementAs?, h, misfit_eq]
  exact tells_misuse _

theorem tells_evaluateAll {es : List Expr} (h : ∀ e ∈ es, EvaluationTells host context e) (w : ω) :
    Tells (AllCallsAnswer host context es w) (misplacementAmong? es)
      (evaluateAll host context es) w := by
  induction es generalizing w with
  | nil => exact tells_pure []
  | cons e rest ih =>
    rw [List.forall_mem_cons] at h
    exact tells_bind (h.1 w) fun v u _ => tells_before (ih h.2 u) fun _ _ _ => tells_pure _

theorem tells_evaluateLast {es : List Expr} (h : ∀ e ∈ es, EvaluationTells host context e)
    (last : Value) (w : ω) :
    Tells (AllCallsAnswer host context es w) (misplacementAmong? es)
      (evaluateLast host context last es) w := by
  induction es generalizing last w with
  | nil => exact tells_pure last
  | cons e rest ih =>
    rw [List.forall_mem_cons] at h
    exact tells_bind (h.1 w) fun v u _ => ih h.2 v u

/-- What goes on with the object and the key of a member. -/
theorem tells_member {α : Type} {object property : Expr} {computed : Bool} {w : ω}
    {next : List Value → Value → Run ω α} (hs : WellShaped object)
    (ho : PathTells host context object)
    (hp : computed = true → EvaluationTells host context property)
    (hname : computed = false → ∃ s, property = identifier (.text s))
    (hn : ∀ front key u, (∀ k ∈ front ++ [key], k.isHashable = true) →
      Tells True none (next front key) u) :
    Tells (CallsAnswer host context (member object property computed) w)
      (misplacement? (member object property computed))
      (do
        let front ← object.pathOf host context .object
        if computed then do
          let v ← property.evaluate host context
          let key ← .ofExcept (normalKey v)
          next front key
        else do
          let key ← .ofExcept (nameKey property)
          next front key) w := by
  have hkeys : ∀ {front : List Value} {key : Value}, (∀ k ∈ front, k.isHashable = true) →
      key.isHashable = true → ∀ k ∈ front ++ [key], k.isHashable = true := fun hf hk =>
    List.forall_mem_append.mpr ⟨hf, List.forall_mem_singleton.mpr hk⟩
  refine tells_bind (ho .object w) fun front u hfront => ?_
  have hhashable := pathOf_hashable hs hfront
  cases computed with
  | true =>
    refine (tells_before (hp rfl u) fun v t _ => ?_).mono fun h => h rfl
    refine tells_after (tells_ofExcept (limited_normalKey v)) fun key t' hkey => ?_
    exact hn front key t' (hkeys hhashable (normalKey_hashable (ofExcept_ok hkey).1))
  | false =>
    obtain ⟨s, rfl⟩ := hname rfl
    exact (hn front (.text s) u (hkeys hhashable rfl)).mono fun _ => trivial

theorem evaluation_tells_member {object property : Expr} {computed : Bool}
    (hs : WellShaped object) (ho : PathTells host context object)
    (hp : computed = true → EvaluationTells host context property)
    (hname : computed = false → ∃ s, property = identifier (.text s)) :
    EvaluationTells host context (member object property computed) ∧
      PathTells host context (member object property computed) := by
  constructor
  · intro w
    simp only [evaluate]
    exact tells_member hs ho hp hname fun front key u hk =>
      tells_ofExcept (Value.limited_lookup context hk)
  · intro role w
    have hfits : role.fits (member object property computed) = true := by cases role <;> rfl
    rw [misplacementAs?, if_pos hfits]
    simp only [pathOf]
    exact (tells_member hs ho hp hname fun front key u _ => tells_pure _).mono fun h => h hfits

/-- What goes on with the function of a call. -/
theorem tells_call {arguments : List Expr}
    (ha : ∀ e ∈ arguments, EvaluationTells host context e) (target : Value) {path : List Value}
    (htarget : context.lookup path = .ok target) {w : ω} :
    Tells
      (∀ target, context.lookup path = .ok target → ∃ f, target = .function f ∧
        AllCallsAnswer host context arguments w ∧
          (evaluateAll host context arguments).IfOk w fun args v =>
            ∃ result t, host.call f args v = .ok result t)
      (misplacementAmong? arguments)
      (do
        let args ← evaluateAll host context arguments
        match target with
        | .function f => host.call f args
        | _ => .ofExcept (do .error (.misuse (.notAFunction (← pathText path))))) w := by
  have hcall : ∀ args v, Tells
      (∃ f, target = .function f ∧ ∃ result t, host.call f args v = .ok result t) none
      (match target with
        | .function f => host.call f args
        | _ => .ofExcept (do .error (.misuse (.notAFunction (← pathText path))))) v := by
    intro args v
    refine ⟨fun _ => rfl, fun hf hanswer => ?_⟩
    obtain ⟨f, rfl, result, t, hr⟩ := hanswer
    cases hr.symm.trans hf
  have hbind := tells_bind (tells_evaluateAll ha w) fun args v _ => hcall args v
  rw [Option.or_none] at hbind
  refine hbind.mono fun h => ?_
  obtain ⟨f, rfl, hargs, hreturns⟩ := h target htarget
  exact ⟨hargs, fun args v hv => ⟨f, rfl, hreturns args v hv⟩⟩

/-- By induction on the shape of the tree, with the paths that it can be taken for. -/
theorem tells_wellShaped (hfresh : ∀ w, ∃ n u, host.fresh w = .ok n u) {e : Expr}
    (h : WellShaped e) : EvaluationTells host context e ∧ PathTells host context e := by
  have hmisfit : ∀ {e : Expr}, (∀ role, Role.fits role e = false) → PathTells host context e :=
    fun hf role w => tells_misfit (hf role) w
  induction h with
  | number | hexNumber | quoted | keyword =>
    exact ⟨fun w => tells_pure _, hmisfit fun role => by cases role <;> rfl⟩
  | identifier =>
    refine ⟨fun w => tells_ofExcept ?_, fun role w => ?_⟩
    · exact Value.limited_lookup context (List.forall_mem_singleton.mpr rfl)
    · cases role <;> exact tells_pure _
  | self =>
    refine ⟨fun w => tells_pure _, fun role w => ?_⟩
    cases role with
    | object => exact tells_pure _
    | callee => exact tells_misfit rfl w
  | member ho _ ih =>
    exact evaluation_tells_member ho ih.2 nofun fun _ => ⟨_, rfl⟩
  | index ho _ iho ihp =>
    exact evaluation_tells_member ho iho.2 (fun _ => ihp.1) nofun
  | @call callee arguments hc _ ihc iha =>
    refine ⟨fun w => ?_, hmisfit fun role => by cases role <;> rfl⟩
    simp only [evaluate]
    refine tells_bind (ihc.2 .callee w) fun path u hpath => ?_
    have hlookup := Value.limited_lookup context (pathOf_hashable hc hpath)
    refine tells_after (tells_ofExcept hlookup) fun target u' hr => ?_
    obtain ⟨htarget, rfl⟩ := ofExcept_ok hr
    exact tells_call (fun e he => (iha e he).1) target htarget
  | array _ ih =>
    refine ⟨fun w => ?_, hmisfit fun role => by cases role <;> rfl⟩
    simp only [evaluate]
    exact tells_before (tells_evaluateAll (fun e he => (ih e he).1) w) fun items u _ =>
      tells_after (tells_fresh hfresh u) fun _ _ _ => tells_pure _
  | @unary op e _ ih =>
    refine ⟨fun w => ?_, hmisfit fun role => by cases role <;> rfl⟩
    rw [evaluate_ofUnary]
    exact tells_before (ih.1 w) fun v u _ => tells_ofExcept (Value.limited_unary op v)
  | @binary op l r _ _ ihl ihr =>
    refine ⟨fun w => ?_, hmisfit fun role => ?_⟩
    · rw [evaluate_ofBinary]
      have hbind := tells_bind (ihl.1 w) fun a u _ => tells_before (ihr.1 u) fun b t _ =>
        tells_ofExcept (Value.limited_binary op a b)
      unfold ofBinary
      split <;> exact hbind
    · unfold ofBinary
      split <;> cases role <;> rfl
  | conditional _ _ _ iht ihc iha =>
    refine ⟨fun w => ?_, hmisfit fun role => by cases role <;> rfl⟩
    simp only [evaluate]
    refine tells_bind (iht.1 w) fun v u _ => tells_bind (ihc.1 u) fun a t _ => ?_
    exact tells_before (iha.1 t) fun b t' _ =>
      tells_after (tells_ofExcept (Value.limited_isTruthy v)) fun _ _ _ => tells_pure _
  | compound _ _ ih =>
    refine ⟨fun w => ?_, hmisfit fun role => by cases role <;> rfl⟩
    simp only [evaluate]
    exact tells_evaluateLast (fun e he => (ih e he).1) .null w

end

/-! ## Faults of the tree -/

/-- An evaluation whose calls answer and that meets no limit of numbers fails exactly if a node is
out of place anywhere in the tree. Nothing else fails it, and how it fails is told from the tree
too. -/
theorem whether_an_evaluation_fails_is_told_by_its_tree {text : String} {e : Expr}
    (hp : Expr.parse text = .ok e) {ω : Type} {host : Host ω}
    (hfresh : ∀ w, ∃ n u, host.fresh w = .ok n u) {context : Value} {w : ω}
    (hcalls : e.CallsAnswer host context w)
    (hlimits : ∀ f t, e.evaluate host context w = .error f t → f.isLimit = false) :
    ((∃ cause t, e.evaluate host context w = .error (.misuse cause) t) ↔
      ∃ node, Within node e ∧ node.isMisplaced = true) ∧
    ((∃ v t, e.evaluate host context w = .ok v t) ↔
      ¬ ∃ node, Within node e ∧ node.isMisplaced = true) ∧
    ∀ f t, e.evaluate host context w = .error f t →
      ∃ cause, e.misplacement? = some cause ∧ f = .misuse cause := by
  obtain ⟨htells, -⟩ : EvaluationTells host context e ∧ PathTells host context e :=
    tells_wellShaped hfresh (wellShaped_of_parse hp)
  have hplaced : e.misplacement? = none ↔ ¬ ∃ node, Within node e ∧ node.isMisplaced = true := by
    rw [misplacement?_eq_none, Placed]
    simp
  have hfault : ∀ f t, e.evaluate host context w = .error f t →
      ∃ cause, e.misplacement? = some cause ∧ f = .misuse cause := by
    intro f t hf
    rcases (htells w).error hf hcalls with hlimit | hcause
    · rw [hlimits f t hf] at hlimit
      cases hlimit
    · exact hcause
  cases hr : e.evaluate host context w with
  | ok v t =>
    have hnone := hplaced.mp ((htells w).ok hr)
    exact ⟨⟨nofun, fun h => absurd h hnone⟩, ⟨fun _ => hnone, fun _ => ⟨v, t, rfl⟩⟩, nofun⟩
  | error f t =>
    obtain ⟨cause, hcause, rfl⟩ := hfault f t hr
    have hsome : ∃ node, Within node e ∧ node.isMisplaced = true := by
      by_contra h
      rw [hplaced.mpr h] at hcause
      cases hcause
    refine ⟨⟨fun _ => hsome, fun _ => ⟨cause, t, rfl⟩⟩, ⟨nofun, fun h => absurd hsome h⟩, ?_⟩
    intro g u hg
    cases hg
    exact ⟨cause, hcause, rfl⟩

/-- The tree of `fns[pick('f')](x) ? one('a') : [two().y]`. -/
def partOfCall : Expr :=
  .conditional
    (.call (.member (.identifier (.text "fns"))
      (.call (.identifier (.text "pick")) [.literal (.text "f") (.text "'f'")]) true)
      [.identifier (.text "x")])
    (.call (.identifier (.text "one")) [.literal (.text "a") (.text "'a'")])
    (.array [.member (.call (.identifier (.text "two")) []) (.identifier (.text "y")) false])

theorem partOfCall_answers : partOfCall.CallsAnswer echo callables 9 := by
  have hpick : CallsAnswer echo callables
      (.call (.identifier (.text "pick")) [.literal (.text "f") (.text "'f'")]) 9 :=
    callsAnswer_call trivial rfl rfl ⟨trivial, Run.ifOk_of_ok rfl trivial⟩ rfl rfl
  refine ⟨callsAnswer_call ?_ rfl rfl ?_ rfl rfl, Run.ifOk_of_ok rfl ⟨?_, Run.ifOk_of_ok rfl ?_⟩⟩
  · exact ⟨fun _ => trivial, Run.ifOk_of_ok rfl fun _ => hpick⟩
  · exact ⟨trivial, Run.ifOk_of_ok rfl trivial⟩
  · exact callsAnswer_call trivial rfl rfl ⟨trivial, Run.ifOk_of_ok rfl trivial⟩ rfl rfl
  · exact ⟨⟨nofun, fun _ _ h => by cases h⟩, fun _ _ h => by cases h⟩

/-- A part is taken of a call, in an array that is not even chosen if there is an `x`. -/
theorem a_part_of_a_call_fails_the_choice :
    Expr.parse "fns[pick('f')](x) ? one('a') : [two().y]" = .ok partOfCall ∧
      (∃ cause t, partOfCall.evaluate echo callables 9 = .error (.misuse cause) t) ∧
      partOfCall.misplacement? = some (.objectKind "CallExpression") := by
  have hp : Expr.parse "fns[pick('f')](x) ? one('a') : [two().y]" = .ok partOfCall := by rfl
  have hfresh : ∀ w, ∃ n u, echo.fresh w = .ok n u := fun w => ⟨w, w + 1, rfl⟩
  have hlimits : ∀ f t, partOfCall.evaluate echo callables 9 = .error f t → f.isLimit = false := by
    intro f t h
    cases h
    rfl
  obtain ⟨hfails, -, -⟩ :=
    whether_an_evaluation_fails_is_told_by_its_tree hp hfresh partOfCall_answers hlimits
  exact ⟨hp, hfails.mpr ⟨_, .inside (.tail _ (.tail _ (.head _))) (.inside (.head _) .here), rfl⟩,
    rfl⟩

end Expr
end Switchboard
