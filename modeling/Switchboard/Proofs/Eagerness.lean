-- Evaluation is eager. The functions that an evaluation calls are those of the calls in the tree,
-- each once, in the order in which they stand there: those inside a callee and the arguments first,
-- then the call, from left to right, whatever the operands are. If a fault comes, it comes after
-- the first of them.
import Switchboard.Proofs.Dependencies
import Switchboard.Proofs.Projection
namespace Switchboard.Expr

open Conduct

/-! ## The calls of a tree -/

mutual

/-- The calls in a tree, each after those inside it. -/
def callNodes : Expr → List Expr
  | literal .. => []
  | identifier _ => []
  | self => []
  | member object property _ => callNodes object ++ callNodes property
  | unary _ argument _ => callNodes argument
  | binary _ left right => callNodes left ++ callNodes right
  | logical _ left right => callNodes left ++ callNodes right
  | conditional test consequent alternate =>
    callNodes test ++ (callNodes consequent ++ callNodes alternate)
  | call callee arguments =>
    callNodes callee ++ (callNodesAll arguments ++ [call callee arguments])
  | array elements => callNodesAll elements
  | compound body => callNodesAll body

def callNodesAll : List Expr → List Expr
  | [] => []
  | e :: rest => callNodes e ++ callNodesAll rest

end

/-- Functions that are called, with what they are called on. -/
abbrev CallLog := List (Function × List Value)

section

variable {ω : Type} (host : Host ω) (context : Value)

/-- Is a call that is made when those of a log have been made the one of a node? The path of the
callee leads to its function, and it is made on what the arguments have come to just before. -/
inductive Called (log : CallLog) : Expr → Function × List Value → Prop
  | mk {callee : Expr} {arguments : List Expr} {path args : List Value} {f : Function}
    {s t : ω × CallLog} {w : ω}
    (found : callee.pathOf host.recorded context .callee s = .ok path t)
    (function : context.lookup path = .ok (.function f))
    (given : evaluateAll host.recorded context arguments t = .ok args (w, log)) :
    Called log (call callee arguments) (f, args)

/-- Are the calls of a log those of some nodes, one after the other? -/
inductive InOrder : List Expr → CallLog → Prop
  | nil : InOrder [] []
  | snoc {nodes : List Expr} {log : CallLog} {node : Expr}
    {made : Function × List Value} : InOrder nodes log → Called host context log node made →
    InOrder (nodes ++ [node]) (log ++ [made])

/-- Does a recorded computation, from a certain state, do what the plain one does, and call some
nodes on the way, in order? Before a fault it calls the first of them. -/
structure Calls {α : Type} (nodes : List Expr) (act : Run (ω × CallLog) α)
    (plain : Run ω α) (s : ω × CallLog) : Prop where
  same : Run.project Prod.fst (act s) = plain s.1
  all : ∀ {a t}, act s = .ok a t → ∀ {done}, InOrder host context done s.2 →
    InOrder host context (done ++ nodes) t.2
  some : ∀ {f t}, act s = .error f t → ∀ {done}, InOrder host context done s.2 →
    ∃ first, first <+: nodes ∧ InOrder host context (done ++ first) t.2

end

/-! ## Parts of an evaluation -/

section

variable {ω α β : Type} {host : Host ω} {context : Value} {nodes more : List Expr}
  {s : ω × CallLog}

theorem calls_of_ok {act : Run (ω × CallLog) α} {plain : Run ω α} {a : α} {t : ω × CallLog}
    (hr : act s = .ok a t) (hplain : plain s.1 = .ok a t.1)
    (hin : ∀ {done}, InOrder host context done s.2 → InOrder host context (done ++ nodes) t.2) :
    Calls host context nodes act plain s := by
  refine ⟨by rw [hr, hplain]; rfl, fun h => ?_, fun h => ?_⟩ <;> rw [hr] at h <;> cases h
  exact hin

theorem calls_of_error {act : Run (ω × CallLog) α} {plain : Run ω α} {f : Fault}
    {t : ω × CallLog} (hr : act s = .error f t) (hplain : plain s.1 = .error f t.1)
    (hin : ∀ {done}, InOrder host context done s.2 →
      ∃ first, first <+: nodes ∧ InOrder host context (done ++ first) t.2) :
    Calls host context nodes act plain s := by
  refine ⟨by rw [hr, hplain]; rfl, fun h => ?_, fun h => ?_⟩ <;> rw [hr] at h <;> cases h
  exact hin

theorem calls_pure (a : α) : Calls host context [] (pure a) (pure a) s :=
  calls_of_ok rfl rfl fun hd => by rwa [List.append_nil]

theorem calls_throw (f : Fault) : Calls host context nodes (throw f : Run _ α) (throw f) s :=
  calls_of_error rfl rfl fun hd => ⟨[], List.nil_prefix, by rwa [List.append_nil]⟩

theorem calls_ofExcept (r : Except Fault α) :
    Calls host context [] (Run.ofExcept r) (Run.ofExcept r) s := by
  cases r with
  | ok a => exact calls_pure a
  | error f => exact calls_throw f

theorem calls_bind {act : Run (ω × CallLog) α} {plain : Run ω α}
    {next : α → Run (ω × CallLog) β} {plainly : α → Run ω β}
    (h : Calls host context nodes act plain s)
    (hn : ∀ {a t}, act s = .ok a t → Calls host context more (next a) (plainly a) t) :
    Calls host context (nodes ++ more) (act >>= next) (plain >>= plainly) s := by
  have hsame := h.same
  cases hr : act s with
  | ok a t =>
    have ht := hn hr
    rw [hr] at hsame
    refine ⟨?_, fun {b u} hb done hd => ?_, fun {f u} hf done hd => ?_⟩
    · rw [bind_ok hr, bind_ok hsame.symm]
      exact ht.same
    · rw [bind_ok hr] at hb
      rw [← List.append_assoc]
      exact ht.all hb (h.all hr hd)
    · rw [bind_ok hr] at hf
      obtain ⟨first, hfirst, hin⟩ := ht.some hf (h.all hr hd)
      refine ⟨nodes ++ first, (List.prefix_append_right_inj nodes).mpr hfirst, ?_⟩
      rwa [← List.append_assoc]
  | error f t =>
    rw [hr] at hsame
    refine calls_of_error (bind_error hr) (bind_error hsame.symm) fun hd => ?_
    obtain ⟨first, hfirst, hin⟩ := h.some hr hd
    exact ⟨first, hfirst.trans (List.prefix_append _ _), hin⟩

/-- What calls nothing may come before what calls something, or after it. -/
theorem calls_after {act : Run (ω × CallLog) α} {plain : Run ω α}
    {next : α → Run (ω × CallLog) β} {plainly : α → Run ω β}
    (h : Calls host context [] act plain s)
    (hn : ∀ {a t}, act s = .ok a t → Calls host context nodes (next a) (plainly a) t) :
    Calls host context nodes (act >>= next) (plain >>= plainly) s := calls_bind h hn

theorem calls_before {act : Run (ω × CallLog) α} {plain : Run ω α}
    {next : α → Run (ω × CallLog) β} {plainly : α → Run ω β}
    (h : Calls host context nodes act plain s)
    (hn : ∀ {a t}, Calls host context [] (next a) (plainly a) t) :
    Calls host context nodes (act >>= next) (plain >>= plainly) s := by
  have hbind := calls_bind h fun {a t} _ => hn (a := a) (t := t)
  rwa [List.append_nil] at hbind

theorem calls_fresh : Calls host context [] host.recorded.fresh host.fresh s := by
  obtain ⟨w, log⟩ := s
  cases hr : host.fresh w with
  | ok n v =>
    have hrecorded : host.recorded.fresh (w, log) = .ok n (v, log) := by
      simp only [Host.recorded, hr]
    exact calls_of_ok hrecorded hr fun hd => by rwa [List.append_nil]
  | error f v =>
    have hrecorded : host.recorded.fresh (w, log) = .error f (v, log) := by
      simp only [Host.recorded, hr]
    exact calls_of_error hrecorded hr fun hd => ⟨[], List.nil_prefix, by rwa [List.append_nil]⟩

/-- A call is noted whether or not it ends in a fault. -/
theorem calls_call {node : Expr} {f : Function} {args : List Value}
    (h : Called host context s.2 node (f, args)) :
    Calls host context [node] (host.recorded.call f args) (host.call f args) s := by
  obtain ⟨w, log⟩ := s
  cases hr : host.call f args w with
  | ok a v =>
    have hrecorded : host.recorded.call f args (w, log) = .ok a (v, log ++ [(f, args)]) := by
      simp only [Host.recorded, hr]
    exact calls_of_ok hrecorded hr fun hd => .snoc hd h
  | error e v =>
    have hrecorded : host.recorded.call f args (w, log) = .error e (v, log ++ [(f, args)]) := by
      simp only [Host.recorded, hr]
    exact calls_of_error hrecorded hr fun hd => ⟨[node], List.prefix_refl _, .snoc hd h⟩

mutual

theorem calls_build (d : Datum) (s : ω × CallLog) :
    Calls host context [] (d.build host.recorded.fresh) (d.build host.fresh) s := by
  cases d with
  | scalar c =>
    simp only [Datum.build]
    exact calls_pure _
  | list items =>
    simp only [Datum.build]
    exact calls_after calls_fresh fun {identity t} _ =>
      calls_after (calls_buildItems items t) fun _ => calls_pure _
  | map entries =>
    simp only [Datum.build]
    exact calls_after calls_fresh fun {identity t} _ =>
      calls_after (calls_buildEntries entries t) fun _ => calls_pure _

theorem calls_buildItems (ds : List Datum) (s : ω × CallLog) :
    Calls host context [] (Datum.buildItems host.recorded.fresh ds)
      (Datum.buildItems host.fresh ds) s := by
  cases ds with
  | nil =>
    simp only [Datum.buildItems]
    exact calls_pure _
  | cons d rest =>
    simp only [Datum.buildItems]
    exact calls_after (calls_build d s) fun {v t} _ =>
      calls_after (calls_buildItems rest t) fun _ => calls_pure _

theorem calls_buildEntries (es : List (String × Datum)) (s : ω × CallLog) :
    Calls host context [] (Datum.buildEntries host.recorded.fresh es)
      (Datum.buildEntries host.fresh es) s := by
  cases es with
  | nil =>
    simp only [Datum.buildEntries]
    exact calls_pure _
  | cons e rest =>
    obtain ⟨k, d⟩ := e
    simp only [Datum.buildEntries]
    exact calls_after (calls_build d s) fun {v t} _ =>
      calls_after (calls_buildEntries rest t) fun _ => calls_pure _

end

/-- What goes on with the key of a member. A property that is given by name has no calls. -/
theorem calls_withKey {property : Expr}
    (h : Calls host context (callNodes property) (property.evaluate host.recorded context)
      (property.evaluate host context) s) (computed : Bool)
    {next : Value → Run (ω × CallLog) α} {plainly : Value → Run ω α}
    (hn : ∀ key t, Calls host context [] (next key) (plainly key) t) :
    Calls host context (callNodes property)
      (if computed then do
        let v ← property.evaluate host.recorded context
        let key ← .ofExcept (normalKey v)
        next key
      else do
        let key ← .ofExcept (nameKey property)
        next key)
      (if computed then do
        let v ← property.evaluate host context
        let key ← .ofExcept (normalKey v)
        plainly key
      else do
        let key ← .ofExcept (nameKey property)
        plainly key) s := by
  cases computed with
  | true =>
    exact calls_before h fun {v t} => calls_after (calls_ofExcept _) fun {key u} _ => hn key u
  | false =>
    cases property with
    | identifier name => exact calls_after (calls_ofExcept _) fun {key t} _ => hn key t
    | _ => exact calls_throw _

/-! ## Evaluations -/

mutual

/-- By induction on the tree, with paths and lists of expressions. -/
theorem calls_evaluate (e : Expr) (s : ω × CallLog) :
    Calls host context e.callNodes (e.evaluate host.recorded context) (e.evaluate host context)
      s := by
  cases e with
  | literal value raw =>
    simp only [evaluate, callNodes]
    exact calls_build value s
  | self => exact calls_pure _
  | compound body =>
    simp only [evaluate, callNodes]
    exact calls_evaluateLast .null body s
  | array elements =>
    simp only [evaluate, callNodes]
    exact calls_before (calls_evaluateAll elements s) fun {items t} =>
      calls_after calls_fresh fun _ => calls_pure _
  | unary operator argument leading =>
    simp only [evaluate, callNodes]
    exact calls_after (calls_ofExcept _) fun {op t} _ =>
      calls_before (calls_evaluate argument t) fun {v t} => calls_ofExcept _
  | binary operator left right | logical operator left right =>
    simp only [evaluate, callNodes]
    exact calls_after (calls_ofExcept _) fun {op t} _ =>
      calls_bind (calls_evaluate left t) fun {a t} _ =>
        calls_before (calls_evaluate right t) fun {b t} => calls_ofExcept _
  | conditional test consequent alternate =>
    simp only [evaluate, callNodes]
    exact calls_bind (calls_evaluate test s) fun {v t} _ =>
      calls_bind (calls_evaluate consequent t) fun {a t} _ =>
        calls_before (calls_evaluate alternate t) fun {b t} =>
          calls_after (calls_ofExcept _) fun _ => calls_pure _
  | call callee arguments =>
    simp only [evaluate, callNodes]
    refine calls_bind (calls_pathOf .callee callee s) fun {path t} hpath => ?_
    refine calls_after (calls_ofExcept _) fun {f u} hf => ?_
    obtain ⟨hlookup, rfl⟩ := ofExcept_ok hf
    refine calls_bind (calls_evaluateAll arguments u) fun {args v} hargs => ?_
    cases f with
    | function f => exact calls_call (.mk hpath hlookup hargs)
    | _ =>
      cases pathText path with
      | ok text => exact calls_throw _
      | error f => exact calls_throw _
  | identifier name =>
    simp only [evaluate, callNodes]
    exact calls_ofExcept _
  | member object property computed =>
    simp only [evaluate, callNodes]
    exact calls_bind (calls_pathOf .object object s) fun {front t} _ =>
      calls_withKey (calls_evaluate property t) computed fun key u => calls_ofExcept _

theorem calls_pathOf (role : Role) (e : Expr) (s : ω × CallLog) :
    Calls host context e.callNodes (e.pathOf host.recorded context role)
      (e.pathOf host context role) s := by
  cases e with
  | self =>
    cases role with
    | object => exact calls_pure _
    | callee => exact calls_throw _
  | identifier name => exact calls_pure _
  | member object property computed =>
    simp only [pathOf, callNodes]
    exact calls_bind (calls_pathOf .object object s) fun {front t} _ =>
      calls_withKey (calls_evaluate property t) computed fun key u => calls_pure _
  | _ => exact calls_throw _

theorem calls_evaluateAll (es : List Expr) (s : ω × CallLog) :
    Calls host context (callNodesAll es) (evaluateAll host.recorded context es)
      (evaluateAll host context es) s := by
  cases es with
  | nil => exact calls_pure _
  | cons e rest =>
    simp only [evaluateAll, callNodesAll]
    exact calls_bind (calls_evaluate e s) fun {v t} _ =>
      calls_before (calls_evaluateAll rest t) fun {vs t} => calls_pure _

theorem calls_evaluateLast (last : Value) (es : List Expr)
    (s : ω × CallLog) :
    Calls host context (callNodesAll es) (evaluateLast host.recorded context last es)
      (evaluateLast host context last es) s := by
  cases es with
  | nil => exact calls_pure _
  | cons e rest =>
    simp only [evaluateLast, callNodesAll]
    exact calls_bind (calls_evaluate e s) fun {v t} _ => calls_evaluateLast v rest t

end

end

/-! ## Eager evaluation -/

/-- The calls of any evaluation are those of the first calls in the tree, in order; and if it comes
to a value, they are those of all calls in the tree. To record them makes no difference to it. -/
theorem an_evaluation_makes_all_calls_of_its_tree {ω : Type} (host : Host ω) (context : Value)
    (e : Expr) (w : ω) :
    Run.project Prod.fst (e.evaluate host.recorded context (w, [])) =
      e.evaluate host context w ∧
    (∃ first, first <+: e.callNodes ∧ InOrder host context first (e.calls host context w)) ∧
    ∀ v w', e.evaluate host context w = .ok v w' →
      InOrder host context e.callNodes (e.calls host context w) := by
  have h : Calls host context _ _ _ _ := calls_evaluate e (w, [])
  have hsame := h.same
  unfold calls
  cases hr : e.evaluate host.recorded context (w, []) with
  | ok v s =>
    have hall := h.all hr .nil
    rw [hr] at hsame
    exact ⟨hsame, ⟨_, List.prefix_refl _, hall⟩, fun _ _ _ => hall⟩
  | error f s =>
    obtain ⟨first, hfirst, hin⟩ := h.some hr .nil
    rw [hr] at hsame
    refine ⟨hsame, ⟨first, hfirst, hin⟩, fun v w' hv => ?_⟩
    rw [← hsame] at hv
    cases hv

/-- A table of functions, one of them within another table. -/
def callables : Value := .map 0 [(.text "pick", .function (.host "pick")),
  (.text "one", .function (.host "one")), (.text "two", .function (.host "two")),
  (.text "fns", .map 1 [(.text "f", .function (.host "f"))])]

/-- The tree of `fns[pick('f')](one('a'), two()) || (x ? two() : one('b'))`. -/
def choice : Expr :=
  .logical (.text "||")
    (.call (.member (.identifier (.text "fns"))
        (.call (.identifier (.text "pick")) [.literal (.text "f") (.text "'f'")]) true)
      [.call (.identifier (.text "one")) [.literal (.text "a") (.text "'a'")],
        .call (.identifier (.text "two")) []])
    (.conditional (.identifier (.text "x")) (.call (.identifier (.text "two")) [])
      (.call (.identifier (.text "one")) [.literal (.text "b") (.text "'b'")]))

/-- All six calls are made, though the first operand decides and there is no `x`. -/
theorem a_choice_makes_all_its_calls :
    Expr.parse "fns[pick('f')](one('a'), two()) || (x ? two() : one('b'))" = .ok choice ∧
    choice.evaluate echo callables 9 = .ok (.text "a") 9 ∧
    InOrder echo callables choice.callNodes (choice.calls echo callables 9) ∧
    (choice.calls echo callables 9).map (·.1) =
      [.host "pick", .host "one", .host "two", .host "f", .host "two", .host "one"] := by
  have hvalue : choice.evaluate echo callables 9 = .ok (.text "a") 9 := by rfl
  obtain ⟨-, -, hall⟩ := an_evaluation_makes_all_calls_of_its_tree echo callables choice 9
  exact ⟨rfl, hvalue, hall _ _ hvalue, by rfl⟩

end Switchboard.Expr
