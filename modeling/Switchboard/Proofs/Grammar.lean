-- The grammar of expressions as a set of rules, apart from any way to read by them. A sentence is a
-- list of terminals; a derivation of it gives a tree of the operands, operators and brackets that
-- stand in it. A sign and an operator of one spelling are the same terminal: only a derivation can
-- tell them apart.
import Switchboard.Expr.Literal
namespace Switchboard.Grammar

/-! ## Terminals and trees -/

inductive Terminal
  | number (spelling : String)
  | hexNumber (spelling : String)
  | quoted (spelling : String)
  | name (spelling : String)
  /-- Everything that is always spelled the same: operators, brackets, commas. -/
  | mark (spelling : String)
deriving DecidableEq

namespace Terminal

def text : Terminal → String
  | number s | hexNumber s | quoted s | name s | mark s => s

/-- Can the terminal be an operand on its own? -/
def isOperand : Terminal → Bool
  | mark _ => false
  | _ => true

/-- The node of an operand. A literal of which there is no value has none. -/
def expr? : Terminal → Option Expr
  | number s => (Literal.number? s).map (Literal.node · s)
  | hexNumber s => (Literal.hexNumber? s).map (Literal.node · s)
  | quoted s => (Literal.quoted? s).map (Literal.node · s)
  | name s => some (Literal.ofName s)
  | mark _ => none

end Terminal

open Terminal

/-- A tree with the literals as they are spelled. -/
inductive Phrase
  | operand (t : Terminal)
  | member (object : Phrase) (name : String)
  | index (object property : Phrase)
  | call (callee : Phrase) (arguments : List Phrase)
  | array (elements : List Phrase)
  | unary (op : UnaryOperator) (argument : Phrase)
  | binary (op : BinaryOperator) (left right : Phrase)
  | conditional (test consequent alternate : Phrase)
  | compound (body : List Phrase)

namespace Phrase

mutual

/-- The expression that a tree stands for, if all its literals have values. -/
def expr? : Phrase → Option Expr
  | operand t => t.expr?
  | member p s => do return .member (← expr? p) (.identifier (.text s)) false
  | index p q => do return .member (← expr? p) (← expr? q) true
  | call p ps => do return .call (← expr? p) (← exprs? ps)
  | array ps => do return .array (← exprs? ps)
  | unary op p => do return Expr.ofUnary op (← expr? p)
  | binary op p q => do return Expr.ofBinary op (← expr? p) (← expr? q)
  | conditional p q r => do return .conditional (← expr? p) (← expr? q) (← expr? r)
  | compound ps => do return .compound (← exprs? ps)

def exprs? : List Phrase → Option (List Expr)
  | [] => some []
  | p :: ps => do return (← expr? p) :: (← exprs? ps)

end

theorem exprs?_concat (ps : List Phrase) (q : Phrase) :
    exprs? (ps ++ [q]) = (exprs? ps).bind fun es => q.expr?.bind fun e => some (es ++ [e]) := by
  induction ps with
  | nil => cases h : expr? q <;> simp [exprs?, h]
  | cons p ps ih =>
    simp only [List.cons_append, exprs?, ih]
    cases expr? p <;> cases exprs? ps <;> cases expr? q <;> rfl

/-! What stands for an expression stands for it by its parts. -/

section

variable {p q r : Phrase} {ps : List Phrase} {e : Expr}

theorem expr?_member {s : String} (h : (member p s).expr? = some e) :
    ∃ o, p.expr? = some o ∧ e = .member o (.identifier (.text s)) false := by
  obtain ⟨o, ho, h⟩ := Option.bind_eq_some_iff.mp h
  cases h
  exact ⟨o, ho, rfl⟩

theorem expr?_index (h : (index p q).expr? = some e) :
    ∃ o a, p.expr? = some o ∧ q.expr? = some a ∧ e = .member o a true := by
  obtain ⟨o, ho, h⟩ := Option.bind_eq_some_iff.mp h
  obtain ⟨a, ha, h⟩ := Option.bind_eq_some_iff.mp h
  cases h
  exact ⟨o, a, ho, ha, rfl⟩

theorem expr?_call (h : (call p ps).expr? = some e) :
    ∃ f es, p.expr? = some f ∧ exprs? ps = some es ∧ e = .call f es := by
  obtain ⟨f, hf, h⟩ := Option.bind_eq_some_iff.mp h
  obtain ⟨es, hes, h⟩ := Option.bind_eq_some_iff.mp h
  cases h
  exact ⟨f, es, hf, hes, rfl⟩

theorem expr?_array (h : (array ps).expr? = some e) :
    ∃ es, exprs? ps = some es ∧ e = .array es := by
  obtain ⟨es, hes, h⟩ := Option.bind_eq_some_iff.mp h
  cases h
  exact ⟨es, hes, rfl⟩

theorem expr?_unary {op : UnaryOperator} (h : (unary op p).expr? = some e) :
    ∃ a, p.expr? = some a ∧ e = Expr.ofUnary op a := by
  obtain ⟨a, ha, h⟩ := Option.bind_eq_some_iff.mp h
  cases h
  exact ⟨a, ha, rfl⟩

theorem expr?_binary {op : BinaryOperator} (h : (binary op p q).expr? = some e) :
    ∃ l r, p.expr? = some l ∧ q.expr? = some r ∧ e = Expr.ofBinary op l r := by
  obtain ⟨l, hl, h⟩ := Option.bind_eq_some_iff.mp h
  obtain ⟨r, hr, h⟩ := Option.bind_eq_some_iff.mp h
  cases h
  exact ⟨l, r, hl, hr, rfl⟩

theorem expr?_conditional (h : (conditional p q r).expr? = some e) :
    ∃ t c a, p.expr? = some t ∧ q.expr? = some c ∧ r.expr? = some a ∧
      e = .conditional t c a := by
  obtain ⟨t, ht, h⟩ := Option.bind_eq_some_iff.mp h
  obtain ⟨c, hc, h⟩ := Option.bind_eq_some_iff.mp h
  obtain ⟨a, ha, h⟩ := Option.bind_eq_some_iff.mp h
  cases h
  exact ⟨t, c, a, ht, hc, ha, rfl⟩

theorem expr?_compound (h : (compound ps).expr? = some e) :
    ∃ es, exprs? ps = some es ∧ e = .compound es := by
  rw [expr?] at h
  obtain ⟨es, hes, h⟩ := Option.bind_eq_some_iff.mp h
  cases h
  exact ⟨es, hes, rfl⟩

theorem exprs?_cons {es : List Expr} (h : exprs? (p :: ps) = some es) :
    ∃ e rest, p.expr? = some e ∧ exprs? ps = some rest ∧ es = e :: rest := by
  obtain ⟨e, he, h⟩ := Option.bind_eq_some_iff.mp h
  obtain ⟨rest, hrest, h⟩ := Option.bind_eq_some_iff.mp h
  cases h
  exact ⟨e, rest, he, hrest, rfl⟩

theorem exprs?_singleton {es : List Expr} (h : exprs? [p] = some es) :
    ∃ e, p.expr? = some e ∧ es = [e] := by
  obtain ⟨e, rest, he, hrest, rfl⟩ := exprs?_cons h
  cases hrest
  exact ⟨e, he, rfl⟩

theorem exprs?_concat_some {es : List Expr} (h : exprs? (ps ++ [p]) = some es) :
    ∃ front e, exprs? ps = some front ∧ p.expr? = some e ∧ es = front ++ [e] := by
  rw [exprs?_concat] at h
  obtain ⟨front, hfront, h⟩ := Option.bind_eq_some_iff.mp h
  obtain ⟨e, he, h⟩ := Option.bind_eq_some_iff.mp h
  cases h
  exact ⟨front, e, hfront, he, rfl⟩

end

theorem exprs?_length {ps : List Phrase} {es : List Expr} (h : exprs? ps = some es) :
    es.length = ps.length := by
  induction ps generalizing es with
  | nil =>
    cases h
    rfl
  | cons p ps ih =>
    obtain ⟨e, rest, -, hrest, rfl⟩ := exprs?_cons h
    simp [ih hrest]

end Phrase

/-! ## Rules -/

/-- What can be derived. An operand of an operator is derived at a level that is the higher, the
tighter the operator binds: a conditional is at level 0, the operators that group to the left are at
levels 1 to 10, `**` is at 11, signs are at 12, parts and calls are at 13 and all that stands
for itself is at 14. -/
inductive Symbol
  | sequence
  | items
  | level (n : Nat)

open Symbol

/-- The derivations of the grammar. The trees of items are held together by a compound. -/
inductive Derives : Symbol → List Terminal → Phrase → Prop
  | single {w p} : Derives (level 0) w p → Derives sequence w p
  | compound {w ps} : Derives items w (.compound ps) → 2 ≤ ps.length →
      Derives sequence w (.compound ps)
  | first {w p} : Derives (level 0) w p → Derives items w (.compound [p])
  | later {w ps v p} : Derives items w (.compound ps) → Derives (level 0) v p →
      Derives items (w ++ mark "," :: v) (.compound (ps ++ [p]))
  | conditional {w v u p q r} : Derives (level 1) w p → Derives (level 0) v q →
      Derives (level 0) u r →
      Derives (level 0) (w ++ mark "?" :: (v ++ mark ":" :: u)) (.conditional p q r)
  | tighter {n w p} : Derives (level (n + 1)) w p → Derives (level n) w p
  | binary {op w v p q} : op ≠ .power → Derives (level op.level) w p →
      Derives (level (op.level + 1)) v q →
      Derives (level op.level) (w ++ mark op.text :: v) (.binary op p q)
  | power {w v p q} : Derives (level 12) w p → Derives (level 11) v q →
      Derives (level 11) (w ++ mark "**" :: v) (.binary .power p q)
  | unary {op w p} : Derives (level 12) w p → Derives (level 12) (mark op.text :: w) (.unary op p)
  | member {w p s} : Derives (level 13) w p →
      Derives (level 13) (w ++ [mark ".", name s]) (.member p s)
  | index {w v p q} : Derives (level 13) w p → Derives sequence v q →
      Derives (level 13) (w ++ mark "[" :: (v ++ [mark "]"])) (.index p q)
  | callEmpty {w p} : Derives (level 13) w p →
      Derives (level 13) (w ++ [mark "(", mark ")"]) (.call p [])
  | call {w v p ps} : Derives (level 13) w p → Derives items v (.compound ps) →
      Derives (level 13) (w ++ mark "(" :: (v ++ [mark ")"])) (.call p ps)
  | operand {t} : t.isOperand = true → Derives (level 14) [t] (.operand t)
  | arrayEmpty : Derives (level 14) [mark "[", mark "]"] (.array [])
  | array {w ps} : Derives items w (.compound ps) →
      Derives (level 14) (mark "[" :: (w ++ [mark "]"])) (.array ps)
  | paren {w p} : Derives sequence w p → Derives (level 14) (mark "(" :: (w ++ [mark ")"])) p

variable {n : Nat} {w v u : List Terminal} {p q r : Phrase} {ps : List Phrase}

/-- What is derived at a level can stand where a looser one is wanted. -/
theorem Derives.looser {m : Nat} (h : Derives (level n) w p) (hm : m ≤ n) :
    Derives (level m) w p := by
  induction hm with
  | refl => exact h
  | step _ ih => exact ih h.tighter

/-- The level at which an operator has its left operand. -/
def leftLevel (op : BinaryOperator) : Nat := if op = .power then 12 else op.level

/-- The level at which an operator has its right operand. -/
def rightLevel (op : BinaryOperator) : Nat := if op = .power then 11 else op.level + 1

theorem Derives.operator {op : BinaryOperator} (hp : Derives (level (leftLevel op)) w p)
    (hq : Derives (level (rightLevel op)) v q) :
    Derives (level op.level) (w ++ mark op.text :: v) (.binary op p q) := by
  unfold leftLevel at hp
  unfold rightLevel at hq
  by_cases h : op = .power
  · subst h
    exact hp.power hq
  · rw [if_neg h] at hp hq
    exact .binary h hp hq

theorem Derives.items_ne_nil (h : Derives items w (.compound ps)) : ps ≠ [] := by
  cases h <;> simp

end Switchboard.Grammar
