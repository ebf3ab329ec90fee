-- The grammar sees the kind of an operand and not its spelling. A sentence with other operands of
-- the same kinds has the same derivations, and a tree is told by its shape and the operands that
-- stand in it.
import Switchboard.Proofs.Grammar
namespace Switchboard.Grammar

open Terminal Symbol

/-! ## Plain spellings -/

namespace Terminal

/-- The plainest terminal of the same kind. It has a value. -/
def plain : Terminal → Terminal
  | number _ => number "0"
  | hexNumber _ => hexNumber "0x0"
  | quoted _ => quoted "''"
  | name _ => name "x"
  | mark s => mark s

@[simp] theorem plain_plain (t : Terminal) : t.plain.plain = t.plain := by
  cases t <;> rfl

@[simp] theorem plain_isOperand (t : Terminal) : t.plain.isOperand = t.isOperand := by
  cases t <;> rfl

theorem plain_eq_mark {t : Terminal} {m : String} (h : t.plain = mark m) : t = mark m := by
  cases t with
  | mark s => exact h
  | _ => cases h

theorem plain_eq_name {t : Terminal} {s : String} (h : t.plain = (name s).plain) :
    ∃ r, t = name r := by
  cases t with
  | name r => exact ⟨r, rfl⟩
  | _ => cases h

end Terminal

namespace Phrase

mutual

/-- The tree with plain operands in the place of its own. -/
def plain : Phrase → Phrase
  | operand t => .operand t.plain
  | member p _ => .member (plain p) "x"
  | index p q => .index (plain p) (plain q)
  | call p ps => .call (plain p) (plains ps)
  | array ps => .array (plains ps)
  | unary op p => .unary op (plain p)
  | binary op p q => .binary op (plain p) (plain q)
  | conditional p q r => .conditional (plain p) (plain q) (plain r)
  | compound ps => .compound (plains ps)

def plains : List Phrase → List Phrase
  | [] => []
  | p :: ps => plain p :: plains ps

end

theorem plains_append (ps qs : List Phrase) : plains (ps ++ qs) = plains ps ++ plains qs := by
  induction ps with
  | nil => rfl
  | cons p ps ih => simp [plains, ih]

theorem length_plains (ps : List Phrase) : (plains ps).length = ps.length := by
  induction ps with
  | nil => rfl
  | cons p ps ih => simp [plains, ih]

theorem plain_eq_compound {p : Phrase} {ps : List Phrase} (h : p.plain = .compound ps) :
    ∃ qs, p = .compound qs ∧ plains qs = ps := by
  cases p with
  | compound qs =>
    simp only [plain, compound.injEq] at h
    exact ⟨qs, rfl, h⟩
  | _ => simp [plain] at h

mutual

theorem plain_plain (p : Phrase) : p.plain.plain = p.plain := by
  cases p with
  | operand t => simp [plain]
  | member p s => simp [plain, plain_plain p]
  | index p q | binary op p q => simp [plain, plain_plain p, plain_plain q]
  | call p ps => simp [plain, plain_plain p, plains_plains ps]
  | array ps | compound ps => simp [plain, plains_plains ps]
  | unary op p => simp [plain, plain_plain p]
  | conditional p q r => simp [plain, plain_plain p, plain_plain q, plain_plain r]

theorem plains_plains (ps : List Phrase) : plains (plains ps) = plains ps := by
  cases ps with
  | nil => rfl
  | cons p ps => simp [plains, plain_plain p, plains_plains ps]

end

mutual

/-- The operands and the names of parts that stand in a tree, from left to right. -/
def leaves : Phrase → List Terminal
  | operand t => [t]
  | member p s => leaves p ++ [name s]
  | index p q => leaves p ++ leaves q
  | call p ps => leaves p ++ leavesAll ps
  | array ps => leavesAll ps
  | unary _ p => leaves p
  | binary _ p q => leaves p ++ leaves q
  | conditional p q r => leaves p ++ leaves q ++ leaves r
  | compound ps => leavesAll ps

def leavesAll : List Phrase → List Terminal
  | [] => []
  | p :: ps => leaves p ++ leavesAll ps

end

theorem leavesAll_append (ps qs : List Phrase) :
    leavesAll (ps ++ qs) = leavesAll ps ++ leavesAll qs := by
  induction ps with
  | nil => rfl
  | cons p ps ih => simp [leavesAll, ih]

mutual

theorem leaves_plain (p : Phrase) : p.plain.leaves = p.leaves.map Terminal.plain := by
  cases p with
  | operand t => rfl
  | member p s => simp [plain, leaves, leaves_plain p, Terminal.plain]
  | index p q | binary op p q => simp [plain, leaves, leaves_plain p, leaves_plain q]
  | call p ps => simp [plain, leaves, leaves_plain p, leavesAll_plains ps]
  | array ps | compound ps => simp [plain, leaves, leavesAll_plains ps]
  | unary op p => simp [plain, leaves, leaves_plain p]
  | conditional p q r =>
    simp [plain, leaves, leaves_plain p, leaves_plain q, leaves_plain r]

theorem leavesAll_plains (ps : List Phrase) :
    leavesAll (plains ps) = (leavesAll ps).map Terminal.plain := by
  cases ps with
  | nil => rfl
  | cons p ps => simp [plains, leavesAll, leaves_plain p, leavesAll_plains ps]

end

theorem length_leaves_of_plain {p q : Phrase} (h : p.plain = q.plain) :
    p.leaves.length = q.leaves.length := by
  have h := congrArg (List.length ∘ leaves) h
  simpa [leaves_plain] using h

mutual

/-- Two trees of one shape with the same leaves are the same. -/
theorem eq_of_plain_of_leaves (p q : Phrase) (h : p.plain = q.plain) (hl : p.leaves = q.leaves) :
    p = q := by
  cases p with
  | operand t =>
    cases q with
    | operand t' => simpa [leaves] using hl
    | _ => simp [plain] at h
  | member p s =>
    cases q with
    | member q t =>
      simp only [plain, member.injEq, and_true] at h
      obtain ⟨hleaves, hname⟩ := List.append_inj hl (length_leaves_of_plain h)
      cases hname
      rw [eq_of_plain_of_leaves p q h hleaves]
    | _ => simp [plain] at h
  | index p p' =>
    cases q with
    | index q q' =>
      simp only [plain, index.injEq] at h
      obtain ⟨hl, hl'⟩ := List.append_inj hl (length_leaves_of_plain h.1)
      rw [eq_of_plain_of_leaves p q h.1 hl, eq_of_plain_of_leaves p' q' h.2 hl']
    | _ => simp [plain] at h
  | call p ps =>
    cases q with
    | call q qs =>
      simp only [plain, call.injEq] at h
      obtain ⟨hl, hl'⟩ := List.append_inj hl (length_leaves_of_plain h.1)
      rw [eq_of_plain_of_leaves p q h.1 hl, eq_of_plains_of_leaves ps qs h.2 hl']
    | _ => simp [plain] at h
  | array ps =>
    cases q with
    | array qs =>
      simp only [plain, array.injEq] at h
      rw [eq_of_plains_of_leaves ps qs h hl]
    | _ => simp [plain] at h
  | unary op p =>
    cases q with
    | unary op' q =>
      simp only [plain, unary.injEq] at h
      rw [h.1, eq_of_plain_of_leaves p q h.2 hl]
    | _ => simp [plain] at h
  | binary op p p' =>
    cases q with
    | binary op' q q' =>
      simp only [plain, binary.injEq] at h
      obtain ⟨hl, hl'⟩ := List.append_inj hl (length_leaves_of_plain h.2.1)
      rw [h.1, eq_of_plain_of_leaves p q h.2.1 hl, eq_of_plain_of_leaves p' q' h.2.2 hl']
    | _ => simp [plain] at h
  | conditional p p' p'' =>
    cases q with
    | conditional q q' q'' =>
      simp only [plain, conditional.injEq] at h
      have hlength : (p.leaves ++ p'.leaves).length = (q.leaves ++ q'.leaves).length := by
        simp [length_leaves_of_plain h.1, length_leaves_of_plain h.2.1]
      obtain ⟨hl, hl''⟩ := List.append_inj hl hlength
      obtain ⟨hl, hl'⟩ := List.append_inj hl (length_leaves_of_plain h.1)
      rw [eq_of_plain_of_leaves p q h.1 hl, eq_of_plain_of_leaves p' q' h.2.1 hl',
        eq_of_plain_of_leaves p'' q'' h.2.2 hl'']
    | _ => simp [plain] at h
  | compound ps =>
    cases q with
    | compound qs =>
      simp only [plain, compound.injEq] at h
      rw [eq_of_plains_of_leaves ps qs h hl]
    | _ => simp [plain] at h

theorem eq_of_plains_of_leaves (ps qs : List Phrase) (h : plains ps = plains qs)
    (hl : leavesAll ps = leavesAll qs) : ps = qs := by
  cases ps with
  | nil =>
    cases qs with
    | nil => rfl
    | cons q qs => simp [plains] at h
  | cons p ps =>
    cases qs with
    | nil => simp [plains] at h
    | cons q qs =>
      simp only [plains, List.cons.injEq] at h
      obtain ⟨hl, hl'⟩ := List.append_inj hl (length_leaves_of_plain h.1)
      rw [eq_of_plain_of_leaves p q h.1 hl, eq_of_plains_of_leaves ps qs h.2 hl']

end
end Phrase

/-- Two sentences are alike if they differ in the spelling of their operands alone. -/
def Alike (v w : List Terminal) : Prop := v.map Terminal.plain = w.map Terminal.plain

variable {w v u : List Terminal} {p q : Phrase} {s : Symbol} {m : String}

namespace Alike

theorem nil (h : Alike v []) : v = [] := by
  simpa [Alike] using h

theorem mark (h : Alike v (mark m :: w)) : ∃ a, v = .mark m :: a ∧ Alike a w := by
  obtain ⟨t, a, rfl, ht, ha⟩ := List.map_eq_cons_iff.mp h
  exact ⟨a, by rw [plain_eq_mark ht], ha⟩

theorem between (h : Alike v (w ++ .mark m :: u)) :
    ∃ a b, v = a ++ .mark m :: b ∧ Alike a w ∧ Alike b u := by
  unfold Alike at h
  rw [List.map_append] at h
  obtain ⟨a, c, rfl, ha, hc⟩ := List.map_eq_append_iff.mp h
  obtain ⟨b, rfl, hb⟩ := Alike.mark hc
  exact ⟨a, b, rfl, ha, hb⟩

theorem last (h : Alike v (w ++ [.mark m])) : ∃ a, v = a ++ [.mark m] ∧ Alike a w := by
  obtain ⟨a, b, rfl, ha, hb⟩ := h.between
  obtain rfl := hb.nil
  exact ⟨a, rfl, ha⟩

end Alike

namespace Derives

open Phrase

/-- The leaves of a derived tree are the terminals that are no marks. -/
theorem leaves_eq (h : Derives s w p) : p.leaves = w.filter isOperand := by
  induction h with
  | single _ ih | compound _ _ ih | tighter _ ih => exact ih
  | first _ ih => simp [leaves, leavesAll, ih]
  | later _ _ ihw ihv =>
    simp only [leaves] at ihw
    simp [leaves, leavesAll_append, leavesAll, ihw, ihv, isOperand]
  | conditional _ _ _ ihw ihv ihu => simp [leaves, ihw, ihv, ihu, isOperand]
  | binary _ _ _ ihw ihv | power _ _ ihw ihv | index _ _ ihw ihv =>
    simp [leaves, ihw, ihv, isOperand]
  | unary _ ih | paren _ ih => simp [leaves, ih, isOperand]
  | member _ ih => simp [leaves, ih, isOperand, List.filter_cons]
  | callEmpty _ ih => simp [leaves, leavesAll, ih, isOperand]
  | call _ _ ihw ihv =>
    simp only [leaves] at ihv
    simp [leaves, ihw, ihv, isOperand]
  | operand ht => simp [leaves, ht]
  | arrayEmpty => rfl
  | array _ ih =>
    simp only [leaves] at ih
    simp [leaves, ih, isOperand]

/-- A sentence that is alike has a derivation of the same shape. -/
theorem respell (h : Derives s w p) (hv : Alike v w) : ∃ q, Derives s v q ∧ q.plain = p.plain := by
  induction h generalizing v with
  | single _ ih =>
    obtain ⟨q, hq, hp⟩ := ih hv
    exact ⟨q, hq.single, hp⟩
  | compound _ hlen ih =>
    obtain ⟨q, hq, hp⟩ := ih hv
    obtain ⟨qs, rfl, hqs⟩ := plain_eq_compound hp
    refine ⟨_, hq.compound ?_, hp⟩
    rwa [← length_plains, hqs, length_plains]
  | first _ ih =>
    obtain ⟨q, hq, hp⟩ := ih hv
    exact ⟨_, hq.first, by simp [Phrase.plain, plains, hp]⟩
  | later _ _ ihw ihv =>
    obtain ⟨a, b, rfl, ha, hb⟩ := hv.between
    obtain ⟨q, hq, hp⟩ := ihw ha
    obtain ⟨qs, rfl, hqs⟩ := plain_eq_compound hp
    obtain ⟨r, hr, hp'⟩ := ihv hb
    exact ⟨_, hq.later hr, by simp [Phrase.plain, plains_append, plains, hqs, hp']⟩
  | conditional _ _ _ ihw ihv ihu =>
    obtain ⟨a, b, rfl, ha, hbc⟩ := hv.between
    obtain ⟨b, c, rfl, hb, hc⟩ := hbc.between
    obtain ⟨q₁, h₁, hp₁⟩ := ihw ha
    obtain ⟨q₂, h₂, hp₂⟩ := ihv hb
    obtain ⟨q₃, h₃, hp₃⟩ := ihu hc
    exact ⟨_, h₁.conditional h₂ h₃, by simp [Phrase.plain, hp₁, hp₂, hp₃]⟩
  | tighter _ ih =>
    obtain ⟨q, hq, hp⟩ := ih hv
    exact ⟨q, hq.tighter, hp⟩
  | binary hop _ _ ihw ihv =>
    obtain ⟨a, b, rfl, ha, hb⟩ := hv.between
    obtain ⟨q₁, h₁, hp₁⟩ := ihw ha
    obtain ⟨q₂, h₂, hp₂⟩ := ihv hb
    exact ⟨_, .binary hop h₁ h₂, by simp [Phrase.plain, hp₁, hp₂]⟩
  | power _ _ ihw ihv =>
    obtain ⟨a, b, rfl, ha, hb⟩ := hv.between
    obtain ⟨q₁, h₁, hp₁⟩ := ihw ha
    obtain ⟨q₂, h₂, hp₂⟩ := ihv hb
    exact ⟨_, h₁.power h₂, by simp [Phrase.plain, hp₁, hp₂]⟩
  | unary _ ih =>
    obtain ⟨a, rfl, ha⟩ := hv.mark
    obtain ⟨q, hq, hp⟩ := ih ha
    exact ⟨_, hq.unary, by simp [Phrase.plain, hp]⟩
  | member _ ih =>
    obtain ⟨a, b, rfl, ha, hb⟩ := hv.between
    obtain ⟨t, c, rfl, ht, hc⟩ := List.map_eq_cons_iff.mp hb
    obtain rfl := Alike.nil hc
    obtain ⟨r, rfl⟩ := plain_eq_name ht
    obtain ⟨q, hq, hp⟩ := ih ha
    exact ⟨_, hq.member, by simp [Phrase.plain, hp]⟩
  | index _ _ ihw ihv =>
    obtain ⟨a, b, rfl, ha, hb⟩ := hv.between
    obtain ⟨b, rfl, hb'⟩ := hb.last
    obtain ⟨q₁, h₁, hp₁⟩ := ihw ha
    obtain ⟨q₂, h₂, hp₂⟩ := ihv hb'
    exact ⟨_, h₁.index h₂, by simp [Phrase.plain, hp₁, hp₂]⟩
  | callEmpty _ ih =>
    obtain ⟨a, b, rfl, ha, hb⟩ := hv.between
    obtain ⟨c, rfl, hc⟩ := hb.mark
    obtain rfl := hc.nil
    obtain ⟨q, hq, hp⟩ := ih ha
    exact ⟨_, hq.callEmpty, by simp [Phrase.plain, plains, hp]⟩
  | call _ _ ihw ihv =>
    obtain ⟨a, b, rfl, ha, hb⟩ := hv.between
    obtain ⟨b, rfl, hb'⟩ := hb.last
    obtain ⟨q₁, h₁, hp₁⟩ := ihw ha
    obtain ⟨q₂, h₂, hp₂⟩ := ihv hb'
    obtain ⟨qs, rfl, hqs⟩ := plain_eq_compound hp₂
    exact ⟨_, h₁.call h₂, by simp [Phrase.plain, hp₁, hqs]⟩
  | operand ht =>
    obtain ⟨t, a, rfl, ht', ha⟩ := List.map_eq_cons_iff.mp hv
    obtain rfl := Alike.nil ha
    have hop : t.isOperand = true := by
      rw [← plain_isOperand, ht', plain_isOperand, ht]
    exact ⟨_, .operand hop, by simp [Phrase.plain, ht']⟩
  | arrayEmpty =>
    obtain ⟨b, rfl, hb⟩ := hv.mark
    obtain ⟨c, rfl, hc⟩ := hb.mark
    obtain rfl := hc.nil
    exact ⟨_, .arrayEmpty, rfl⟩
  | array _ ih =>
    obtain ⟨b, rfl, hb⟩ := hv.mark
    obtain ⟨b, rfl, hb'⟩ := hb.last
    obtain ⟨q, hq, hp⟩ := ih hb'
    obtain ⟨qs, rfl, hqs⟩ := plain_eq_compound hp
    exact ⟨_, hq.array, by simp [Phrase.plain, hqs]⟩
  | paren _ ih =>
    obtain ⟨b, rfl, hb⟩ := hv.mark
    obtain ⟨b, rfl, hb'⟩ := hb.last
    obtain ⟨q, hq, hp⟩ := ih hb'
    exact ⟨q, hq.paren, hp⟩

/-- The sentence with plain operands has the tree with plain operands. -/
theorem plain (h : Derives s w p) : Derives s (w.map Terminal.plain) p.plain := by
  have halike : Alike (w.map Terminal.plain) w := by
    simp [Alike, Function.comp_def]
  obtain ⟨q, hq, hp⟩ := h.respell halike
  have hleaves : q.leaves = p.plain.leaves := by
    rw [hq.leaves_eq, leaves_plain, h.leaves_eq, List.filter_map]
    simp [Function.comp_def]
  rwa [eq_of_plain_of_leaves q p.plain (by rw [hp, Phrase.plain_plain]) hleaves] at hq

/-- A tree of which all operands have values has an expression. -/
theorem valued (h : Derives s w p) (hw : ∀ t ∈ w, t.isOperand = true → t.expr?.isSome = true) :
    p.expr?.isSome = true := by
  induction h with
  | single _ ih | compound _ _ ih | tighter _ ih => exact ih hw
  | first _ ih =>
    obtain ⟨e, he⟩ := Option.isSome_iff_exists.mp (ih hw)
    simp [Phrase.expr?, exprs?, he]
  | later _ _ ihw ihv =>
    simp only [List.forall_mem_append, List.forall_mem_cons] at hw
    obtain ⟨f, hf⟩ := Option.isSome_iff_exists.mp (ihw hw.1)
    obtain ⟨es, hes, -⟩ := expr?_compound hf
    obtain ⟨e, he⟩ := Option.isSome_iff_exists.mp (ihv hw.2.2)
    simp [Phrase.expr?, exprs?_concat, hes, he]
  | conditional _ _ _ ihw ihv ihu =>
    simp only [List.forall_mem_append, List.forall_mem_cons] at hw
    obtain ⟨e, he⟩ := Option.isSome_iff_exists.mp (ihw hw.1)
    obtain ⟨f, hf⟩ := Option.isSome_iff_exists.mp (ihv hw.2.2.1)
    obtain ⟨g, hg⟩ := Option.isSome_iff_exists.mp (ihu hw.2.2.2.2)
    simp [Phrase.expr?, he, hf, hg]
  | binary _ _ _ ihw ihv | power _ _ ihw ihv =>
    simp only [List.forall_mem_append, List.forall_mem_cons] at hw
    obtain ⟨e, he⟩ := Option.isSome_iff_exists.mp (ihw hw.1)
    obtain ⟨f, hf⟩ := Option.isSome_iff_exists.mp (ihv hw.2.2)
    simp [Phrase.expr?, he, hf]
  | index _ _ ihw ihv =>
    simp only [List.forall_mem_append, List.forall_mem_cons] at hw
    obtain ⟨e, he⟩ := Option.isSome_iff_exists.mp (ihw hw.1)
    obtain ⟨f, hf⟩ := Option.isSome_iff_exists.mp (ihv hw.2.2.1)
    simp [Phrase.expr?, he, hf]
  | unary _ ih =>
    simp only [List.forall_mem_cons] at hw
    obtain ⟨e, he⟩ := Option.isSome_iff_exists.mp (ih hw.2)
    simp [Phrase.expr?, he]
  | member _ ih | callEmpty _ ih =>
    simp only [List.forall_mem_append] at hw
    obtain ⟨e, he⟩ := Option.isSome_iff_exists.mp (ih hw.1)
    simp [Phrase.expr?, exprs?, he]
  | call _ _ ihw ihv =>
    simp only [List.forall_mem_append, List.forall_mem_cons] at hw
    obtain ⟨e, he⟩ := Option.isSome_iff_exists.mp (ihw hw.1)
    obtain ⟨f, hf⟩ := Option.isSome_iff_exists.mp (ihv hw.2.2.1)
    obtain ⟨es, hes, -⟩ := expr?_compound hf
    simp [Phrase.expr?, he, hes]
  | operand ht => exact hw _ List.mem_cons_self ht
  | arrayEmpty => rfl
  | array _ ih =>
    simp only [List.forall_mem_append, List.forall_mem_cons] at hw
    obtain ⟨f, hf⟩ := Option.isSome_iff_exists.mp (ih hw.2.1)
    obtain ⟨es, hes, -⟩ := expr?_compound hf
    simp [Phrase.expr?, hes]
  | paren _ ih =>
    simp only [List.forall_mem_append, List.forall_mem_cons] at hw
    exact ih hw.2.1

end Derives

theorem Terminal.plain_valued {t : Terminal} (h : t.isOperand = true) :
    t.plain.expr?.isSome = true := by
  have hconstants : (number "0").expr?.isSome = true ∧ (hexNumber "0x0").expr?.isSome = true ∧
      (quoted "''").expr?.isSome = true := by
    decide +kernel
  cases t with
  | number s => exact hconstants.1
  | hexNumber s => exact hconstants.2.1
  | quoted s => exact hconstants.2.2
  | name s => rfl
  | mark m => cases h

/-! ## Trees of expressions -/

namespace Phrase

/-- The operator that is spelled by a text. -/
def binaryOf : Datum → BinaryOperator
  | .text s => (BinaryOperator.ofText? s).getD .or
  | _ => .or

def unaryOf : Datum → UnaryOperator
  | .text s => (UnaryOperator.ofText? s).getD .not
  | _ => .not

/-- The plain operand with a spelling. -/
def operandOf : Datum → Terminal
  | .text "0" => number "0"
  | .text "0x0" => hexNumber "0x0"
  | _ => quoted "''"

mutual

/-- The tree of an expression of which all operands are plain. -/
def ofExpr : Expr → Phrase
  | .literal _ raw => .operand (operandOf raw)
  | .identifier _ => .operand (name "x")
  | .self => .operand (name "x")
  | .member o p true => .index (ofExpr o) (ofExpr p)
  | .member o _ false => .member (ofExpr o) "x"
  | .unary op a _ => .unary (unaryOf op) (ofExpr a)
  | .binary op l r => .binary (binaryOf op) (ofExpr l) (ofExpr r)
  | .logical op l r => .binary (binaryOf op) (ofExpr l) (ofExpr r)
  | .conditional t c a => .conditional (ofExpr t) (ofExpr c) (ofExpr a)
  | .call f as => .call (ofExpr f) (ofExprs as)
  | .array es => .array (ofExprs es)
  | .compound es => .compound (ofExprs es)

def ofExprs : List Expr → List Phrase
  | [] => []
  | e :: es => ofExpr e :: ofExprs es

end

theorem ofExpr_binary (op : BinaryOperator) (l r : Expr) :
    ofExpr (Expr.ofBinary op l r) = .binary op (ofExpr l) (ofExpr r) := by
  have hop : binaryOf (.text op.text) = op := by
    cases op <;> rfl
  unfold Expr.ofBinary
  split <;> simp [ofExpr, hop]

theorem ofExpr_unary (op : UnaryOperator) (a : Expr) :
    ofExpr (Expr.ofUnary op a) = .unary op (ofExpr a) := by
  have hop : unaryOf (.text op.text) = op := by
    cases op <;> rfl
  simp [Expr.ofUnary, ofExpr, hop]

theorem ofExpr_operand {t : Terminal} {e : Expr} (h : t.plain.expr? = some e) :
    ofExpr e = .operand t.plain := by
  cases t with
  | mark m => cases h
  | name s =>
    cases h
    rfl
  | number s | hexNumber s | quoted s =>
    simp only [Terminal.plain, Terminal.expr?, Option.map_eq_some_iff] at h
    obtain ⟨v, -, rfl⟩ := h
    rfl

mutual

/-- A tree with plain operands is the tree of its expression. -/
theorem ofExpr_expr? (p : Phrase) {e : Expr} (h : p.plain.expr? = some e) : ofExpr e = p.plain := by
  cases p with
  | operand t => exact ofExpr_operand h
  | member p s =>
    obtain ⟨f, hf, rfl⟩ := expr?_member h
    simp [ofExpr, plain, ofExpr_expr? p hf]
  | index p q =>
    obtain ⟨f, g, hf, hg, rfl⟩ := expr?_index h
    simp [ofExpr, plain, ofExpr_expr? p hf, ofExpr_expr? q hg]
  | call p ps =>
    obtain ⟨f, es, hf, hes, rfl⟩ := expr?_call h
    simp [ofExpr, plain, ofExpr_expr? p hf, ofExprs_exprs? ps hes]
  | array ps =>
    obtain ⟨es, hes, rfl⟩ := expr?_array h
    simp [ofExpr, plain, ofExprs_exprs? ps hes]
  | compound ps =>
    obtain ⟨es, hes, rfl⟩ := expr?_compound h
    simp [ofExpr, plain, ofExprs_exprs? ps hes]
  | unary op p =>
    obtain ⟨f, hf, rfl⟩ := expr?_unary h
    simp [ofExpr_unary, plain, ofExpr_expr? p hf]
  | binary op p q =>
    obtain ⟨f, g, hf, hg, rfl⟩ := expr?_binary h
    simp [ofExpr_binary, plain, ofExpr_expr? p hf, ofExpr_expr? q hg]
  | conditional p q r =>
    obtain ⟨f, g, k, hf, hg, hk, rfl⟩ := expr?_conditional h
    simp [ofExpr, plain, ofExpr_expr? p hf, ofExpr_expr? q hg, ofExpr_expr? r hk]

theorem ofExprs_exprs? (ps : List Phrase) {es : List Expr}
    (h : exprs? (plains ps) = some es) : ofExprs es = plains ps := by
  cases ps with
  | nil =>
    cases h
    rfl
  | cons p ps =>
    obtain ⟨f, es, hf, hes, rfl⟩ := exprs?_cons h
    simp [ofExprs, plains, ofExpr_expr? p hf, ofExprs_exprs? ps hes]

end
end Phrase

namespace Derives

/-- With plain operands a sentence has an expression. -/
theorem plain_valued (h : Derives s w p) : ∃ e, p.plain.expr? = some e := by
  refine Option.isSome_iff_exists.mp (h.plain.valued fun t ht hop => ?_)
  obtain ⟨t', -, rfl⟩ := List.mem_map.mp ht
  rw [plain_isOperand] at hop
  exact Terminal.plain_valued hop

/-- Two trees of one sentence are the same if they have the same expression whenever their
operands are plain. -/
theorem eq_of_plain (h : Derives s w p) (h' : Derives s w q)
    (he : p.plain.expr? = q.plain.expr?) : p = q := by
  obtain ⟨e, hp⟩ := h.plain_valued
  have hshape : p.plain = q.plain := by
    rw [← Phrase.ofExpr_expr? p hp, Phrase.ofExpr_expr? q (he ▸ hp)]
  exact Phrase.eq_of_plain_of_leaves p q hshape (h.leaves_eq.trans h'.leaves_eq.symm)

end Derives
end Switchboard.Grammar
