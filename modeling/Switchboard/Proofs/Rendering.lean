-- Writing trees as texts. An operand is put in brackets where the grammar would not derive it bare,
-- and words are kept apart by single spaces. What is written is read as the tree that it was
-- written from, and no sentence of the tree has fewer words.
import Switchboard.Proofs.Spacing
namespace Switchboard.Expr

open Grammar Symbol

/-! ## Well-shaped trees -/

/-- Trees that are built from what the grammar has: literals with a spelling of their value, names
that stand for no constant, parts, calls, arrays, operators, conditionals, and several expressions
in a compound. -/
inductive WellShaped : Expr → Prop
  | number {s v} : s.toList ∈ Lexeme.number → Literal.number? s = some v →
      WellShaped (Literal.node v s)
  | hexNumber {s v} : s.toList ∈ Lexeme.hexNumber → Literal.hexNumber? s = some v →
      WellShaped (Literal.node v s)
  | quoted {s v} : s.toList ∈ Lexeme.quoted → Literal.quoted? s = some v →
      WellShaped (Literal.node v s)
  | keyword {s v} : Literal.ofName? s = some v → WellShaped (Literal.node v s)
  | identifier {s} : s.toList ∈ Lexeme.name → Literal.ofName? s = none → s ≠ "this" →
      WellShaped (identifier (.text s))
  | self : WellShaped self
  | member {o s} : WellShaped o → s.toList ∈ Lexeme.name →
      WellShaped (member o (identifier (.text s)) false)
  | index {o p} : WellShaped o → WellShaped p → WellShaped (member o p true)
  | call {f es} : WellShaped f → (∀ e ∈ es, WellShaped e) → WellShaped (call f es)
  | array {es} : (∀ e ∈ es, WellShaped e) → WellShaped (array es)
  | unary {op e} : WellShaped e → WellShaped (ofUnary op e)
  | binary {op l r} : WellShaped l → WellShaped r → WellShaped (ofBinary op l r)
  | conditional {t c a} : WellShaped t → WellShaped c → WellShaped a →
      WellShaped (conditional t c a)
  | compound {es} : 2 ≤ es.length → (∀ e ∈ es, WellShaped e) → WellShaped (compound es)

/-! ## Rendering -/

/-- The text that data hold. -/
def held : Datum → String
  | .text s => s
  | _ => ""

/-- The level at which the grammar derives a node. A compound is derived at none. -/
def rank : Expr → Nat
  | compound _ | conditional .. => 0
  | binary op _ _ | logical op _ _ => (Phrase.binaryOf op).level
  | unary .. => 12
  | member .. | call .. => 13
  | literal .. | identifier _ | self | array _ => 14

/-- Can a node stand without brackets where an operand of a level is wanted? -/
def isBare (n : Nat) : Expr → Bool
  | compound _ => false
  | e => n ≤ e.rank

/-- The words of an operand, in brackets unless it is bare. -/
def enclosed (bare : Bool) (words : List String) : List String :=
  if bare then words else "(" :: (words ++ [")"])

mutual

/-- The words of an expression: its tokens, in order. -/
def words : Expr → List String
  | literal _ raw => [held raw]
  | identifier name => [held name]
  | self => ["this"]
  | member o p true => enclosed (isBare 13 o) (words o) ++ "[" :: (words p ++ ["]"])
  | member o p false => enclosed (isBare 13 o) (words o) ++ "." :: words p
  | unary op e _ => held op :: enclosed (isBare 12 e) (words e)
  | binary op l r | logical op l r =>
    enclosed (isBare (leftLevel (Phrase.binaryOf op)) l) (words l) ++
      held op :: enclosed (isBare (rightLevel (Phrase.binaryOf op)) r) (words r)
  | conditional t c a =>
    enclosed (isBare 1 t) (words t) ++
      "?" :: (enclosed (isBare 0 c) (words c) ++ ":" :: enclosed (isBare 0 a) (words a))
  | call f es => enclosed (isBare 13 f) (words f) ++ "(" :: (listed es ++ [")"])
  | array es => "[" :: (listed es ++ ["]"])
  | compound es => listed es

/-- The words of expressions with commas between them. -/
def listed : List Expr → List String
  | [] => []
  | [e] => enclosed (isBare 0 e) (words e)
  | e :: es => enclosed (isBare 0 e) (words e) ++ "," :: listed es

end

/-- The text of an expression. -/
def rendering (e : Expr) : String := " ".intercalate (words e)

/-! ## What is read -/

theorem wellShaped_operand {t : Terminal} {e : Expr} (hs : t.Spelled) (h : t.expr? = some e) :
    WellShaped e := by
  cases t with
  | number s =>
    obtain ⟨v, hv, rfl⟩ := Option.map_eq_some_iff.mp h
    exact .number hs hv
  | hexNumber s =>
    obtain ⟨v, hv, rfl⟩ := Option.map_eq_some_iff.mp h
    exact .hexNumber hs hv
  | quoted s =>
    obtain ⟨v, hv, rfl⟩ := Option.map_eq_some_iff.mp h
    exact .quoted hs hv
  | name s =>
    cases h
    unfold Literal.ofName
    cases hv : Literal.ofName? s with
    | some v => exact .keyword hv
    | none =>
      by_cases hthis : s = "this"
      · simpa [hthis] using WellShaped.self
      · simpa [hthis] using WellShaped.identifier hs hv hthis
  | mark m => cases h

/-- The expression of a derivation is well shaped, and so is each of several. -/
def Shapes : Symbol → Phrase → Prop
  | .items, .compound ps => ∀ es, Phrase.exprs? ps = some es → ∀ e ∈ es, WellShaped e
  | .items, _ => True
  | _, p => ∀ e, p.expr? = some e → WellShaped e

theorem shapes_of_derives {symbol : Symbol} {w : List Terminal} {p : Phrase}
    (h : Derives symbol w p) (hw : ∀ t ∈ w, t.Spelled) : Shapes symbol p := by
  induction h with
  | single _ ih => exact ih hw
  | compound _ hlen ih =>
    intro e he
    obtain ⟨es, hes, rfl⟩ := Phrase.expr?_compound he
    exact .compound (Phrase.exprs?_length hes ▸ hlen) (ih hw es hes)
  | first _ ih =>
    intro es hes
    obtain ⟨e, he, rfl⟩ := Phrase.exprs?_singleton hes
    exact List.forall_mem_singleton.mpr (ih hw e he)
  | later _ _ ihw ihv =>
    intro es hes
    obtain ⟨done, e, hdone, he, rfl⟩ := Phrase.exprs?_concat_some hes
    rw [List.forall_mem_append, List.forall_mem_cons] at hw
    rw [List.forall_mem_append, List.forall_mem_singleton]
    exact ⟨ihw hw.1 done hdone, ihv hw.2.2 e he⟩
  | conditional _ _ _ ihw ihv ihu =>
    intro e he
    obtain ⟨t, c, a, ht, hc, ha, rfl⟩ := Phrase.expr?_conditional he
    simp only [List.forall_mem_append, List.forall_mem_cons] at hw
    exact .conditional (ihw hw.1 t ht) (ihv hw.2.2.1 c hc) (ihu hw.2.2.2.2 a ha)
  | tighter _ ih => exact ih hw
  | binary _ _ _ ihw ihv | power _ _ ihw ihv =>
    intro e he
    obtain ⟨l, r, hl, hr, rfl⟩ := Phrase.expr?_binary he
    rw [List.forall_mem_append, List.forall_mem_cons] at hw
    exact .binary (ihw hw.1 l hl) (ihv hw.2.2 r hr)
  | unary _ ih =>
    intro e he
    obtain ⟨f, hf, rfl⟩ := Phrase.expr?_unary he
    exact .unary (ih (List.forall_mem_cons.mp hw).2 f hf)
  | member _ ih =>
    intro e he
    obtain ⟨o, ho, rfl⟩ := Phrase.expr?_member he
    simp only [List.forall_mem_append, List.forall_mem_cons] at hw
    exact .member (ih hw.1 o ho) hw.2.2.1
  | index _ _ ihw ihv =>
    intro e he
    obtain ⟨o, q, ho, hq, rfl⟩ := Phrase.expr?_index he
    simp only [List.forall_mem_append, List.forall_mem_cons] at hw
    exact .index (ihw hw.1 o ho) (ihv hw.2.2.1 q hq)
  | callEmpty _ ih =>
    intro e he
    obtain ⟨f, _, hf, ⟨⟩, rfl⟩ := Phrase.expr?_call he
    rw [List.forall_mem_append] at hw
    exact .call (ih hw.1 f hf) (List.forall_mem_nil _)
  | call _ _ ihw ihv =>
    intro e he
    obtain ⟨f, es, hf, hes, rfl⟩ := Phrase.expr?_call he
    simp only [List.forall_mem_append, List.forall_mem_cons] at hw
    exact .call (ihw hw.1 f hf) (ihv hw.2.2.1 es hes)
  | operand _ =>
    intro e h
    exact wellShaped_operand (List.forall_mem_singleton.mp hw) h
  | arrayEmpty =>
    intro e h
    cases h
    exact .array (List.forall_mem_nil _)
  | array _ ih =>
    intro e he
    obtain ⟨es, hes, rfl⟩ := Phrase.expr?_array he
    simp only [List.forall_mem_append, List.forall_mem_cons] at hw
    exact .array (ih hw.2.1 es hes)
  | paren _ ih =>
    simp only [List.forall_mem_append, List.forall_mem_cons] at hw
    exact ih hw.2.1

theorem spelled_of_cuts {taken ws : List Terminal} {cs : List Char} (h : Cuts taken cs ws) :
    ∀ t ∈ ws, t.Spelled := by
  induction h with
  | done => exact List.forall_mem_nil _
  | take _ hlongest _ ih => exact List.forall_mem_cons.mpr ⟨hlongest.spelled, ih⟩

/-- Every tree that is read is well shaped. -/
theorem wellShaped_of_parse {s : String} {e : Expr} (h : parse s = .ok e) : WellShaped e := by
  obtain ⟨ws, hc, p, hd, he⟩ := cuts_of_parse h
  exact shapes_of_derives hd (spelled_of_cuts hc) e he

/-! ## What is written -/

/-- Terminals with these words, of which something holds. -/
def Written (words : List String) (good : List Terminal → Prop) : Prop :=
  ∃ ws : List Terminal, ws.map Terminal.text = words ∧ (∀ t ∈ ws, t.Spelled) ∧ good ws

/-- A node is derived as a whole sequence, and at the levels at which it is bare. -/
def Sound (e : Expr) (ws : List Terminal) : Prop :=
  DerivedSequence ws e ∧ ∀ n, isBare n e = true → Derived n ws e

variable {n : Nat} {e l r : Expr} {es : List Expr} {ws : List Terminal}

theorem le_rank_of_isBare (h : isBare n e = true) : n ≤ e.rank := by
  cases e <;> first | exact of_decide_eq_true h | cases h

theorem sound_of_rank (h : Derived n ws e) (hn : e.rank = n) : Sound e ws := by
  subst hn
  exact ⟨(h.looser (Nat.zero_le _)).sequence, fun _ hbare => h.looser (le_rank_of_isBare hbare)⟩

@[simp] theorem spelled_mark (m : String) : (Terminal.mark m).Spelled := trivial

/-- An operand is derived at its level, in brackets if it has to be. -/
theorem written_operand (h : Written (words e) (Sound e)) (hn : n ≤ 14) :
    Written (enclosed (isBare n e) (words e)) (Derived n · e) := by
  obtain ⟨ws, hws, hs, hsequence, hlevel⟩ := h
  cases hb : isBare n e with
  | true => exact ⟨ws, hws, hs, hlevel n hb⟩
  | false =>
    refine ⟨.mark "(" :: (ws ++ [.mark ")"]), ?_, ?_, hsequence.paren.looser hn⟩
    · simp [enclosed, hws, Terminal.text]
    · simpa [or_imp, forall_and] using hs

/-- Behind expressions that were begun, several are derived with commas between them. -/
theorem written_begun {done : List Expr} {before : List Terminal} (hbegun : Begun before done)
    (hne : es ≠ []) (h : ∀ e ∈ es, Written (words e) (Sound e)) :
    Written (listed es) fun ws => DerivedItems (before ++ ws) (done ++ es) := by
  induction es generalizing done before with
  | nil => exact absurd rfl hne
  | cons e es ih =>
    obtain ⟨he, hes⟩ := List.forall_mem_cons.mp h
    obtain ⟨v, hv, hsv, hd⟩ := written_operand he (Nat.zero_le 14)
    have hitems := hbegun.add hd
    cases es with
    | nil => exact ⟨v, hv, hsv, hitems⟩
    | cons f es =>
      obtain ⟨w, hw, hsw, hrest⟩ := ih hitems.begun (List.cons_ne_nil f es) hes
      refine ⟨v ++ .mark "," :: w, ?_, ?_, by simpa using hrest⟩
      · simp [listed, hv, hw, Terminal.text]
      · simpa [or_imp, forall_and] using And.intro hsv hsw

theorem written_listed (hne : es ≠ []) (h : ∀ e ∈ es, Written (words e) (Sound e)) :
    Written (listed es) (DerivedItems · es) := by
  simpa using written_begun begun_nil hne h

theorem written_word {t : Terminal} (ht : t.Spelled) (he : t.expr? = some e)
    (hrank : e.rank = 14) (hwords : words e = [t.text]) : Written (words e) (Sound e) := by
  refine ⟨[t], hwords.symm, List.forall_mem_singleton.mpr ht, sound_of_rank (.operand he) hrank⟩

theorem mem_name_of_nameAt {w : List Char} (h : Token.nameAt? w = some w) : w ∈ Lexeme.name := by
  have hlongest := Lexeme.nameAt?_longest w
  rw [h] at hlongest
  exact hlongest.2.1

theorem keyword_mem_name {s : String} {v : Scalar} (h : Literal.ofName? s = some v) :
    s.toList ∈ Lexeme.name := by
  unfold Literal.ofName? at h
  split at h
  · exact mem_name_of_nameAt (by decide)
  · exact mem_name_of_nameAt (by decide)
  · exact mem_name_of_nameAt (by decide)
  · exact mem_name_of_nameAt (by decide)
  · cases h

theorem words_ofBinary (op : BinaryOperator) (l r : Expr) :
    words (ofBinary op l r) = enclosed (isBare (leftLevel op) l) (words l) ++
      op.text :: enclosed (isBare (rightLevel op) r) (words r) := by
  have hop : Phrase.binaryOf (.text op.text) = op := by
    cases op <;> rfl
  unfold ofBinary
  split <;> simp [words, held, hop]

theorem rank_ofBinary (op : BinaryOperator) (l r : Expr) : (ofBinary op l r).rank = op.level := by
  have hop : Phrase.binaryOf (.text op.text) = op := by
    cases op <;> rfl
  unfold ofBinary
  split <;> simp [rank, hop]

theorem leftLevel_le (op : BinaryOperator) : leftLevel op ≤ 14 := by
  cases op <;> decide

/-- A well-shaped tree is derived from terminals that have its words. -/
theorem written_of_wellShaped (h : WellShaped e) : Written (words e) (Sound e) := by
  induction h with
  | @number s v hs hv =>
    exact written_word (t := .number s) hs (by simp [Terminal.expr?, hv]) rfl rfl
  | @hexNumber s v hs hv =>
    exact written_word (t := .hexNumber s) hs (by simp [Terminal.expr?, hv]) rfl rfl
  | @quoted s v hs hv =>
    exact written_word (t := .quoted s) hs (by simp [Terminal.expr?, hv]) rfl rfl
  | @keyword s v hv =>
    exact written_word (t := .name s) (keyword_mem_name hv)
      (by simp [Terminal.expr?, Literal.ofName, hv]) rfl rfl
  | @identifier s hs hv hthis =>
    exact written_word (t := .name s) hs
      (by simp [Terminal.expr?, Literal.ofName, hv, hthis]) rfl rfl
  | self => exact written_word (t := .name "this") (mem_name_of_nameAt (by decide)) rfl rfl rfl
  | @member o s _ hs ih =>
    obtain ⟨w, hw, hsw, hd⟩ := written_operand ih (n := 13) (by decide)
    refine ⟨w ++ [.mark ".", .name s], ?_, ?_, sound_of_rank hd.member rfl⟩
    · simp [words, hw, held, Terminal.text]
    · rw [List.forall_mem_append]
      exact ⟨hsw, List.forall_mem_cons.mpr ⟨trivial, List.forall_mem_singleton.mpr hs⟩⟩
  | @index o p _ _ iho ihp =>
    obtain ⟨w, hw, hsw, hd⟩ := written_operand iho (n := 13) (by decide)
    obtain ⟨v, hv, hsv, hsequence, -⟩ := ihp
    refine ⟨w ++ .mark "[" :: (v ++ [.mark "]"]), ?_, ?_, sound_of_rank (hd.index hsequence) rfl⟩
    · simp [words, hw, hv, Terminal.text]
    · simpa [or_imp, forall_and] using And.intro hsw hsv
  | @call f es _ _ ihf ihes =>
    obtain ⟨w, hw, hsw, hd⟩ := written_operand ihf (n := 13) (by decide)
    cases es with
    | nil =>
      refine ⟨w ++ [.mark "(", .mark ")"], ?_, ?_, sound_of_rank hd.callEmpty rfl⟩
      · simp [words, listed, hw, Terminal.text]
      · simpa [or_imp, forall_and] using hsw
    | cons e es =>
      obtain ⟨v, hv, hsv, hitems⟩ := written_listed (List.cons_ne_nil e es) ihes
      refine ⟨w ++ .mark "(" :: (v ++ [.mark ")"]), ?_, ?_, sound_of_rank (hd.call hitems) rfl⟩
      · simp [words, hw, hv, Terminal.text]
      · simpa [or_imp, forall_and] using And.intro hsw hsv
  | @array es _ ih =>
    cases es with
    | nil => exact ⟨[.mark "[", .mark "]"], rfl, by simp, sound_of_rank .arrayEmpty rfl⟩
    | cons e es =>
      obtain ⟨v, hv, hsv, hitems⟩ := written_listed (List.cons_ne_nil e es) ih
      refine ⟨.mark "[" :: (v ++ [.mark "]"]), ?_, ?_, sound_of_rank hitems.array rfl⟩
      · simp [words, hv, Terminal.text]
      · simpa [or_imp, forall_and] using hsv
  | @unary op a _ ih =>
    obtain ⟨w, hw, hsw, hd⟩ := written_operand ih (n := 12) (by decide)
    refine ⟨.mark op.text :: w, ?_, ?_, sound_of_rank hd.sign rfl⟩
    · simp [words, ofUnary, held, hw, Terminal.text]
    · simpa using hsw
  | @binary op l r _ _ ihl ihr =>
    obtain ⟨w, hw, hsw, hd⟩ := written_operand ihl (leftLevel_le op)
    obtain ⟨v, hv, hsv, hd'⟩ :=
      written_operand ihr (Nat.le_trans (Frame.rightLevel_le op) (by decide))
    refine ⟨w ++ .mark op.text :: v, ?_, ?_,
      sound_of_rank (hd.operator hd') (rank_ofBinary op l r)⟩
    · simp [words_ofBinary, hw, hv, Terminal.text]
    · simpa [or_imp, forall_and] using And.intro hsw hsv
  | @conditional t c a _ _ _ iht ihc iha =>
    obtain ⟨w, hw, hsw, hd⟩ := written_operand iht (n := 1) (by decide)
    obtain ⟨v, hv, hsv, hd'⟩ := written_operand ihc (Nat.zero_le 14)
    obtain ⟨u, hu, hsu, hd''⟩ := written_operand iha (Nat.zero_le 14)
    refine ⟨w ++ .mark "?" :: (v ++ .mark ":" :: u), ?_, ?_,
      sound_of_rank (hd.conditional hd' hd'') rfl⟩
    · simp [words, hw, hv, hu, Terminal.text]
    · simpa [or_imp, forall_and] using And.intro hsw (And.intro hsv hsu)
  | @compound es hlen _ ih =>
    have hne : es ≠ [] := List.ne_nil_of_length_pos (Nat.lt_of_lt_of_le Nat.two_pos hlen)
    obtain ⟨w, hw, hsw, ps, hps, hes⟩ := written_listed hne ih
    refine ⟨w, hw, hsw, ⟨.compound ps, .compound hps ?_, by simp [Phrase.expr?, hes]⟩,
      fun n hn => ?_⟩
    · rwa [← Phrase.exprs?_length hes]
    · cases hn

/-- What is written is read as the tree that it was written from. -/
theorem parse_rendering (h : WellShaped e) : parse (rendering e) = .ok e := by
  obtain ⟨ws, hws, hs, hd, -⟩ := written_of_wellShaped h
  have htext : rendering e = spacedText ws := by
    rw [rendering, spacedText, hws]
  rw [htext]
  exact parse_spacedText hd hs

/-! ## No word too many -/

theorem length_enclosed (bare : Bool) (words : List String) :
    (enclosed bare words).length = words.length + if bare then 0 else 2 := by
  cases bare <;> simp [enclosed]

theorem length_enclosed_of_bare (h : isBare n e = true) :
    (enclosed (isBare n e) (words e)).length = (words e).length := by
  rw [h, enclosed, if_pos rfl]

theorem length_listed_concat (hne : es ≠ []) (e : Expr) :
    (listed (es ++ [e])).length =
      (listed es).length + (enclosed (isBare 0 e) (words e)).length + 1 := by
  induction es with
  | nil => exact absurd rfl hne
  | cons f es ih =>
    cases es with
    | nil =>
      simp [listed]
      omega
    | cons g es =>
      have ih := ih (List.cons_ne_nil g es)
      simp only [List.cons_append, listed, List.length_append, List.length_cons] at ih ⊢
      omega

theorem isBare_looser (h : isBare (n + 1) e = true) : isBare n e = true := by
  cases e <;> first
    | exact decide_eq_true (Nat.le_of_succ_le (of_decide_eq_true h))
    | cases h

theorem isBare_ofBinary (op : BinaryOperator) (l r : Expr) :
    isBare op.level (ofBinary op l r) = true := by
  have hrank := rank_ofBinary op l r
  unfold ofBinary at hrank ⊢
  by_cases hlogical : op.isLogical = true
  · rw [if_pos hlogical] at hrank ⊢
    exact decide_eq_true (Nat.le_of_eq hrank.symm)
  · rw [if_neg hlogical] at hrank ⊢
    exact decide_eq_true (Nat.le_of_eq hrank.symm)

/-- No sentence of an expression has fewer words than are written for it. -/
def Fewest : Symbol → List Terminal → Phrase → Prop
  | .items, ws, .compound ps =>
    ∀ es, Phrase.exprs? ps = some es → (listed es).length ≤ ws.length
  | .items, _, _ => True
  | .sequence, ws, p => ∀ e, p.expr? = some e → (words e).length ≤ ws.length
  | .level n, ws, p =>
    ∀ e, p.expr? = some e → (enclosed (isBare n e) (words e)).length ≤ ws.length

theorem fewest_operand {t : Terminal} (h : t.expr? = some e) :
    isBare 14 e = true ∧ (words e).length = 1 := by
  cases t with
  | number s | hexNumber s | quoted s =>
    obtain ⟨v, -, rfl⟩ := Option.map_eq_some_iff.mp h
    exact ⟨rfl, rfl⟩
  | name s =>
    cases h
    unfold Literal.ofName
    split
    · exact ⟨rfl, rfl⟩
    · split <;> exact ⟨rfl, rfl⟩
  | mark m => cases h

theorem fewest_operator {op : BinaryOperator} {w v : List Terminal} {p q : Phrase}
    (hw : Fewest (level (leftLevel op)) w p) (hv : Fewest (level (rightLevel op)) v q) :
    Fewest (level op.level) (w ++ .mark op.text :: v) (.binary op p q) := by
  intro e he
  obtain ⟨l, r, hl, hr, rfl⟩ := Phrase.expr?_binary he
  rw [length_enclosed_of_bare (isBare_ofBinary op l r), words_ofBinary]
  simp only [List.length_append, List.length_cons]
  exact Nat.add_le_add (hw l hl) (Nat.succ_le_succ (hv r hr))

theorem fewest_of_derives {symbol : Symbol} {p : Phrase} (h : Derives symbol ws p) :
    Fewest symbol ws p := by
  induction h with
  | single _ ih =>
    intro e he
    have := ih e he
    rw [length_enclosed] at this
    exact Nat.le_of_add_right_le this
  | compound _ _ ih =>
    intro e he
    obtain ⟨es, hes, rfl⟩ := Phrase.expr?_compound he
    exact ih es hes
  | first _ ih =>
    intro es hes
    obtain ⟨e, he, rfl⟩ := Phrase.exprs?_singleton hes
    exact ih e he
  | later hd _ ihw ihv =>
    intro es hes
    obtain ⟨done, e, hdone, he, rfl⟩ := Phrase.exprs?_concat_some hes
    have hne : done ≠ [] := by
      rintro rfl
      have hlen := Phrase.exprs?_length hdone
      exact hd.items_ne_nil (List.length_eq_zero_iff.mp hlen.symm)
    have hw := ihw done hdone
    have hv := ihv e he
    rw [length_listed_concat hne]
    simp only [List.length_append, List.length_cons]
    omega
  | conditional _ _ _ ihw ihv ihu =>
    intro e he
    obtain ⟨t, c, a, ht, hc, ha, rfl⟩ := Phrase.expr?_conditional he
    have hw := ihw t ht
    have hv := ihv c hc
    have hu := ihu a ha
    rw [length_enclosed_of_bare rfl]
    simp only [words, List.length_append, List.length_cons]
    omega
  | tighter _ ih =>
    rename_i n w p _
    intro e he
    have hlen := ih e he
    rw [length_enclosed] at hlen ⊢
    cases hb : isBare (n + 1) e with
    | true =>
      rw [isBare_looser hb]
      rwa [hb] at hlen
    | false =>
      rw [hb] at hlen
      split <;> simp at hlen ⊢ <;> omega
  | binary hne _ _ ihw ihv =>
    refine fewest_operator ?_ ?_
    · rwa [leftLevel, if_neg hne]
    · rwa [rightLevel, if_neg hne]
  | power _ _ ihw ihv => exact @fewest_operator .power _ _ _ _ ihw ihv
  | unary _ ih =>
    intro e he
    obtain ⟨f, hf, rfl⟩ := Phrase.expr?_unary he
    exact Nat.succ_le_succ (ih f hf)
  | member _ ih =>
    intro e he
    obtain ⟨o, ho, rfl⟩ := Phrase.expr?_member he
    have hw := ih o ho
    rw [length_enclosed_of_bare rfl]
    simp only [words, held, List.length_append, List.length_cons, List.length_nil]
    omega
  | index _ _ ihw ihv =>
    intro e he
    obtain ⟨o, q, ho, hq, rfl⟩ := Phrase.expr?_index he
    have hw := ihw o ho
    have hv := ihv q hq
    rw [length_enclosed_of_bare rfl]
    simp only [words, List.length_append, List.length_cons, List.length_nil]
    omega
  | callEmpty _ ih =>
    intro e he
    obtain ⟨f, _, hf, ⟨⟩, rfl⟩ := Phrase.expr?_call he
    have hw := ih f hf
    rw [length_enclosed_of_bare rfl]
    simp only [words, listed, List.length_append, List.length_cons, List.length_nil]
    omega
  | call _ _ ihw ihv =>
    intro e he
    obtain ⟨f, es, hf, hes, rfl⟩ := Phrase.expr?_call he
    have hw := ihw f hf
    have hv := ihv es hes
    rw [length_enclosed_of_bare rfl]
    simp only [words, List.length_append, List.length_cons, List.length_nil]
    omega
  | operand _ =>
    intro e h
    obtain ⟨hbare, hlen⟩ := fewest_operand h
    rw [length_enclosed_of_bare hbare]
    exact Nat.le_of_eq hlen
  | arrayEmpty =>
    intro e h
    cases h
    exact Nat.le_refl 2
  | array _ ih =>
    intro e he
    obtain ⟨es, hes, rfl⟩ := Phrase.expr?_array he
    have hlen := ih es hes
    rw [length_enclosed_of_bare rfl]
    simp only [words, List.length_append, List.length_cons, List.length_nil]
    omega
  | paren _ ih =>
    intro e he
    have hlen := ih e he
    rw [length_enclosed]
    simp only [List.length_append, List.length_cons]
    split <;> omega

/-- Every tree that is read is well shaped, and every well-shaped tree, however deep, is read back
from its text. The text has brackets only where they are needed: no sentence of the tree has fewer
words. -/
theorem reading_undoes_rendering :
    (∀ s e, parse s = .ok e → WellShaped e) ∧
    (∀ e, WellShaped e → parse (rendering e) = .ok e) ∧
    ∀ e ws, DerivedSequence ws e → (words e).length ≤ ws.length := by
  refine ⟨fun s e => wellShaped_of_parse, fun e => parse_rendering, fun e ws h => ?_⟩
  obtain ⟨p, hp, he⟩ := h
  exact fewest_of_derives hp e he

/-- A power of a sign. Two expressions are its exponent. -/
def powerOfSign : Expr :=
  ofBinary .power (ofUnary .minus (identifier (.text "a"))) (compound [identifier (.text "b"), self])

/-- A sign stands bare before a power, and a compound only where a sequence is wanted. -/
theorem a_power_of_a_sign_is_read_back : parse "- a ** ( b , this )" = .ok powerOfSign := by
  have hname : ∀ s : String, Token.nameAt? s.toList = some s.toList → Literal.ofName? s = none →
      s ≠ "this" → WellShaped (identifier (.text s)) :=
    fun s hs => .identifier (mem_name_of_nameAt hs)
  have ha := hname "a" (by decide) (by decide) (by decide)
  have hb := hname "b" (by decide) (by decide) (by decide)
  have hboth : WellShaped (compound [identifier (.text "b"), self]) :=
    .compound (Nat.le_refl 2) (by simp [hb, WellShaped.self])
  have hshaped : WellShaped powerOfSign := .binary (.unary ha) hboth
  have hwritten : rendering powerOfSign = "- a ** ( b , this )" := by decide
  have hread := reading_undoes_rendering.2.1 powerOfSign hshaped
  rwa [hwritten] at hread

end Switchboard.Expr
