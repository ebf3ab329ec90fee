-- What has been read at any moment of reading: the open frames, from the outside in, and the
-- operand that is held are derived from the terminals before. From there the tree at the end is a
-- derived one, and whatever is open can be closed again, so no token is taken that no sentence goes
-- on with.
import Switchboard.Proofs.Stands
import Switchboard.Proofs.Transitions
namespace Switchboard

open Grammar Symbol

/-! ## Derived expressions -/

namespace Grammar

/-- The expression is the one of a derivation of the terminals at a level. -/
def Derived (n : Nat) (w : List Terminal) (e : Expr) : Prop :=
  ∃ p, Derives (level n) w p ∧ p.expr? = some e

def DerivedItems (w : List Terminal) (es : List Expr) : Prop :=
  ∃ ps, Derives items w (.compound ps) ∧ Phrase.exprs? ps = some es

def DerivedSequence (w : List Terminal) (e : Expr) : Prop :=
  ∃ p, Derives sequence w p ∧ p.expr? = some e

/-- Nothing, or expressions with a comma behind the last one. -/
def Begun (w : List Terminal) (es : List Expr) : Prop :=
  (w = [] ∧ es = []) ∨ ∃ v, DerivedItems v es ∧ w = v ++ [.mark ","]

variable {n m : Nat} {w v u : List Terminal} {e f g : Expr} {es : List Expr}

namespace Derived

theorem looser (h : Derived n w e) (hm : m ≤ n) : Derived m w e := by
  obtain ⟨p, hp, he⟩ := h
  exact ⟨p, hp.looser hm, he⟩

theorem operator {op : BinaryOperator} (h : Derived (leftLevel op) w e)
    (h' : Derived (rightLevel op) v f) :
    Derived op.level (w ++ .mark op.text :: v) (Expr.ofBinary op e f) := by
  obtain ⟨p, hp, he⟩ := h
  obtain ⟨q, hq, hf⟩ := h'
  exact ⟨_, hp.operator hq, by simp [Phrase.expr?, he, hf]⟩

theorem sign {op : UnaryOperator} (h : Derived 12 w e) :
    Derived 12 (.mark op.text :: w) (Expr.ofUnary op e) := by
  obtain ⟨p, hp, he⟩ := h
  exact ⟨_, hp.unary, by simp [Phrase.expr?, he]⟩

theorem conditional (h : Derived 1 w e) (h' : Derived 0 v f) (h'' : Derived 0 u g) :
    Derived 0 (w ++ .mark "?" :: (v ++ .mark ":" :: u)) (.conditional e f g) := by
  obtain ⟨p, hp, he⟩ := h
  obtain ⟨q, hq, hf⟩ := h'
  obtain ⟨r, hr, hg⟩ := h''
  exact ⟨_, hp.conditional hq hr, by simp [Phrase.expr?, he, hf, hg]⟩

theorem member {s : String} (h : Derived 13 w e) :
    Derived 13 (w ++ [.mark ".", .name s]) (.member e (.identifier (.text s)) false) := by
  obtain ⟨p, hp, he⟩ := h
  exact ⟨_, hp.member, by simp [Phrase.expr?, he]⟩

theorem index (h : Derived 13 w e) (h' : DerivedSequence v f) :
    Derived 13 (w ++ .mark "[" :: (v ++ [.mark "]"])) (.member e f true) := by
  obtain ⟨p, hp, he⟩ := h
  obtain ⟨q, hq, hf⟩ := h'
  exact ⟨_, hp.index hq, by simp [Phrase.expr?, he, hf]⟩

theorem callEmpty (h : Derived 13 w e) :
    Derived 13 (w ++ [.mark "(", .mark ")"]) (.call e []) := by
  obtain ⟨p, hp, he⟩ := h
  exact ⟨_, hp.callEmpty, by simp [Phrase.expr?, Phrase.exprs?, he]⟩

theorem call (h : Derived 13 w e) (h' : DerivedItems v es) :
    Derived 13 (w ++ .mark "(" :: (v ++ [.mark ")"])) (.call e es) := by
  obtain ⟨p, hp, he⟩ := h
  obtain ⟨ps, hps, hes⟩ := h'
  exact ⟨_, hp.call hps, by simp [Phrase.expr?, he, hes]⟩

theorem arrayEmpty : Derived 14 [.mark "[", .mark "]"] (.array []) :=
  ⟨_, .arrayEmpty, by simp [Phrase.expr?, Phrase.exprs?]⟩

theorem operand {t : Terminal} (h : t.expr? = some e) : Derived 14 [t] e := by
  refine ⟨_, .operand ?_, by simpa [Phrase.expr?] using h⟩
  cases t with
  | mark m => cases h
  | _ => rfl

end Derived

theorem DerivedItems.array (h : DerivedItems w es) :
    Derived 14 (.mark "[" :: (w ++ [.mark "]"])) (.array es) := by
  obtain ⟨ps, hps, hes⟩ := h
  exact ⟨_, hps.array, by simp [Phrase.expr?, hes]⟩

theorem DerivedSequence.paren (h : DerivedSequence w e) :
    Derived 14 (.mark "(" :: (w ++ [.mark ")"])) e := by
  obtain ⟨p, hp, he⟩ := h
  exact ⟨p, hp.paren, he⟩

theorem Derived.sequence (h : Derived 0 w e) : DerivedSequence w e := by
  obtain ⟨p, hp, he⟩ := h
  exact ⟨p, hp.single, he⟩

/-- One more expression behind those that were begun. -/
theorem Begun.add (h : Begun w es) (h' : Derived 0 v e) : DerivedItems (w ++ v) (es ++ [e]) := by
  obtain ⟨q, hq, he⟩ := h'
  rcases h with ⟨rfl, rfl⟩ | ⟨u, ⟨ps, hps, hes⟩, rfl⟩
  · exact ⟨[q], hq.first, by simp [Phrase.exprs?, he]⟩
  · refine ⟨ps ++ [q], ?_, by simp [Phrase.exprs?_concat, hes, he]⟩
    rw [List.append_assoc]
    exact hps.later hq

/-- Several expressions that were begun are a compound with one more. -/
theorem Begun.sequence (h : Begun w es) (hne : es ≠ []) (h' : Derived 0 v e) :
    DerivedSequence (w ++ v) (.compound (es ++ [e])) := by
  obtain ⟨q, hq, he⟩ := h'
  rcases h with ⟨-, rfl⟩ | ⟨u, ⟨ps, hps, hes⟩, rfl⟩
  · exact absurd rfl hne
  · refine ⟨.compound (ps ++ [q]), .compound ?_ ?_, ?_⟩
    · rw [List.append_assoc]
      exact hps.later hq
    · have hpos := List.length_pos_of_ne_nil hps.items_ne_nil
      simp
      omega
    · simp [Phrase.expr?, Phrase.exprs?_concat, hes, he]

theorem begun_nil : Begun [] [] := .inl ⟨rfl, rfl⟩

theorem Begun.eq_nil (h : Begun w []) : w = [] := by
  rcases h with ⟨rfl, -⟩ | ⟨v, ⟨ps, hps, hes⟩, rfl⟩
  · rfl
  · cases ps with
    | nil => exact absurd rfl hps.items_ne_nil
    | cons p ps =>
      cases hp : p.expr? <;> cases hq : Phrase.exprs? ps <;> simp [Phrase.exprs?, hp, hq] at hes

theorem DerivedItems.begun (h : DerivedItems w es) : Begun (w ++ [.mark ","]) es :=
  .inr ⟨w, h, rfl⟩

end Grammar

namespace Expr

open State

/-! ## Open frames -/

namespace Frame

/-- Is there nothing on top that is completed at a tightness? -/
def Firm (n : Nat) : List Frame → Prop
  | sign _ :: _ => False
  | left _ op :: _ => op.level < n
  | alternate _ _ :: _ => n ≠ 0
  | _ => True

/-- Is an operand that is derived at a level tight enough for the frame on top? -/
def Fits (n : Nat) : List Frame → Prop
  | sign _ :: _ => 12 ≤ n
  | left _ op :: _ => rightLevel op ≤ n
  | _ => True

/-- Is a whole sequence wanted, and not just one conditional? -/
def Enclosed : List Frame → Prop
  | [] | paren :: _ | index _ :: _ => True
  | _ => False

variable {n m : Nat} {frames : List Frame} {e : Expr}

theorem reduce_of_firm (h : Firm n frames) : reduce n frames e = (frames, e) := by
  cases frames with
  | nil => rfl
  | cons frame rest =>
    cases frame with
    | sign op => exact h.elim
    | left l op => rw [reduce, if_neg (Nat.not_le_of_lt h)]
    | alternate t c => rw [reduce, if_neg h]
    | _ => rfl

theorem Firm.mono (h : Firm n frames) (hm : n ≤ m) : Firm m frames := by
  unfold Firm at h ⊢
  split at h
  · exact h
  · exact Nat.lt_of_lt_of_le h hm
  · exact fun hz => h (Nat.le_zero.mp (hz ▸ hm))
  · simp_all

theorem Enclosed.firm (h : Enclosed frames) : Firm n frames := by
  unfold Enclosed at h
  split at h
  · trivial
  · trivial
  · trivial
  · exact h.elim

theorem level_le (op : BinaryOperator) : op.level ≤ 11 := by
  cases op <;> decide

theorem level_pos (op : BinaryOperator) : 1 ≤ op.level := by
  cases op <;> decide

theorem level_eq_power {op : BinaryOperator} (h : op.level = 11) : op = .power := by
  cases op <;> first | rfl | exact absurd h (by decide)

theorem rightLevel_le (op : BinaryOperator) : rightLevel op ≤ 12 := by
  cases op <;> decide

theorem fits_of_le (h : 12 ≤ n) : Fits n frames := by
  unfold Fits
  split
  · exact h
  · exact Nat.le_trans (rightLevel_le _) h
  · trivial

theorem bound_le (op : BinaryOperator) : bound op ≤ 12 := by
  cases op <;> decide

theorem bound_eq (op : BinaryOperator) : bound op = leftLevel op := by
  unfold bound leftLevel
  split
  · rename_i h
    rw [h]
    rfl
  · rfl

/-- Below an operator stands nothing that its result would be too loose for. -/
theorem Firm.fits {op : BinaryOperator} (h : Firm (bound op) frames) : Fits op.level frames := by
  unfold Fits
  split
  · exact h.elim
  · rename_i l op' rest
    have hlt : op'.level < bound op := h
    unfold bound at hlt
    unfold rightLevel
    have hle := level_le op
    by_cases hop : op = .power <;> by_cases hop' : op' = .power
    · rw [hop, if_pos hop']
      decide
    · have hne : op'.level ≠ 11 := fun h => hop' (level_eq_power h)
      have hp : op.level = 11 := by rw [hop]; rfl
      rw [if_pos hop] at hlt
      rw [if_neg hop']
      omega
    · have hp : op'.level = 11 := by rw [hop']; rfl
      rw [if_neg hop] at hlt
      omega
    · rw [if_neg hop] at hlt
      rw [if_neg hop']
      omega
  · trivial

theorem Firm.fits_zero (h : Firm 1 frames) : Fits 0 frames := by
  unfold Fits
  split
  · exact h.elim
  · rename_i l op rest
    have hlt : op.level < 1 := h
    have hpos := level_pos op
    omega
  · trivial

end Frame

open Frame

/-- The terminals before the open frames end, and what the frames hold is derived from them. -/
inductive Opened : List Frame → List Terminal → Prop
  | nil : Opened [] []
  | sign {fs w op} : Opened fs w → Opened (.sign op :: fs) (w ++ [.mark op.text])
  | left {fs w v e op} : Opened fs w → Firm (bound op) fs → Derived (bound op) v e →
      Opened (.left e op :: fs) (w ++ (v ++ [.mark op.text]))
  | consequent {fs w v t} : Opened fs w → Firm 1 fs → Derived 1 v t →
      Opened (.consequent t :: fs) (w ++ (v ++ [.mark "?"]))
  | alternate {fs w v u t c} : Opened fs w → Firm 1 fs → Derived 1 v t → Derived 0 u c →
      Opened (.alternate t c :: fs) (w ++ (v ++ .mark "?" :: (u ++ [.mark ":"])))
  | sequence {fs w v es} : Opened fs w → Enclosed fs → Begun v es → es ≠ [] →
      Opened (.sequence es :: fs) (w ++ v)
  | paren {fs w} : Opened fs w → Opened (.paren :: fs) (w ++ [.mark "("])
  | index {fs w v o} : Opened fs w → Derived 13 v o →
      Opened (.index o :: fs) (w ++ (v ++ [.mark "["]))
  | arguments {fs w v u f es} : Opened fs w → Derived 13 v f → Begun u es →
      Opened (.arguments f es :: fs) (w ++ (v ++ .mark "(" :: u))
  | elements {fs w u es} : Opened fs w → Begun u es →
      Opened (.elements es :: fs) (w ++ .mark "[" :: u)

variable {n m : Nat} {frames : List Frame} {e : Expr} {w v : List Terminal}

/-- Where an operand is held: the terminals are those of what is open and those of the operand. -/
def Holds (n : Nat) (r : List Frame × Expr) (w : List Terminal) : Prop :=
  ∃ w₁ w₂, w = w₁ ++ w₂ ∧ Opened r.1 w₁ ∧ Derived n w₂ r.2

/-- Completing frames keeps the terminals and leaves nothing on top that could be completed. -/
theorem reduce_holds (hn : n ≤ 12) (ho : Opened frames w) (hd : Derived m v e)
    (hm : Fits m frames) (hnm : n ≤ m) :
    Firm n (reduce n frames e).1 ∧ Holds n (reduce n frames e) (w ++ v) := by
  induction frames, e using reduce.induct n generalizing w v m with
  | case1 op rest e ih =>
    cases ho with
    | sign ho =>
      rw [reduce, List.append_assoc]
      exact ih ho (hd.looser hm).sign (fits_of_le (Nat.le_refl 12)) hn
  | case2 l op rest e hop ih =>
    cases ho with
    | left ho hfirm hl =>
      rw [reduce, if_pos hop, List.append_assoc, List.append_assoc]
      rw [bound_eq] at hl
      exact ih ho (hl.operator (hd.looser hm)) hfirm.fits hop
  | case3 l op rest e hop =>
    rw [reduce, if_neg hop]
    exact ⟨Nat.lt_of_not_le hop, w, v, rfl, ho, hd.looser hnm⟩
  | case4 t c rest e hz ih =>
    cases ho with
    | alternate ho hfirm ht hc =>
      rw [reduce, if_pos hz, List.append_assoc, List.append_assoc]
      have hall := ht.conditional hc (hd.looser (Nat.zero_le m))
      have h := ih ho hall hfirm.fits_zero (Nat.le_of_eq hz)
      simpa using h
  | case5 t c rest e hz =>
    rw [reduce, if_neg hz]
    exact ⟨hz, w, v, rfl, ho, hd.looser hnm⟩
  | case6 frames e hsign hleft halternate =>
    have hr : reduce n frames e = (frames, e) := by
      rw [reduce]
      · exact hsign
      · exact hleft
      · exact halternate
    rw [hr]
    refine ⟨?_, w, v, rfl, ho, hd.looser hnm⟩
    cases frames with
    | nil => trivial
    | cons frame rest =>
      cases frame with
      | sign op => exact hsign op rest rfl
      | left l op => exact (hleft l op rest rfl).elim
      | alternate t c => exact (halternate t c rest rfl).elim
      | _ => trivial

/-- Up to the nearest bracket a sequence is held, and a single conditional unless the bracket can
take a whole sequence. -/
theorem complete_holds (ho : Opened frames w) (hd : Derived 13 v e) :
    ∃ w₁ w₂, w ++ v = w₁ ++ w₂ ∧ Opened (complete frames e).1 w₁ ∧
      DerivedSequence w₂ (complete frames e).2 ∧
      (Enclosed (complete frames e).1 ∨ Derived 0 w₂ (complete frames e).2) := by
  obtain ⟨-, w₁, w₂, hw, ho', hd'⟩ :=
    reduce_holds (Nat.zero_le 12) ho hd (fits_of_le (by decide)) (Nat.zero_le 13)
  unfold complete
  split
  · rename_i done rest e' hr
    rw [hr] at ho' hd'
    cases ho' with
    | sequence ho' henclosed hbegun hne =>
      refine ⟨_, _, ?_, ho', hbegun.sequence hne hd', .inl henclosed⟩
      rw [hw, List.append_assoc]
  · exact ⟨w₁, w₂, hw, ho', hd'.sequence, .inr hd'⟩

/-! ## States -/

namespace State

/-- Where the next token stands. -/
def stand : State → Stand
  | awaiting _ => .operand
  | holding _ _ => .operator
  | naming _ _ => .part

/-- What has been read when a state is reached. -/
def Reached : State → List Terminal → Prop
  | awaiting frames, w => Opened frames w
  | holding frames e, w => Holds 13 (frames, e) w
  | naming frames o, w => ∃ v, w = v ++ [.mark "."] ∧ Holds 13 (frames, o) v

variable {state state' : State} {t : Token}

theorem unary_fits (op : UnaryOperator) : (Token.unary op).fits .operand = true := by
  cases op <;> decide

theorem binary_fits (op : BinaryOperator) : (Token.binary op).fits .operator = true := by
  cases op <;> decide

theorem operand?_fits {found : Option Expr} (h : Literal.operand? t = some found) :
    t.fits .operand = true ∧ t.next = .operator := by
  cases t <;> first | exact ⟨rfl, rfl⟩ | cases h

theorem operand?_of_isOperand (h : t.terminal.isOperand = true) :
    Literal.operand? t = some t.terminal.expr? := by
  cases t <;> first | rfl | cases h

/-- Where an operand is wanted, one is taken unless it has no value. -/
theorem take_operand (h : t.terminal.isOperand = true) :
    (awaiting frames).take t = t.terminal.expr?.elim (.error .valueless) (.ok ∘ holding frames) := by
  simp only [take, takeOperand, operand?_of_isOperand h]
  cases t.terminal.expr? <;> rfl

/-- A token that is taken is one that can stand there. -/
theorem take_fits (h : state.take t = .ok state') :
    t.fits state.stand = true ∧ state'.stand = t.next := by
  cases take_ok_iff.mp h with
  | operand he => exact ⟨(operand?_fits he).1, (operand?_fits he).2.symm⟩
  | sign => exact ⟨unary_fits _, rfl⟩
  | binary _ => exact ⟨binary_fits _, rfl⟩
  | _ => exact ⟨rfl, rfl⟩

/-! ### What is read -/

theorem operand?_terminal (h : Literal.operand? t = some (some e)) : t.terminal.expr? = some e := by
  cases t <;> first | exact Option.some.inj h | cases h

/-- What is held when frames have been completed for a token behind an operand. -/
theorem reached_reduced {n : Nat} {r : List Frame × Expr} (hr : reduce n frames e = r)
    (hn : n ≤ 12) (hs : (holding frames e).Reached w) : Firm n r.1 ∧ Holds n r w := by
  obtain ⟨w₁, w₂, rfl, ho, hd⟩ := hs
  subst hr
  exact reduce_holds hn ho hd (fits_of_le (by decide)) (Nat.le_succ_of_le hn)

theorem reached_completed {r : List Frame × Expr} (hc : complete frames e = r)
    (hs : (holding frames e).Reached w) :
    ∃ w₁ w₂, w = w₁ ++ w₂ ∧ Opened r.1 w₁ ∧ DerivedSequence w₂ r.2 ∧
      (Enclosed r.1 ∨ Derived 0 w₂ r.2) := by
  obtain ⟨w₁, w₂, rfl, ho, hd⟩ := hs
  subst hc
  exact complete_holds ho hd

theorem enclosed_of_begins (hfirm : Firm 0 frames) (h : begins frames = true) :
    Enclosed frames := by
  cases frames with
  | nil => trivial
  | cons frame rest =>
    cases frame with
    | sign op => exact hfirm.elim
    | left l op => exact (Nat.not_lt_zero _ hfirm).elim
    | alternate t c => exact (hfirm rfl).elim
    | paren | index o => trivial
    | _ => cases h

/-- Whatever token is taken, what is open and held stays derived from the terminals. -/
theorem take_reached (hs : state.Reached w) (h : state.take t = .ok state') :
    state'.Reached (w ++ [t.terminal]) := by
  cases take_ok_iff.mp h with
  | operand he => exact ⟨w, _, rfl, hs, (Derived.operand (operand?_terminal he)).looser (by decide)⟩
  | sign => exact hs.sign
  | paren => exact hs.paren
  | elements => exact hs.elements begun_nil
  | callEmpty =>
    cases hs with
    | arguments ho hf hbegun =>
      obtain rfl := hbegun.eq_nil
      exact ⟨_, _, by simp [Token.terminal, Token.text], ho, hf.callEmpty⟩
  | arrayEmpty =>
    cases hs with
    | elements ho hbegun =>
      obtain rfl := hbegun.eq_nil
      exact ⟨_, _, by simp [Token.terminal, Token.text], ho, Derived.arrayEmpty.looser (by decide)⟩
  | binary hr =>
    obtain ⟨hfirm, w₁, w₂, rfl, ho, hd⟩ := reached_reduced hr (bound_le _) hs
    rw [List.append_assoc]
    exact ho.left hfirm hd
  | question hr =>
    obtain ⟨hfirm, w₁, w₂, rfl, ho, hd⟩ := reached_reduced hr (by decide) hs
    rw [List.append_assoc]
    exact ho.consequent hfirm hd
  | colon hr =>
    obtain ⟨-, w₁, w₂, rfl, ho, hd⟩ := reached_reduced hr (by decide) hs
    cases ho with
    | consequent ho hfirm ht =>
      simpa [Reached, Token.terminal, Token.text] using ho.alternate hfirm ht hd
  | inSequence hr =>
    obtain ⟨-, w₁, w₂, rfl, ho, hd⟩ := reached_reduced hr (by decide) hs
    cases ho with
    | sequence ho henclosed hbegun _ =>
      simpa [Reached, Token.terminal, Token.text] using
        ho.sequence henclosed (hbegun.add hd).begun (by simp)
  | inArguments hr =>
    obtain ⟨-, w₁, w₂, rfl, ho, hd⟩ := reached_reduced hr (by decide) hs
    cases ho with
    | arguments ho hf hbegun =>
      simpa [Reached, Token.terminal, Token.text] using ho.arguments hf (hbegun.add hd).begun
  | inElements hr =>
    obtain ⟨-, w₁, w₂, rfl, ho, hd⟩ := reached_reduced hr (by decide) hs
    cases ho with
    | elements ho hbegun =>
      simpa [Reached, Token.terminal, Token.text] using ho.elements (hbegun.add hd).begun
  | beginSequence hr hbegins =>
    obtain ⟨hfirm, w₁, w₂, rfl, ho, hd⟩ := reached_reduced hr (by decide) hs
    have henclosed := enclosed_of_begins hfirm hbegins
    simpa [Reached, Token.terminal, Token.text] using
      ho.sequence henclosed (begun_nil.add hd).begun (by simp)
  | dot => exact ⟨_, rfl, hs⟩
  | arguments =>
    obtain ⟨w₁, w₂, rfl, ho, hd⟩ := hs
    rw [List.append_assoc]
    exact ho.arguments hd begun_nil
  | index =>
    obtain ⟨w₁, w₂, rfl, ho, hd⟩ := hs
    rw [List.append_assoc]
    exact ho.index hd
  | closeParen hc =>
    obtain ⟨w₁, w₂, rfl, ho, hsequence, -⟩ := reached_completed hc hs
    cases ho with
    | paren ho =>
      exact ⟨_, _, by simp [Token.terminal, Token.text], ho, hsequence.paren.looser (by decide)⟩
  | closeArguments hc =>
    obtain ⟨w₁, w₂, rfl, ho, -, hlast⟩ := reached_completed hc hs
    cases ho with
    | arguments ho hf hbegun =>
      have hcall := hf.call (hbegun.add (hlast.resolve_left id))
      exact ⟨_, _, by simp [Token.terminal, Token.text], ho, hcall⟩
  | closeIndex hc =>
    obtain ⟨w₁, w₂, rfl, ho, hsequence, -⟩ := reached_completed hc hs
    cases ho with
    | index ho hobject =>
      exact ⟨_, _, by simp [Token.terminal, Token.text], ho, hobject.index hsequence⟩
  | closeElements hc =>
    obtain ⟨w₁, w₂, rfl, ho, -, hlast⟩ := reached_completed hc hs
    cases ho with
    | elements ho hbegun =>
      have harray := (hbegun.add (hlast.resolve_left id)).array
      exact ⟨_, _, by simp [Token.terminal, Token.text], ho, harray.looser (by decide)⟩
  | part =>
    obtain ⟨_, rfl, w₁, w₂, rfl, ho, hd⟩ := hs
    exact ⟨_, _, by simp [Token.terminal], ho, hd.member⟩

theorem reached_nil : (awaiting []).Reached [] := Opened.nil

/-- A run of tokens reads their terminals. -/
theorem run_reached {ts : List Token} (hs : state.Reached w)
    (h : ts.foldlM take state = .ok state') :
    state'.Reached (w ++ ts.map Token.terminal) ∧
      Reads state.stand (ts.map Token.terminal) ts state'.stand := by
  induction ts generalizing state w with
  | nil =>
    cases h
    exact ⟨by simpa using hs, .nil⟩
  | cons t ts ih =>
    rw [List.foldlM_cons] at h
    cases hu : state.take t with
    | error r =>
      rw [hu] at h
      cases h
    | ok u =>
      rw [hu] at h
      obtain ⟨hfits, hstand⟩ := take_fits hu
      obtain ⟨hreached, hreads⟩ := ih (take_reached hs hu) h
      rw [hstand] at hreads
      exact ⟨by simpa using hreached, .cons hfits hreads⟩

/-- The expression at the end is derived from all the terminals. -/
theorem finish_derived (hs : state.Reached w) (h : state.finish? = some e) :
    DerivedSequence w e := by
  unfold finish? at h
  split at h
  · rename_i frames operand
    obtain ⟨w₁, w₂, rfl, ho, hd⟩ := hs
    obtain ⟨w₁, w₂, hw, ho', hs', -⟩ := complete_holds ho hd
    split at h
    · rename_i e' hr
      rw [hr] at ho' hs'
      cases h
      cases ho'
      rw [hw]
      exact hs'
    · cases h
  · cases h

end State

/-! ## Closing what is open -/

/-- An operand behind open frames, and whole sequences where they are wanted, can be the beginning
of a sentence. -/
theorem closable (ho : Opened frames w) :
    (∀ m v e, Fits m frames → Derived m v e → ∃ u f, DerivedSequence (w ++ (v ++ u)) f) ∧
      (Enclosed frames → ∀ v e, DerivedSequence v e → ∃ u f, DerivedSequence (w ++ (v ++ u)) f) := by
  have hx : Derived 14 [.name "x"] (Literal.ofName "x") := Derived.operand rfl
  induction ho with
  | nil =>
    refine ⟨fun m v e _ hd => ⟨[], e, ?_⟩, fun _ v e hs => ⟨[], e, by simpa using hs⟩⟩
    simpa using (hd.looser (Nat.zero_le m)).sequence
  | sign _ ih =>
    refine ⟨fun m v e hm hd => ?_, fun h => h.elim⟩
    obtain ⟨u, f, hf⟩ := ih.1 12 _ _ (fits_of_le (Nat.le_refl 12)) (hd.looser hm).sign
    exact ⟨u, f, by simpa using hf⟩
  | left _ hfirm hl ih =>
    refine ⟨fun m v e hm hd => ?_, fun h => h.elim⟩
    rw [bound_eq] at hl
    obtain ⟨u, f, hf⟩ := ih.1 _ _ _ hfirm.fits (hl.operator (hd.looser hm))
    exact ⟨u, f, by simpa using hf⟩
  | consequent _ hfirm ht ih =>
    refine ⟨fun m v e _ hd => ?_, fun h => h.elim⟩
    have hall := ht.conditional (hd.looser (Nat.zero_le m)) (hx.looser (Nat.zero_le 14))
    obtain ⟨u, f, hf⟩ := ih.1 _ _ _ hfirm.fits_zero hall
    exact ⟨.mark ":" :: .name "x" :: u, f, by simpa using hf⟩
  | alternate _ hfirm ht hc ih =>
    refine ⟨fun m v e _ hd => ?_, fun h => h.elim⟩
    have hall := ht.conditional hc (hd.looser (Nat.zero_le m))
    obtain ⟨u, f, hf⟩ := ih.1 _ _ _ hfirm.fits_zero hall
    exact ⟨u, f, by simpa using hf⟩
  | sequence _ henclosed hbegun hne ih =>
    refine ⟨fun m v e _ hd => ?_, fun h => h.elim⟩
    have hs := hbegun.sequence hne (hd.looser (Nat.zero_le m))
    obtain ⟨u, f, hf⟩ := ih.2 henclosed _ _ hs
    exact ⟨u, f, by simpa using hf⟩
  | @paren fs w _ ih =>
    have hclose : ∀ v e, DerivedSequence v e →
        ∃ u f, DerivedSequence (w ++ [.mark "("] ++ (v ++ u)) f := by
      intro v e hs
      obtain ⟨u, f, hf⟩ := ih.1 14 _ _ (fits_of_le (by decide)) hs.paren
      exact ⟨.mark ")" :: u, f, by simpa using hf⟩
    exact ⟨fun m v e _ hd => hclose v e (hd.looser (Nat.zero_le m)).sequence, fun _ => hclose⟩
  | @index fs w o _ _ hindex ih =>
    have hclose : ∀ v e, DerivedSequence v e →
        ∃ u f, DerivedSequence (w ++ (o ++ [.mark "["]) ++ (v ++ u)) f := by
      intro v e hs
      obtain ⟨u, f, hf⟩ := ih.1 13 _ _ (fits_of_le (by decide)) (hindex.index hs)
      exact ⟨.mark "]" :: u, f, by simpa using hf⟩
    exact ⟨fun m v e _ hd => hclose v e (hd.looser (Nat.zero_le m)).sequence, fun _ => hclose⟩
  | arguments _ hf hbegun ih =>
    refine ⟨fun m v e _ hd => ?_, fun h => h.elim⟩
    have hcall := hf.call (hbegun.add (hd.looser (Nat.zero_le m)))
    obtain ⟨u, f, hf⟩ := ih.1 13 _ _ (fits_of_le (by decide)) hcall
    exact ⟨.mark ")" :: u, f, by simpa using hf⟩
  | elements _ hbegun ih =>
    refine ⟨fun m v e _ hd => ?_, fun h => h.elim⟩
    have harray := (hbegun.add (hd.looser (Nat.zero_le m))).array
    obtain ⟨u, f, hf⟩ := ih.1 14 _ _ (fits_of_le (by decide)) harray
    exact ⟨.mark "]" :: u, f, by simpa using hf⟩

/-- From every state that is reached, some sentence goes on. -/
theorem State.Reached.goes_on {state : State} (hs : state.Reached w) :
    ∃ u f, DerivedSequence (w ++ u) f := by
  have hx : Derived 14 [.name "x"] (Literal.ofName "x") := Derived.operand rfl
  cases state with
  | awaiting frames =>
    obtain ⟨u, f, hf⟩ := (closable hs).1 14 _ _ (fits_of_le (by decide)) hx
    exact ⟨_, f, hf⟩
  | holding frames e =>
    obtain ⟨w₁, w₂, rfl, ho, hd⟩ := hs
    obtain ⟨u, f, hf⟩ := (closable ho).1 13 _ _ (fits_of_le (by decide)) hd
    exact ⟨u, f, by simpa using hf⟩
  | naming frames o =>
    obtain ⟨_, rfl, w₁, w₂, rfl, ho, hd⟩ := hs
    obtain ⟨u, f, hf⟩ := (closable ho).1 13 _ _ (fits_of_le (by decide)) (hd.member (s := "x"))
    exact ⟨.name "x" :: u, f, by simpa using hf⟩

end Expr
end Switchboard
