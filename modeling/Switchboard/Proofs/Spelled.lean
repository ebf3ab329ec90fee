-- Every tree that is read from a text is one that a text can spell: its names are words that are
-- not reserved, its constants are scalars. The reader keeps this true of all that is open.
import Switchboard.Proofs.Inputs
import Switchboard.Proofs.Transitions
namespace Switchboard

/-! ## Tokens -/

theorem zero_cases : ∀ z ∈ Text.zeros, z = 48 ∨ 128 ≤ z := by decide

/-- The only digits among the first characters are the common ones. -/
theorem not_isDigit {c : Char} (h : c.toNat < 48 ∨ (58 ≤ c.toNat ∧ c.toNat < 128)) :
    Text.isDigit c = false := by
  have hnone : Text.zeros.find? (fun z => z ≤ c.toNat && c.toNat < z + 10) = none := by
    rw [List.find?_eq_none]
    intro z hz hc
    simp only [Bool.and_eq_true, decide_eq_true_eq] at hc
    rcases zero_cases z hz with rfl | hz <;> omega
  unfold Text.isDigit Text.digit?
  rw [hnone]
  rfl

theorem not_isDigit_of_isNameStart {c : Char} (h : Token.isNameStart c = true) :
    Text.isDigit c = false := by
  apply not_isDigit
  simp only [Token.isNameStart, Bool.or_eq_true, beq_iff_eq] at h
  rcases h with (h | rfl) | rfl
  · delta Char.isAlpha Char.isUpper Char.isLower at h
    simp only [Bool.or_eq_true, Bool.and_eq_true, decide_eq_true_eq, ge_iff_le,
      UInt32.le_iff_toNat_le] at h
    change (65 ≤ c.toNat ∧ c.toNat ≤ 90) ∨ (97 ≤ c.toNat ∧ c.toNat ≤ 122) at h
    omega
  · decide
  · decide

theorem isWord_of_nameAt {cs r : List Char} (h : Token.nameAt? cs = some r) :
    Expr.isWord (String.ofList r) = true := by
  unfold Token.nameAt? at h
  split at h
  · split at h
    · rename_i c rest hc
      cases h
      simp [Expr.isWord, not_isDigit_of_isNameStart hc]
    · cases h
  · cases h

namespace Token

/-- Is the token no name, or one that is a word? -/
def isSpelled : Token → Bool
  | name s => Expr.isWord s
  | _ => true

theorem operandMarks_spelled : ∀ t ∈ operandMarks, t.isSpelled = true := by decide

theorem operatorMarks_spelled : ∀ t ∈ operatorMarks, t.isSpelled = true := by decide

theorem at?_spelled {stand : Stand} {cs : List Char} {t : Token} (h : at? stand cs = some t) :
    t.isSpelled = true := by
  have hname : spelled name (nameAt? cs) = some t → t.isSpelled = true := by
    intro h
    obtain ⟨r, hr, rfl⟩ := Option.map_eq_some_iff.mp h
    exact isWord_of_nameAt hr
  cases stand with
  | operand =>
    simp only [at?, Option.or_eq_some_iff] at h
    rcases h with h | ⟨-, h | ⟨-, h | ⟨-, h | ⟨-, h⟩⟩⟩⟩
    · obtain ⟨r, -, rfl⟩ := Option.map_eq_some_iff.mp h
      rfl
    · obtain ⟨r, -, rfl⟩ := Option.map_eq_some_iff.mp h
      rfl
    · obtain ⟨r, -, rfl⟩ := Option.map_eq_some_iff.mp h
      rfl
    · exact hname h
    · exact operandMarks_spelled t (List.mem_of_find?_eq_some h)
  | operator =>
    unfold at? markAt? at h
    exact operatorMarks_spelled t (List.mem_of_find?_eq_some h)
  | part => exact hname h

end Token

theorem Cut.go_spelled (n : Nat) (stand : Stand) (place : Position) (cs : List Char) :
    ∀ t ∈ (Cut.go n stand place cs).tokens, t.1.isSpelled = true := by
  induction n generalizing stand place cs with
  | zero => exact fun _ h => by cases h
  | succ n ih =>
    unfold Cut.go
    dsimp only
    split
    · exact fun _ h => by cases h
    · split
      · exact fun _ h => by cases h
      · rename_i token ht
        intro t h
        rcases List.mem_cons.mp h with rfl | h
        · exact Token.at?_spelled ht
        · exact ih _ _ _ t h

namespace Expr

/-! ## Nodes -/

theorem areSpelled_append (es fs : List Expr) :
    areSpelled (es ++ fs) = (areSpelled es && areSpelled fs) := by
  induction es with
  | nil => rfl
  | cons e rest ih => simp [areSpelled, ih, Bool.and_assoc]

theorem areSpelled_concat {done : List Expr} {e : Expr} (hdone : areSpelled done = true)
    (he : e.isSpelled = true) : areSpelled (done ++ [e]) = true := by
  simp [areSpelled_append, areSpelled, hdone, he]

theorem ofBinary_spelled {op : BinaryOperator} {l r : Expr} (hl : l.isSpelled = true)
    (hr : r.isSpelled = true) : (ofBinary op l r).isSpelled = true := by
  unfold ofBinary
  split <;> simp [isSpelled, hl, hr]

theorem ofName_spelled {s : String} (h : isWord s = true) :
    (Literal.ofName s).isSpelled = true := by
  unfold Literal.ofName
  split
  · rfl
  · split
    · rfl
    · rename_i hn ht
      have hr : s ∉ reserved := by
        intro hm
        simp only [reserved, List.mem_cons, List.not_mem_nil, or_false] at hm
        rcases hm with rfl | rfl | rfl | rfl | rfl
        · cases hn
        · cases hn
        · cases hn
        · cases hn
        · exact ht rfl
      simp [isSpelled, isName, h, hr]

theorem operand_spelled {t : Token} (ht : t.isSpelled = true) {e : Expr}
    (h : Literal.operand? t = some (some e)) : e.isSpelled = true := by
  have hnode : ∀ (found : Option Scalar) (s : String),
      some (found.map (Literal.node · s)) = some (some e) → e.isSpelled = true := by
    intro found s h
    obtain ⟨v, -, rfl⟩ := Option.map_eq_some_iff.mp (Option.some.inj h)
    rfl
  cases t with
  | number s => exact hnode _ s h
  | hexNumber s => exact hnode _ s h
  | quoted s => exact hnode _ s h
  | name s =>
    cases h
    exact ofName_spelled ht
  | _ => cases h

/-! ## What is open -/

namespace Frame

def isSpelled : Frame → Bool
  | sign _ | paren => true
  | left operand _ => operand.isSpelled
  | consequent test => test.isSpelled
  | alternate test yes => test.isSpelled && yes.isSpelled
  | sequence done | elements done => areSpelled done
  | index object => object.isSpelled
  | arguments callee done => callee.isSpelled && areSpelled done

end Frame

namespace State

/-- Are the frames that are left and the operand before them spelled? -/
def AreSpelled (r : List Frame × Expr) : Prop :=
  (∀ f ∈ r.1, f.isSpelled = true) ∧ r.2.isSpelled = true

/-- The frame on top, the others, and the operand before them. -/
theorem AreSpelled.top {frame : Frame} {frames : List Frame} {e : Expr}
    (h : AreSpelled (frame :: frames, e)) :
    frame.isSpelled = true ∧ (∀ f ∈ frames, f.isSpelled = true) ∧ e.isSpelled = true :=
  ⟨h.1 _ List.mem_cons_self, fun f hf => h.1 f (List.mem_cons_of_mem _ hf), h.2⟩

theorem reduce_spelled (tightness : Nat) (frames : List Frame) (e : Expr)
    (hf : ∀ f ∈ frames, f.isSpelled = true) (he : e.isSpelled = true) :
    AreSpelled (reduce tightness frames e) := by
  induction frames, e using reduce.induct tightness with
  | case1 op rest e ih =>
    rw [reduce]
    exact ih (fun f h => hf f (List.mem_cons_of_mem _ h)) he
  | case2 l op rest e hop ih =>
    rw [reduce, if_pos hop]
    exact ih (fun f h => hf f (List.mem_cons_of_mem _ h))
      (ofBinary_spelled (hf _ List.mem_cons_self) he)
  | case3 l op rest e hop =>
    rw [reduce, if_neg hop]
    exact ⟨hf, he⟩
  | case4 t c rest e hop ih =>
    rw [reduce, if_pos hop]
    have hc := hf _ List.mem_cons_self
    refine ih (fun f h => hf f (List.mem_cons_of_mem _ h)) ?_
    simp only [Frame.isSpelled, Bool.and_eq_true] at hc
    simp [isSpelled, hc, he]
  | case5 t c rest e hop =>
    rw [reduce, if_neg hop]
    exact ⟨hf, he⟩
  | case6 frames e hsign hleft halternate =>
    rw [reduce]
    · exact ⟨hf, he⟩
    · exact hsign
    · exact hleft
    · exact halternate

theorem complete_spelled (frames : List Frame) (e : Expr)
    (hf : ∀ f ∈ frames, f.isSpelled = true) (he : e.isSpelled = true) :
    AreSpelled (complete frames e) := by
  have h := reduce_spelled 0 frames e hf he
  unfold complete
  split
  · rename_i done rest e' hr
    rw [hr] at h
    obtain ⟨hdone, hrest, he'⟩ := h.top
    exact ⟨hrest, areSpelled_concat hdone he'⟩
  · exact h

/-- Is all that is open in a state spelled? -/
def IsSpelled : State → Prop
  | awaiting frames => ∀ f ∈ frames, f.isSpelled = true
  | holding frames operand => AreSpelled (frames, operand)
  | naming frames object => AreSpelled (frames, object)

/-- A frame that waits is pushed on the others. -/
theorem awaiting_spelled {frame : Frame} {frames : List Frame} (h : frame.isSpelled = true)
    (hf : ∀ f ∈ frames, f.isSpelled = true) : (awaiting (frame :: frames)).IsSpelled := by
  intro f hm
  rcases List.mem_cons.mp hm with rfl | hm
  · exact h
  · exact hf f hm

/-! What is completed for a token stays spelled. -/

theorem reduced_spelled {n : Nat} {frames : List Frame} {e : Expr} {r : List Frame × Expr}
    (hr : reduce n frames e = r) (hs : (holding frames e).IsSpelled) : AreSpelled r :=
  hr ▸ reduce_spelled n frames e hs.1 hs.2

theorem completed_spelled {frames : List Frame} {e : Expr} {r : List Frame × Expr}
    (hc : complete frames e = r) (hs : (holding frames e).IsSpelled) : AreSpelled r :=
  hc ▸ complete_spelled frames e hs.1 hs.2

/-- Whatever token is taken, all that is open stays spelled. -/
theorem take_spelled {state state' : State} {t : Token} (hs : state.IsSpelled)
    (ht : t.isSpelled = true) (h : state.take t = .ok state') : state'.IsSpelled := by
  cases take_ok_iff.mp h with
  | operand he => exact ⟨hs, operand_spelled ht he⟩
  | sign | paren | elements => exact awaiting_spelled rfl hs
  | callEmpty => exact ⟨fun f hf => hs f (List.mem_cons_of_mem _ hf), hs _ List.mem_cons_self⟩
  | arrayEmpty => exact ⟨fun f hf => hs f (List.mem_cons_of_mem _ hf), rfl⟩
  | binary hr | question hr =>
    have hall := reduced_spelled hr hs
    exact awaiting_spelled hall.2 hall.1
  | colon hr =>
    obtain ⟨htest, hrest, hyes⟩ := (reduced_spelled hr hs).top
    exact awaiting_spelled (Bool.and_eq_true_iff.mpr ⟨htest, hyes⟩) hrest
  | inSequence hr | inElements hr =>
    obtain ⟨hdone, hrest, he⟩ := (reduced_spelled hr hs).top
    exact awaiting_spelled (areSpelled_concat hdone he) hrest
  | inArguments hr =>
    obtain ⟨hframe, hrest, he⟩ := (reduced_spelled hr hs).top
    obtain ⟨hcallee, hdone⟩ := Bool.and_eq_true_iff.mp hframe
    exact awaiting_spelled (Bool.and_eq_true_iff.mpr ⟨hcallee, areSpelled_concat hdone he⟩) hrest
  | beginSequence hr _ =>
    have hall := reduced_spelled hr hs
    exact awaiting_spelled (Bool.and_eq_true_iff.mpr ⟨hall.2, rfl⟩) hall.1
  | dot => exact hs
  | arguments => exact awaiting_spelled (Bool.and_eq_true_iff.mpr ⟨hs.2, rfl⟩) hs.1
  | index => exact awaiting_spelled hs.2 hs.1
  | closeParen hc =>
    obtain ⟨-, hrest, he⟩ := (completed_spelled hc hs).top
    exact ⟨hrest, he⟩
  | closeArguments hc =>
    obtain ⟨hframe, hrest, he⟩ := (completed_spelled hc hs).top
    obtain ⟨hcallee, hdone⟩ := Bool.and_eq_true_iff.mp hframe
    exact ⟨hrest, Bool.and_eq_true_iff.mpr ⟨hcallee, areSpelled_concat hdone he⟩⟩
  | closeIndex hc =>
    obtain ⟨hobject, hrest, he⟩ := (completed_spelled hc hs).top
    exact ⟨hrest, Bool.and_eq_true_iff.mpr ⟨hobject, he⟩⟩
  | closeElements hc =>
    obtain ⟨hdone, hrest, he⟩ := (completed_spelled hc hs).top
    exact ⟨hrest, areSpelled_concat hdone he⟩
  | part => exact ⟨hs.1, Bool.and_eq_true_iff.mpr ⟨hs.2, ht⟩⟩

theorem takeAll_spelled {stuck : Option Position} {tokens : List (Token × Position)}
    {state state' : State} (hs : state.IsSpelled) (ht : ∀ t ∈ tokens, t.1.isSpelled = true)
    (h : takeAll stuck state tokens = .ok state') : state'.IsSpelled := by
  induction tokens generalizing state with
  | nil =>
    unfold takeAll at h
    split at h
    · cases h
    · cases h
      exact hs
  | cons t rest ih =>
    unfold takeAll at h
    split at h
    · rename_i u hu
      exact ih (take_spelled hs (ht _ List.mem_cons_self) hu)
        (fun t hm => ht t (List.mem_cons_of_mem _ hm)) h
    · cases h
    · cases h
    · cases h

theorem finish_spelled {state : State} {e : Expr} (hs : state.IsSpelled)
    (h : state.finish? = some e) : e.isSpelled = true := by
  unfold finish? at h
  split at h
  · rename_i frames operand
    have hc := complete_spelled frames operand hs.1 hs.2
    split at h
    · rename_i hq
      rw [hq] at hc
      cases h
      exact hc.2
    · cases h
  · cases h

end State

theorem ofCut_spelled {cut : Cut} {e : Expr} (ht : ∀ t ∈ cut.tokens, t.1.isSpelled = true)
    (h : ofCut cut = .ok e) : e.isSpelled = true := by
  unfold ofCut at h
  have hstart : (State.awaiting []).IsSpelled := fun _ hm => by cases hm
  cases hs : State.takeAll cut.stuck (.awaiting []) cut.tokens with
  | error f => rw [hs] at h; cases h
  | ok state =>
    rw [hs] at h
    dsimp only [bind, Except.bind] at h
    split at h
    · rename_i e' he
      cases h
      exact State.finish_spelled (State.takeAll_spelled hstart ht hs) he
    · cases h

/-- Every tree that is read from a text is one that a text can spell. -/
theorem parse_spelled {s : String} {e : Expr} (h : parse s = .ok e) : e.isSpelled = true := by
  unfold parse at h
  split at h
  · rename_i e' he
    cases h
    exact ofCut_spelled (Cut.go_spelled _ _ _ _) he
  · cases h
  · cases h

theorem ofValue_spelled {v : Value} {e : Expr} (h : ofValue v = .ok e) : e.isSpelled = true := by
  unfold ofValue at h
  split at h
  · exact parse_spelled h
  all_goals cases h

end Expr
end Switchboard
