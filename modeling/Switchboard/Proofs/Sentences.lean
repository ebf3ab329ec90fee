-- Every sentence is read: whatever is derived by the rules is taken token by token, and the operand
-- that is held at the end is completed to the tree of the derivation. A sentence with a literal of
-- which there is no value ends there.
import Switchboard.Proofs.Openings
namespace Switchboard.Expr

open Grammar Symbol State Frame

/-! ## Taking rows of tokens -/

/-- Taking the tokens gives what is found, in a state that satisfies a condition; if nothing is
found, they end at a literal without a value. -/
def Reaches {α : Type} (state : State) (ts : List Token) (found : Option α)
    (cond : α → State → Prop) : Prop :=
  match found with
  | some a => ∃ state', ts.foldlM take state = .ok state' ∧ cond a state'
  | none => ts.foldlM take state = .error .valueless

namespace Reaches

variable {α β : Type} {state state' : State} {ts us : List Token} {found : Option α}
  {cond : α → State → Prop}

theorem mono {cond' : α → State → Prop} (h : Reaches state ts found cond)
    (himp : ∀ a state', cond a state' → cond' a state') : Reaches state ts found cond' := by
  cases found with
  | none => exact h
  | some a =>
    obtain ⟨state', hrun, hc⟩ := h
    exact ⟨state', hrun, himp a state' hc⟩

theorem bind {next : α → Option β} {cond' : β → State → Prop} (h : Reaches state ts found cond)
    (h' : ∀ a state', cond a state' → Reaches state' us (next a) cond') :
    Reaches state (ts ++ us) (found.bind next) cond' := by
  cases found with
  | none =>
    change _ = _ at h
    simp only [Reaches, Option.bind_none, List.foldlM_append, h]
    rfl
  | some a =>
    obtain ⟨state', hrun, hc⟩ := h
    have hnext := h' a state' hc
    unfold Reaches at hnext ⊢
    simp only [Option.bind_some, List.foldlM_append, hrun]
    exact hnext

theorem map {g : α → β} {cond' : β → State → Prop} (h : Reaches state ts found cond)
    (h' : ∀ a state', found = some a → cond a state' → cond' (g a) state') :
    Reaches state ts (found.bind fun a => some (g a)) cond' := by
  cases found with
  | none => exact h
  | some a =>
    obtain ⟨state', hrun, hc⟩ := h
    exact ⟨state', hrun, h' a state' rfl hc⟩

/-- A token that is taken. -/
theorem cons {t : Token} (ht : state.take t = .ok state') (h : Reaches state' ts found cond) :
    Reaches state (t :: ts) found cond := by
  unfold Reaches at h ⊢
  simp only [List.foldlM_cons, ht]
  exact h

/-- A last token that leaves what was found. -/
theorem closed {t : Token} {cond' : α → State → Prop} (h : Reaches state ts found cond)
    (h' : ∀ a state', cond a state' → ∃ state'', state'.take t = .ok state'' ∧ cond' a state'') :
    Reaches state (ts ++ [t]) found cond' := by
  unfold Reaches at h ⊢
  cases found with
  | none =>
    simp only [List.foldlM_append, h]
    rfl
  | some a =>
    obtain ⟨state', hrun, hc⟩ := h
    obtain ⟨state'', ht, hc'⟩ := h' a state' hc
    refine ⟨state'', ?_, hc'⟩
    rw [List.foldlM_append, hrun]
    change (state'.take t >>= fun s => pure s) = _
    rw [ht]
    rfl

theorem unique {found' : Option α} {cond' : α → State → Prop} (h : Reaches state ts found cond)
    (h' : Reaches state ts found' cond')
    (heq : ∀ a b state', cond a state' → cond' b state' → a = b) : found = found' := by
  cases found with
  | none =>
    cases found' with
    | none => rfl
    | some b =>
      obtain ⟨state', hrun, -⟩ := h'
      cases hrun.symm.trans h
  | some a =>
    obtain ⟨state', hrun, hc⟩ := h
    cases found' with
    | none => cases hrun.symm.trans h'
    | some b =>
      obtain ⟨state'', hrun', hc'⟩ := h'
      cases hrun.symm.trans hrun'
      rw [heq a b state' hc hc']

theorem nil {a : α} (h : cond a state) : Reaches state [] (some a) cond := ⟨state, rfl, h⟩

/-- One last token, with the result that it gives. -/
theorem last {t : Token} {b : β} {cond' : β → State → Prop} (ht : state.take t = .ok state')
    (h : cond' b state') : Reaches state [t] (some b) cond' := (Reaches.nil h).cons ht

end Reaches

/-! ## What is wanted and what is held -/

/-- The tightness at which an operator whose left operand is at a level, or a question mark, takes
what stands before it. -/
def tightness (n : Nat) : Nat := if n = 0 then 1 else if n = 11 then 12 else n

/-- Is there nothing on top that the first operator behind an operand would complete? -/
def Clear (n : Nat) (frames : List Frame) : Prop := n < 12 → Firm (tightness n) frames

/-- An operand of a level is held: whatever completes at that level or a looser one sees no more
than the frames from before and the operand. The tightest operands are held as they are. -/
def Held (n : Nat) (frames : List Frame) (e : Expr) (state : State) : Prop :=
  ∃ frames' e', state = holding frames' e' ∧ (12 < n → frames' = frames ∧ e' = e) ∧
    ∀ k ≤ n, reduce k frames' e' = reduce k frames e

/-- A whole sequence is held. -/
def HeldAll (frames : List Frame) (e : Expr) (state : State) : Prop :=
  ∃ frames' e', state = holding frames' e' ∧ complete frames' e' = (frames, e)

/-- Frames that gather expressions between commas. -/
structure Gathers (gathered : List Expr → List Frame) : Prop where
  firm : ∀ n done, Firm n (gathered done)
  comma : ∀ done frames e e', reduce 0 frames e' = (gathered done, e) →
    takeComma frames e' = .ok (awaiting (gathered (done ++ [e])))

/-- Expressions are held, the last one of them behind those that were gathered. -/
def HeldItems (gathered : List Expr → List Frame) (before : List Expr) (es : List Expr)
    (state : State) : Prop :=
  ∃ done e frames' e', es = done ++ [e] ∧ state = holding frames' e' ∧
    reduce 0 frames' e' = (gathered (before ++ done), e)

variable {n : Nat} {frames : List Frame} {e f : Expr} {state : State}

theorem Held.self (n : Nat) (frames : List Frame) (e : Expr) : Held n frames e (holding frames e) :=
  ⟨frames, e, rfl, fun _ => ⟨rfl, rfl⟩, fun _ _ => rfl⟩

theorem Held.looser (h : Held (n + 1) frames e state) : Held n frames e state := by
  obtain ⟨frames', e', rfl, hsame, hr⟩ := h
  exact ⟨frames', e', rfl, fun hn => hsame (Nat.lt_succ_of_lt hn),
    fun k hk => hr k (Nat.le_succ_of_le hk)⟩

theorem Held.exact (h : Held 13 frames e state) : state = holding frames e := by
  obtain ⟨frames', e', rfl, hsame, -⟩ := h
  obtain ⟨rfl, rfl⟩ := hsame (by decide)
  rfl

theorem Clear.tighter (h : Clear n frames) : Clear (n + 1) frames := by
  intro hn
  refine (h (by omega)).mono ?_
  unfold tightness
  grind

theorem gathers_arguments (f : Expr) (frames : List Frame) :
    Gathers fun done => .arguments f done :: frames where
  firm := fun _ _ => trivial
  comma := fun done frames' e e' h => by rw [takeComma, h]

theorem gathers_elements (frames : List Frame) : Gathers fun done => .elements done :: frames where
  firm := fun _ _ => trivial
  comma := fun done frames' e e' h => by rw [takeComma, h]

/-- The frames of a sequence: none as long as nothing stands before a comma. -/
def sequenced (frames : List Frame) (done : List Expr) : List Frame :=
  if done = [] then frames else .sequence done :: frames

theorem gathers_sequence (h : Enclosed frames) : Gathers (sequenced frames) where
  firm := fun n done => by
    unfold sequenced
    split
    · exact h.firm
    · trivial
  comma := fun done frames' e e' hr => by
    unfold sequenced at hr ⊢
    by_cases hd : done = []
    · rw [if_pos hd] at hr
      subst hd
      rw [takeComma, hr]
      unfold Enclosed at h
      split at h
      · rfl
      · rfl
      · rfl
      · exact h.elim
    · rw [if_neg hd] at hr
      rw [takeComma, hr]
      simp

theorem complete_of_reduce {frames' : List Frame} {e' : Expr} (h : Enclosed frames)
    (hr : reduce 0 frames' e' = (frames, e)) : complete frames' e' = (frames, e) := by
  unfold complete
  rw [hr]
  unfold Enclosed at h
  split at h
  · rfl
  · rfl
  · rfl
  · exact h.elim

/-! ## Reading a derivation -/

/-- What reading a derivation means: its terminals are a row of tokens, and these are taken wherever
what is derived is wanted. -/
def Readable : Symbol → List Terminal → Phrase → Prop
  | .level n, w, p => ∃ ts, Reads .operand w ts .operator ∧
      ∀ frames, Clear n frames → Reaches (awaiting frames) ts p.expr? (Held n frames)
  | .sequence, w, p => ∃ ts, Reads .operand w ts .operator ∧
      ∀ frames, Enclosed frames → Reaches (awaiting frames) ts p.expr? (HeldAll frames)
  | .items, w, p => ∃ ts, Reads .operand w ts .operator ∧ ∀ ps, p = .compound ps →
      ∀ gathered before, Gathers gathered →
        Reaches (awaiting (gathered before)) ts (Phrase.exprs? ps) (HeldItems gathered before)

variable {w v u : List Terminal} {p q r : Phrase} {ps : List Phrase}

theorem readable_operand {t : Terminal} (ht : t.isOperand = true) :
    Readable (level 14) [t] (.operand t) := by
  have htoken : ∃ token : Token, token.terminal = t := by
    cases t with
    | number s => exact ⟨.number s, rfl⟩
    | hexNumber s => exact ⟨.hexNumber s, rfl⟩
    | quoted s => exact ⟨.quoted s, rfl⟩
    | name s => exact ⟨.name s, rfl⟩
    | mark m => cases ht
  obtain ⟨token, rfl⟩ := htoken
  obtain ⟨hfits, hnext⟩ := operand?_fits (operand?_of_isOperand ht)
  refine ⟨[token], hnext ▸ Reads.one token hfits, fun frames _ => ?_⟩
  have htake : (awaiting frames).take token = _ := take_operand ht
  unfold Reaches
  simp only [Phrase.expr?, List.foldlM_cons, htake]
  cases token.terminal.expr? with
  | none => rfl
  | some e => exact ⟨holding frames e, rfl, Held.self 14 frames e⟩

theorem readable_operator (op : BinaryOperator) (hp : Readable (level (leftLevel op)) w p)
    (hq : Readable (level (rightLevel op)) v q) :
    Readable (level op.level) (w ++ .mark op.text :: v) (.binary op p q) := by
  obtain ⟨ts, hts, hp⟩ := hp
  obtain ⟨us, hus, hq⟩ := hq
  refine ⟨ts ++ .binary op :: us, hts.append (.cons (binary_fits op) hus), fun frames hc => ?_⟩
  have htight : tightness op.level = bound op := by
    cases op <;> rfl
  have hfirm : Firm (bound op) frames := by
    rw [← htight]
    exact hc (Nat.lt_succ_of_le (level_le op))
  have hleft : Clear (leftLevel op) frames := by
    intro hlt
    refine hfirm.mono ?_
    rw [bound_eq]
    unfold tightness
    grind
  have hright : ∀ l, Clear (rightLevel op) (.left l op :: frames) := by
    intro l _
    have hlt : op.level < tightness (rightLevel op) := by
      cases op <;> decide
    exact hlt
  refine (hp frames hleft).bind fun l state hl => ?_
  obtain ⟨frames', e', rfl, -, hr⟩ := hl
  have htake : (holding frames' e').take (.binary op) = .ok (awaiting (.left l op :: frames)) := by
    refine take_of_takes (.binary ?_)
    rw [hr (bound op) (Nat.le_of_eq (bound_eq op)), reduce_of_firm hfirm]
  refine Reaches.cons htake ((hq _ (hright l)).map fun r state _ hr => ?_)
  obtain ⟨frames'', e'', rfl, -, hr⟩ := hr
  refine ⟨frames'', e'', rfl, fun hlt => absurd (level_le op) (by omega), fun k hk => ?_⟩
  have hle : op.level ≤ rightLevel op := by
    cases op <;> decide
  rw [hr k (Nat.le_trans hk hle), reduce, if_pos hk]

theorem readable_sign {sign : UnaryOperator} (hp : Readable (level 12) w p) :
    Readable (level 12) (.mark sign.text :: w) (.unary sign p) := by
  obtain ⟨ts, hts, hp⟩ := hp
  refine ⟨.unary sign :: ts, .cons (unary_fits sign) hts, fun frames _ => ?_⟩
  have htake : (awaiting frames).take (.unary sign) = .ok (awaiting (.sign sign :: frames)) := rfl
  have hclear : Clear 12 (.sign sign :: frames) := fun hlt => absurd hlt (by decide)
  refine Reaches.cons htake ((hp _ hclear).map fun e state _ he => ?_)
  obtain ⟨frames', e', rfl, -, hr⟩ := he
  exact ⟨frames', e', rfl, fun hlt => absurd hlt (by decide), fun k hk => by rw [hr k hk, reduce]⟩

theorem readable_conditional (hp : Readable (level 1) w p) (hq : Readable (level 0) v q)
    (hr : Readable (level 0) u r) :
    Readable (level 0) (w ++ .mark "?" :: (v ++ .mark ":" :: u)) (.conditional p q r) := by
  obtain ⟨ts, hts, hp⟩ := hp
  obtain ⟨us, hus, hq⟩ := hq
  obtain ⟨vs, hvs, hr⟩ := hr
  refine ⟨ts ++ .question :: (us ++ .colon :: vs),
    hts.append (.token .question (by decide) (hus.append (.token .colon (by decide) hvs))),
    fun frames hc => ?_⟩
  have hfirm : Firm 1 frames := hc (by decide)
  refine (hp frames fun _ => hfirm).bind fun t state ht => ?_
  obtain ⟨frames', e', rfl, -, hred⟩ := ht
  have hquestion : (holding frames' e').take .question =
      .ok (awaiting (.consequent t :: frames)) := by
    refine take_of_takes (.question ?_)
    rw [hred 1 (Nat.le_refl 1), reduce_of_firm hfirm]
  refine Reaches.cons hquestion
    ((hq (.consequent t :: frames) fun _ => trivial).bind fun c state hcons => ?_)
  obtain ⟨frames', e', rfl, -, hred⟩ := hcons
  have hcolon : (holding frames' e').take .colon = .ok (awaiting (.alternate t c :: frames)) :=
    take_of_takes (.colon (hred 0 (Nat.le_refl 0)))
  have hclear : Clear 0 (.alternate t c :: frames) := fun _ => Nat.one_ne_zero
  refine Reaches.cons hcolon ((hr _ hclear).map fun a state _ ha => ?_)
  obtain ⟨frames', e', rfl, -, hred⟩ := ha
  refine ⟨frames', e', rfl, fun hlt => absurd hlt (by decide), fun k hk => ?_⟩
  rw [hred k hk, reduce, if_pos (Nat.le_zero.mp hk)]

theorem readable_member {s : String} (hp : Readable (level 13) w p) :
    Readable (level 13) (w ++ [.mark ".", .name s]) (.member p s) := by
  obtain ⟨ts, hts, hp⟩ := hp
  refine ⟨ts ++ [.dot, .name s], hts.append (.token .dot (by decide) (.one (.name s) rfl)),
    fun frames _ => ?_⟩
  have hclear : Clear 13 frames := fun hlt => absurd hlt (by decide)
  refine (hp frames hclear).bind fun o state ho => ?_
  obtain rfl := ho.exact
  exact Reaches.cons rfl (Reaches.last rfl (Held.self 13 _ _))

theorem readable_index (hp : Readable (level 13) w p) (hq : Readable sequence v q) :
    Readable (level 13) (w ++ .mark "[" :: (v ++ [.mark "]"])) (.index p q) := by
  obtain ⟨ts, hts, hp⟩ := hp
  obtain ⟨us, hus, hq⟩ := hq
  refine ⟨ts ++ .openBracket :: (us ++ [.closeBracket]),
    hts.append (.token .openBracket (by decide) (hus.append (.one .closeBracket (by decide)))),
    fun frames _ => ?_⟩
  have hclear : Clear 13 frames := fun hlt => absurd hlt (by decide)
  refine (hp frames hclear).bind fun o state ho => ?_
  obtain rfl := ho.exact
  refine Reaches.cons rfl ((hq (.index o :: frames) trivial).bind fun e state he => ?_)
  obtain ⟨frames', e', rfl, hcomplete⟩ := he
  have hclose : (holding frames' e').take .closeBracket =
      .ok (holding frames (.member o e true)) :=
    take_of_takes (.closeIndex hcomplete)
  exact Reaches.last hclose (Held.self 13 _ _)

theorem readable_callEmpty (hp : Readable (level 13) w p) :
    Readable (level 13) (w ++ [.mark "(", .mark ")"]) (.call p []) := by
  obtain ⟨ts, hts, hp⟩ := hp
  refine ⟨ts ++ [.openParen, .closeParen],
    hts.append (.token .openParen (by decide) (.one .closeParen (by decide))), fun frames _ => ?_⟩
  have hclear : Clear 13 frames := fun hlt => absurd hlt (by decide)
  refine (hp frames hclear).bind fun f state hf => ?_
  obtain rfl := hf.exact
  exact Reaches.cons rfl (Reaches.last rfl (Held.self 13 _ _))

theorem readable_call (hp : Readable (level 13) w p) (hq : Readable items v (.compound ps)) :
    Readable (level 13) (w ++ .mark "(" :: (v ++ [.mark ")"])) (.call p ps) := by
  obtain ⟨ts, hts, hp⟩ := hp
  obtain ⟨us, hus, hq⟩ := hq
  refine ⟨ts ++ .openParen :: (us ++ [.closeParen]),
    hts.append (.token .openParen (by decide) (hus.append (.one .closeParen (by decide)))),
    fun frames _ => ?_⟩
  have hclear : Clear 13 frames := fun hlt => absurd hlt (by decide)
  refine (hp frames hclear).bind fun f state hf => ?_
  obtain rfl := hf.exact
  refine Reaches.cons rfl
    ((hq ps rfl _ [] (gathers_arguments f frames)).bind fun es state hes => ?_)
  obtain ⟨done, e, frames', e', rfl, rfl, hred⟩ := hes
  have hclose : (holding frames' e').take .closeParen =
      .ok (holding frames (.call f (done ++ [e]))) := by
    refine take_of_takes (.closeArguments ?_)
    simp only [complete, hred]
    rfl
  exact Reaches.last hclose (Held.self 13 _ _)

theorem readable_arrayEmpty : Readable (level 14) [.mark "[", .mark "]"] (.array []) := by
  refine ⟨[.openBracket, .closeBracket],
    .token .openBracket (by decide) (.one .closeBracket (by decide)), fun frames _ => ?_⟩
  exact Reaches.cons rfl (Reaches.last rfl (Held.self 14 _ _))

theorem readable_array (hp : Readable items w (.compound ps)) :
    Readable (level 14) (.mark "[" :: (w ++ [.mark "]"])) (.array ps) := by
  obtain ⟨ts, hts, hp⟩ := hp
  refine ⟨.openBracket :: (ts ++ [.closeBracket]),
    .token .openBracket (by decide) (hts.append (.one .closeBracket (by decide))),
    fun frames _ => ?_⟩
  refine Reaches.cons rfl ((hp ps rfl _ [] (gathers_elements frames)).bind fun es state hes => ?_)
  obtain ⟨done, e, frames', e', rfl, rfl, hred⟩ := hes
  have hclose : (holding frames' e').take .closeBracket =
      .ok (holding frames (.array (done ++ [e]))) := by
    refine take_of_takes (.closeElements ?_)
    simp only [complete, hred]
    rfl
  exact Reaches.last hclose (Held.self 14 _ _)

theorem readable_paren (hp : Readable sequence w p) :
    Readable (level 14) (.mark "(" :: (w ++ [.mark ")"])) p := by
  obtain ⟨ts, hts, hp⟩ := hp
  refine ⟨.openParen :: (ts ++ [.closeParen]),
    .token .openParen (by decide) (hts.append (.one .closeParen (by decide))), fun frames _ => ?_⟩
  refine Reaches.cons rfl ((hp (.paren :: frames) trivial).closed fun e state he => ?_)
  obtain ⟨frames', e', rfl, hcomplete⟩ := he
  exact ⟨holding frames e, take_of_takes (.closeParen hcomplete), Held.self 14 _ _⟩

theorem readable_single (hp : Readable (level 0) w p) : Readable sequence w p := by
  obtain ⟨ts, hts, hp⟩ := hp
  refine ⟨ts, hts, fun frames henclosed => (hp frames fun _ => henclosed.firm).mono ?_⟩
  rintro e state ⟨frames', e', rfl, -, hred⟩
  refine ⟨frames', e', rfl, complete_of_reduce henclosed ?_⟩
  rw [hred 0 (Nat.le_refl 0), reduce_of_firm henclosed.firm]

theorem readable_first (hp : Readable (level 0) w p) : Readable items w (.compound [p]) := by
  obtain ⟨ts, hts, hp⟩ := hp
  refine ⟨ts, hts, ?_⟩
  intro _ hps gathered before hgathers
  cases hps
  refine (hp (gathered before) fun _ => hgathers.firm _ _).map fun e state _ he => ?_
  obtain ⟨frames', e', rfl, -, hred⟩ := he
  refine ⟨[], e, frames', e', rfl, rfl, ?_⟩
  rw [hred 0 (Nat.le_refl 0), reduce_of_firm (hgathers.firm _ _), List.append_nil]

theorem readable_later (hp : Readable items w (.compound ps)) (hq : Readable (level 0) v q) :
    Readable items (w ++ .mark "," :: v) (.compound (ps ++ [q])) := by
  obtain ⟨ts, hts, hp⟩ := hp
  obtain ⟨us, hus, hq⟩ := hq
  refine ⟨ts ++ .comma :: us, hts.append (.token .comma (by decide) hus), ?_⟩
  intro _ hps gathered before hgathers
  cases hps
  rw [Phrase.exprs?_concat]
  refine (hp ps rfl gathered before hgathers).bind fun es state hes => ?_
  obtain ⟨done, e, frames', e', rfl, rfl, hred⟩ := hes
  have hcomma : (holding frames' e').take .comma =
      .ok (awaiting (gathered (before ++ (done ++ [e])))) := by
    rw [← List.append_assoc]
    exact hgathers.comma _ _ _ _ hred
  refine Reaches.cons hcomma ((hq _ fun _ => hgathers.firm _ _).map fun f state _ hf => ?_)
  obtain ⟨frames', e', rfl, -, hred⟩ := hf
  refine ⟨done ++ [e], f, frames', e', rfl, rfl, ?_⟩
  rw [hred 0 (Nat.le_refl 0), reduce_of_firm (hgathers.firm _ _)]

theorem readable_compound (hp : Readable items w (.compound ps)) (hlen : 2 ≤ ps.length) :
    Readable sequence w (.compound ps) := by
  obtain ⟨ts, hts, hp⟩ := hp
  refine ⟨ts, hts, fun frames henclosed => ?_⟩
  refine (hp ps rfl _ [] (gathers_sequence henclosed)).map fun es state hfound hes => ?_
  obtain ⟨done, e, frames', e', rfl, rfl, hred⟩ := hes
  have hne : done ≠ [] := by
    rintro rfl
    have hlen' := Phrase.exprs?_length hfound
    simp only [List.nil_append, List.length_singleton] at hlen'
    omega
  refine ⟨frames', e', rfl, ?_⟩
  rw [List.nil_append, sequenced, if_neg hne] at hred
  unfold complete
  rw [hred]

/-- Every derivation is read. -/
theorem readable {s : Symbol} (h : Derives s w p) : Readable s w p := by
  induction h with
  | single _ ih => exact readable_single ih
  | compound _ hlen ih => exact readable_compound ih hlen
  | first _ ih => exact readable_first ih
  | later _ _ ihw ihv => exact readable_later ihw ihv
  | conditional _ _ _ ihw ihv ihu => exact readable_conditional ihw ihv ihu
  | tighter _ ih =>
    obtain ⟨ts, hts, h⟩ := ih
    exact ⟨ts, hts, fun frames hc => (h frames hc.tighter).mono fun _ _ => Held.looser⟩
  | @binary op _ _ _ _ hop _ _ ihw ihv =>
    refine readable_operator op ?_ ?_
    · rwa [leftLevel, if_neg hop]
    · rwa [rightLevel, if_neg hop]
  | power _ _ ihw ihv => exact readable_operator .power ihw ihv
  | unary _ ih => exact readable_sign ih
  | member _ ih => exact readable_member ih
  | index _ _ ihw ihv => exact readable_index ihw ihv
  | callEmpty _ ih => exact readable_callEmpty ih
  | call _ _ ihw ihv => exact readable_call ihw ihv
  | operand ht => exact readable_operand ht
  | arrayEmpty => exact readable_arrayEmpty
  | array _ ih => exact readable_array ih
  | paren _ ih => exact readable_paren ih

end Switchboard.Expr
