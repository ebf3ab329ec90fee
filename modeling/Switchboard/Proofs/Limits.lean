-- Limits of numbers. An integer may be too large for the floating point number that is wanted of
-- it, and a text may have too many digits for an integer. Operators, texts and lookups under keys
-- fail in no other way.
import Switchboard.Evaluation
namespace Switchboard

/-- Is a fault that of a number beyond a limit? -/
def Fault.isLimit : Fault → Bool
  | overflow | badValue => true
  | _ => false

/-- A result that nothing but a limit of numbers can prevent. -/
def Limited {α : Type} (r : Except Fault α) : Prop := ∀ f, r = .error f → f.isLimit = true

theorem limited_ok {α : Type} (a : α) : Limited (.ok a) := nofun

theorem limited_error {α : Type} {f : Fault} (h : f.isLimit = true) :
    Limited (.error f : Except Fault α) := by
  intro g hg
  cases hg
  exact h

theorem limited_bind {α β : Type} {r : Except Fault α} {next : α → Except Fault β}
    (h : Limited r) (hn : ∀ a, Limited (next a)) : Limited (r >>= next) := by
  cases r with
  | ok a => exact hn a
  | error f => exact limited_error (h f rfl)

theorem limited_foldlM {α β : Type} {f : β → α → Except Fault β} (items : List α)
    (h : ∀ b, ∀ a ∈ items, Limited (f b a)) (b : β) : Limited (items.foldlM f b) := by
  induction items generalizing b with
  | nil => exact limited_ok b
  | cons a rest ih =>
    rw [List.foldlM_cons]
    exact limited_bind (h b a List.mem_cons_self) fun c =>
      ih (fun b x hx => h b x (List.mem_cons_of_mem a hx)) c

theorem limited_ite {α : Type} {c : Prop} [Decidable c] {r s : Except Fault α}
    (hr : Limited r) (hs : Limited s) : Limited (if c then r else s) := by
  split
  · exact hr
  · exact hs

theorem limited_elim {α β : Type} {r : Except Fault β} {f : α → Except Fault β} (h : Limited r)
    (hf : ∀ a, Limited (f a)) (o : Option α) : Limited (o.elim r f) := by
  cases o with
  | none => exact h
  | some a => exact hf a

/-! ## Numbers -/

namespace Number

theorem limited_toFloat (x : Number) : Limited x.toFloat := by
  fun_cases toFloat x
  · exact limited_ok _
  · exact limited_error rfl
  · exact limited_ok _

theorem limited_isNan (x : Number) : Limited x.isNan :=
  limited_bind (limited_toFloat x) fun _ => limited_ok _

theorem limited_lift (onInts : Int → Int → Int) (onFloats : Binary64 → Binary64 → Binary64)
    (x y : Number) : Limited (lift onInts onFloats x y) := by
  unfold lift
  split
  · exact limited_ok _
  · exact limited_bind (limited_toFloat x) fun _ =>
      limited_bind (limited_toFloat y) fun _ => limited_ok _

theorem limited_divByZero (x y : Number) : Limited (divByZero x y) :=
  limited_bind (limited_isNan x) fun _ => limited_ite (limited_ok _) (limited_ok _)

theorem limited_div (x y : Number) : Limited (x.div y) := by
  unfold div
  -- which quotient two integers have does not matter, and no check shall compute it
  obtain ⟨ratio, hratio⟩ : ∃ ratio, ratio = Binary64.ofRatio := ⟨_, rfl⟩
  rw [← hratio]
  refine limited_ite (limited_divByZero x y) ?_
  split
  · split
    · exact limited_error rfl
    · exact limited_ok _
  · exact limited_bind (limited_toFloat _) fun _ =>
      limited_bind (limited_toFloat _) fun _ => limited_ok _

theorem limited_rem (x y : Number) : Limited (x.rem y) := by
  unfold rem
  refine limited_ite (limited_ok _) (limited_bind (limited_toFloat x) fun a => ?_)
  refine limited_ite (limited_ok _) (limited_bind (limited_toFloat y) fun b => ?_)
  refine limited_ite (limited_ok _) (limited_ite (limited_ok _) ?_)
  split
  · exact limited_ok _
  · exact limited_ok _

theorem limited_pow (x y : Number) : Limited (x.pow y) := by
  refine limited_bind (limited_toFloat y) fun b => limited_ite (limited_ok _) ?_
  dsimp only
  split
  · refine limited_ite (limited_ok _) (limited_ite (limited_ok _) ?_)
    split <;> exact limited_ok _
  · refine limited_ite (limited_ok _) ?_
    split <;> exact limited_ok _

end Number

namespace Value

/-! ## Texts and keys -/

theorem limited_integerText (n : Int) : Limited (integerText n) := by
  fun_cases integerText n
  · exact limited_ok _
  · exact limited_error rfl

theorem limited_floatText (x : Binary64) : Limited (floatText x) := by
  unfold floatText
  split
  · exact limited_ok _
  · exact limited_ok _
  · exact limited_elim (limited_ok _) limited_integerText _

mutual

theorem limited_toText (v : Value) : Limited v.toText := by
  unfold toText
  split
  · exact limited_ok _
  · exact limited_ok _
  · exact limited_integerText _
  · exact limited_floatText _
  · exact limited_ok _
  · exact limited_bind (limited_itemTexts _) fun _ => limited_ok _
  · exact limited_ok _
  · exact limited_ok _
  · exact limited_ok _

theorem limited_itemTexts (vs : List Value) : Limited (itemTexts vs) := by
  unfold itemTexts
  split
  · exact limited_ok _
  · exact limited_bind (limited_itemTexts _) fun _ => limited_ok _
  · exact limited_bind (limited_toText _) fun _ =>
      limited_bind (limited_itemTexts _) fun _ => limited_ok _

end

mutual

theorem limited_written (v : Value) : Limited v.written := by
  unfold written
  split
  · exact limited_ite (limited_ok _) (limited_error rfl)
  · exact limited_bind (limited_writtenItems _) fun _ => limited_ok _
  · exact limited_bind (limited_writtenEntries _) fun _ => limited_ok _
  · exact limited_ok _
  · exact limited_ok _

theorem limited_writtenItems (vs : List Value) : Limited (writtenItems vs) := by
  unfold writtenItems
  split
  · exact limited_ok _
  · exact limited_bind (limited_written _) fun _ =>
      limited_bind (limited_writtenItems _) fun _ => limited_ok _

theorem limited_writtenEntries (es : List (Scalar × Value)) : Limited (writtenEntries es) := by
  unfold writtenEntries
  split
  · exact limited_ok _
  · exact limited_bind (limited_written _) fun _ =>
      limited_bind (limited_written _) fun _ =>
        limited_bind (limited_writtenEntries _) fun _ => limited_ok _

end

theorem limited_shown (v : Value) : Limited v.shown := by
  unfold shown
  split
  · exact limited_ok _
  · exact limited_written v

/-! ## Operators -/

theorem limited_isTruthy (v : Value) : Limited v.isTruthy := by
  unfold isTruthy
  split
  · exact limited_ok _
  · exact limited_ok _
  · exact limited_ite (limited_ok _)
      (limited_bind (Number.limited_isNan _) fun _ => limited_ok _)
  · exact limited_ok _
  · exact limited_ok _
  · exact limited_ok _

theorem limited_add (a b : Value) : Limited (a.add b) := by
  have hjoined : Limited (do
      let x ← a.toText
      let y ← b.toText
      return text (x ++ y)) :=
    limited_bind (limited_toText a) fun _ =>
      limited_bind (limited_toText b) fun _ => limited_ok _
  unfold add
  dsimp only
  split
  · exact hjoined
  · exact hjoined
  · exact limited_bind (Number.limited_lift _ _ _ _) fun _ => limited_ok _
  · exact hjoined

theorem limited_compareBy (holds : Ordering → Bool) (a b : Value) :
    Limited (compareBy holds a b) := by
  unfold compareBy
  split
  · exact limited_ok _
  · exact limited_ok _
  · exact limited_ok _
  · exact limited_bind (Number.limited_isNan _) fun _ => limited_ite (limited_ok _)
      (limited_bind (Number.limited_isNan _) fun _ => limited_ite (limited_ok _)
        (limited_ok _))

theorem limited_looseEquals (a b : Value) : Limited (looseEquals a b) := by
  unfold looseEquals
  split
  · exact limited_ok _
  · exact limited_ok _
  · exact limited_ok _
  · exact limited_ok _
  · exact limited_bind (limited_toText _) fun _ => limited_ok _
  · exact limited_bind (limited_toText _) fun _ => limited_ok _
  · exact limited_ok _

theorem limited_unary (op : UnaryOperator) (v : Value) : Limited (op.apply v) := by
  cases op with
  | not => exact limited_bind (limited_isTruthy v) fun _ => limited_ok _
  | increment => exact limited_bind (Number.limited_lift _ _ _ _) fun _ => limited_ok _
  | decrement => exact limited_bind (Number.limited_lift _ _ _ _) fun _ => limited_ok _
  | _ => exact limited_ok _

theorem limited_binary (op : BinaryOperator) (a b : Value) : Limited (op.apply a b) := by
  cases op with
  | equal => exact limited_bind (limited_looseEquals a b) fun _ => limited_ok _
  | unequal => exact limited_bind (limited_looseEquals a b) fun _ => limited_ok _
  | greater => exact limited_bind (limited_compareBy _ a b) fun _ => limited_ok _
  | less => exact limited_bind (limited_compareBy _ a b) fun _ => limited_ok _
  | greaterEqual => exact limited_bind (limited_compareBy _ a b) fun _ => limited_ok _
  | lessEqual => exact limited_bind (limited_compareBy _ a b) fun _ => limited_ok _
  | add => exact limited_add a b
  | subtract => exact limited_bind (Number.limited_lift _ _ _ _) fun _ => limited_ok _
  | multiply => exact limited_bind (Number.limited_lift _ _ _ _) fun _ => limited_ok _
  | divide => exact limited_bind (Number.limited_div _ _) fun _ => limited_ok _
  | remainder => exact limited_bind (Number.limited_rem _ _) fun _ => limited_ok _
  | power => exact limited_bind (Number.limited_pow _ _) fun _ => limited_ok _
  | or => exact limited_bind (limited_isTruthy a) fun _ => limited_ok _
  | and => exact limited_bind (limited_isTruthy a) fun _ => limited_ok _
  | _ => exact limited_ok _

/-! ## Paths -/

theorem limited_index? (key : Value) : Limited key.index? := by
  unfold index?
  split
  · exact limited_ok _
  · refine limited_ite (limited_ok _) ?_
    split
    · exact limited_ok _
    · exact limited_error rfl
  · exact limited_ok _

theorem limited_otherSpelling? (key : Value) : Limited key.otherSpelling? := by
  refine limited_bind (limited_index? key) fun n? => ?_
  cases n? with
  | none => exact limited_ok _
  | some n =>
    dsimp only
    split
    · exact limited_ite (limited_ok _) (limited_error rfl)
    · exact limited_ok _

/-- A table is looked up under what can be a key. -/
theorem limited_part (container : Value) {key : Value} (h : key.isHashable = true) :
    Limited (container.part key) := by
  unfold part
  split
  · rw [if_pos h]
    dsimp only
    split
    · exact limited_ok _
    · exact limited_bind (limited_otherSpelling? key) fun _ => limited_ok _
  · split
    · exact limited_ok _
    · exact limited_bind (limited_index? key) fun _ => limited_ok _
  · split
    · exact limited_ok _
    · exact limited_bind (limited_index? key) fun _ => limited_ok _
  · split
    · exact limited_ok _
    · exact limited_ok _
  · exact limited_ok _

theorem limited_lookup (context : Value) {path : List Value}
    (h : ∀ key ∈ path, key.isHashable = true) : Limited (context.lookup path) :=
  limited_foldlM path (fun container key hk => limited_part container (h key hk)) context

end Value

namespace Expr

theorem limited_normalKey (v : Value) : Limited (normalKey v) := by
  unfold normalKey
  split
  · exact limited_ok _
  · exact limited_ok _
  · exact limited_bind (Value.limited_toText _) fun _ => limited_ok _

end Expr
end Switchboard
