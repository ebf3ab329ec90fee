-- Results that have nothing to do with a bound. Only running what is nested can use the bound up:
-- no operator, no lookup, no text and no key of a table ends in that fault.
import Switchboard.Manager.Cascade
import Switchboard.Proofs.Limits
namespace Switchboard

/-- A result other than that the bound is used up. -/
def Ordinary {α : Type} (r : Except Fault α) : Prop := r ≠ .error .exhausted

/-- The same of the end of a computation. -/
def Finishes {ω α : Type} : EStateM.Result Fault ω α → Prop
  | .ok _ _ => True
  | .error f _ => f ≠ .exhausted

theorem ordinary_ok {α : Type} (a : α) : Ordinary (.ok a) := nofun

theorem ordinary_error {α : Type} {f : Fault} (h : f ≠ .exhausted) :
    Ordinary (.error f : Except Fault α) := fun he => h (Except.error.inj he)

theorem ordinary_bind {α β : Type} {r : Except Fault α} {next : α → Except Fault β}
    (h : Ordinary r) (hn : ∀ a, Ordinary (next a)) : Ordinary (r >>= next) := by
  cases r with
  | ok a => exact hn a
  | error f => exact fun he => h (by cases he; rfl)

theorem ordinary_mapM {α β : Type} {f : α → Except Fault β} (h : ∀ a, Ordinary (f a))
    (items : List α) : Ordinary (items.mapM f) := by
  induction items with
  | nil => exact ordinary_ok []
  | cons a rest ih =>
    rw [List.mapM_cons]
    exact ordinary_bind (h a) fun _ => ordinary_bind ih fun _ => ordinary_ok _

theorem ordinary_foldlM {α β : Type} {f : β → α → Except Fault β} (h : ∀ b a, Ordinary (f b a))
    (items : List α) (b : β) : Ordinary (items.foldlM f b) := by
  induction items generalizing b with
  | nil => exact ordinary_ok b
  | cons a rest ih =>
    rw [List.foldlM_cons]
    exact ordinary_bind (h b a) ih

theorem ordinary_ite {α : Type} {c : Prop} [Decidable c] {r s : Except Fault α}
    (hr : Ordinary r) (hs : Ordinary s) : Ordinary (if c then r else s) := by
  split
  · exact hr
  · exact hs

theorem Limited.ordinary {α : Type} {r : Except Fault α} (h : Limited r) : Ordinary r := by
  intro hr
  cases h _ hr

/-! ## Keys and paths -/

namespace Value

theorem ordinary_asKey (v : Value) : Ordinary v.asKey := by
  unfold asKey
  split
  · exact ordinary_ok _
  · exact ordinary_error nofun

theorem ordinary_part (container key : Value) : Ordinary (container.part key) := by
  unfold part
  split
  · refine ordinary_ite ?_ (ordinary_error nofun)
    dsimp only
    split
    · exact ordinary_ok _
    · exact ordinary_bind (limited_otherSpelling? key).ordinary fun _ => ordinary_ok _
  · split
    · exact ordinary_ok _
    · exact ordinary_bind (limited_index? key).ordinary fun _ => ordinary_ok _
  · split
    · exact ordinary_ok _
    · exact ordinary_bind (limited_index? key).ordinary fun _ => ordinary_ok _
  · split
    · exact ordinary_ok _
    · exact ordinary_ok _
  · exact ordinary_ok _

theorem ordinary_lookup (context : Value) (path : List Value) : Ordinary (context.lookup path) :=
  ordinary_foldlM ordinary_part path context

end Value

/-! ## Expressions -/

namespace Expr

theorem ordinary_nameKey (e : Expr) : Ordinary (nameKey e) := by
  unfold nameKey
  split
  · exact ordinary_ok _
  · exact ordinary_error nofun

theorem ordinary_operator? {α : Type} (ofText? : String → Option α) (unknown : String → Misuse)
    (name : Datum) : Ordinary (operator? ofText? unknown name) := by
  unfold operator?
  split
  · exact ordinary_error nofun
  · exact ordinary_error nofun
  · split
    · exact ordinary_ok _
    · exact ordinary_bind (Value.limited_shown _).ordinary fun _ => ordinary_error nofun

theorem ordinary_pathText (path : List Value) : Ordinary (pathText path) :=
  ordinary_bind (ordinary_mapM (fun v => (Value.limited_shown v).ordinary) path) fun _ =>
    ordinary_ok _

end Expr

/-! ## Random integers, delays and patches -/

namespace Generator

theorem ordinary_boundOf (v : Value) : Ordinary (boundOf v) := by
  unfold boundOf
  split
  · exact ordinary_ok _
  · exact ordinary_ok _
  · split
    · exact ordinary_ok _
    · exact ordinary_error nofun
    · exact ordinary_error nofun
  · split
    · exact ordinary_ok _
    · exact ordinary_error nofun
  · exact ordinary_error nofun

theorem ordinary_roll (args : List Value) (g : Generator) : Ordinary (roll args g) := by
  unfold roll
  split
  · refine ordinary_bind (ordinary_boundOf _) fun low => ?_
    refine ordinary_bind (ordinary_boundOf _) fun high => ?_
    exact ordinary_ite (ordinary_error nofun) (ordinary_ok _)
  · exact ordinary_error nofun

end Generator

theorem Value.ordinary_toSpan (v : Value) : Ordinary v.toSpan := by
  unfold toSpan
  split
  · exact (Number.limited_toFloat _).ordinary
  · exact (Number.limited_toFloat _).ordinary
  · exact (Number.limited_toFloat _).ordinary
  · exact ordinary_error nofun

theorem Value.ordinary_toDelay (v : Value) : Ordinary v.toDelay := by
  unfold toDelay
  split
  · exact ordinary_toSpan _
  · exact ordinary_toSpan _

theorem Clock.ordinary_delayOf (clock : Clock) (timeout : Value) :
    Ordinary (clock.delayOf timeout) := by
  cases clock with
  | virtual s => exact Value.ordinary_toDelay timeout
  | loop t => exact Value.ordinary_toSpan timeout

theorem Store.ordinary_pairOf (item : Value) : Ordinary (pairOf item) := by
  unfold pairOf
  dsimp only
  split
  case h_4 => exact ordinary_error (by simp)
  all_goals
    dsimp only [bind, Except.bind]
    split
    · exact ordinary_bind (Value.ordinary_asKey _) fun _ => ordinary_ok _
    · exact ordinary_error (by simp)

theorem Store.ordinary_patchOf (patch : Value) : Ordinary (patchOf patch) := by
  unfold patchOf
  split
  · exact ordinary_ok _
  · exact ordinary_bind (ordinary_mapM ordinary_pairOf _) fun _ => ordinary_ok _
  · exact ordinary_bind (ordinary_mapM (fun _ => ordinary_pairOf _) _) fun _ => ordinary_ok _
  · exact ordinary_error nofun

theorem ChangeSet.ordinary_addTargets (changes : ChangeSet) (ids : List Value) :
    Ordinary (changes.addTargets ids).2 := by
  induction ids generalizing changes with
  | nil => exact ordinary_ok ()
  | cons id rest ih =>
    unfold addTargets
    cases hadd : changes.addTarget id with
    | ok changes₁ => exact ih changes₁
    | error f =>
      unfold addTarget at hadd
      split at hadd
      · cases hadd
        exact ordinary_error nofun
      · split at hadd <;> cases hadd

theorem ordinary_cascade (key : Scalar) (limit : Int) :
    Fault.cascade key limit ≠ .exhausted := by
  unfold Fault.cascade
  split <;> nofun

/-! ## Expressions, controls and assignments -/

namespace Expr

theorem ordinary_ofValue (v : Value) : Ordinary (ofValue v) := by
  have hparse : ∀ s, Ordinary (parse s) := by
    intro s
    unfold parse
    split
    · exact ordinary_ok _
    · exact ordinary_error nofun
    · exact ordinary_error nofun
  unfold ofValue
  split
  · exact hparse _
  all_goals exact ordinary_error nofun

theorem ordinary_addName (name : Datum) (found : List Datum) : Ordinary (addName name found) := by
  unfold addName
  split
  · exact ordinary_ok _
  · exact ordinary_ok _
  · exact ordinary_error nofun

theorem ordinary_name? (e : Expr) : Ordinary e.name? := by
  unfold name?
  split
  · exact ordinary_ok _
  · exact ordinary_error nofun

mutual

theorem ordinary_gather {later : List Datum → Except Fault (List Datum)}
    (hl : ∀ found, Ordinary (later found)) (dotted : Option Expr) (e : Expr) (found : List Datum) :
    Ordinary (gather dotted later e found) := by
  have hpure : ∀ found, Ordinary (pure found : Except Fault (List Datum)) := ordinary_ok
  cases e with
  | literal value raw => exact hl found
  | identifier name => exact ordinary_bind (ordinary_addName name found) hl
  | self =>
    unfold gather
    split
    · exact ordinary_bind (ordinary_name? _) fun _ => hl _
    · exact hl found
  | member object property computed =>
    unfold gather
    split
    · have hlater : ∀ found, Ordinary (do later (← gather none pure property found)) :=
        fun found => ordinary_bind (ordinary_gather hpure none property found) hl
      exact ordinary_gather hlater none object found
    · exact ordinary_gather hl (some property) object found
  | unary operator argument leading => exact ordinary_gather hl none argument found
  | binary operator left right | logical operator left right =>
    exact ordinary_bind (ordinary_gather hpure none left found) fun _ =>
      ordinary_bind (ordinary_gather hpure none right _) hl
  | conditional test consequent alternate =>
    exact ordinary_bind (ordinary_gather hpure none test found) fun _ =>
      ordinary_bind (ordinary_gather hpure none consequent _) fun _ =>
        ordinary_bind (ordinary_gather hpure none alternate _) hl
  | call callee arguments => exact ordinary_bind (ordinary_gatherAll arguments found) hl
  | array es | compound es => exact ordinary_bind (ordinary_gatherAll es found) hl

theorem ordinary_gatherAll (es : List Expr) (found : List Datum) :
    Ordinary (gatherAll es found) := by
  cases es with
  | nil => exact ordinary_ok found
  | cons e rest =>
    exact ordinary_bind (ordinary_gather ordinary_ok none e found) fun _ =>
      ordinary_gatherAll rest _

end

theorem ordinary_freeVariables (e : Expr) : Ordinary e.freeVariables :=
  ordinary_bind (ordinary_gather ordinary_ok none e []) fun _ =>
    ordinary_bind (ordinary_mapM (fun d : Datum => Value.ordinary_asKey d.toValue) _) fun _ =>
      ordinary_ok _

end Expr

namespace Control

theorem ordinary_make (serial : Nat) (id : Value) (runtime : Dict Scalar Value) :
    Ordinary (make serial id runtime) := by
  have hslots : Ordinary (parseSlots runtime) :=
    ordinary_mapM (fun e : Scalar × Value =>
      ordinary_bind (Expr.ordinary_ofValue e.2) fun _ => ordinary_ok _) _
  exact ordinary_bind hslots fun _ => ordinary_ok _

theorem ordinary_reads (control : Control) : Ordinary control.reads := by
  have hslot : ∀ slot value, Ordinary (control.slotVariables slot value) := by
    intro slot value
    unfold slotVariables
    split
    · split
      · exact ordinary_bind (Value.ordinary_asKey value) fun _ => ordinary_ok _
      · exact ordinary_ok _
    · split
      · exact Expr.ordinary_freeVariables _
      · exact ordinary_ok _
  exact ordinary_bind (ordinary_mapM (fun e : Scalar × Value => hslot e.1 e.2) _) fun _ =>
    ordinary_ok _

end Control

theorem Draft.ordinary_prepareGiven (d : Draft) : Ordinary d.prepareGiven := by
  have hcondition : Ordinary d.parseCondition := by
    unfold parseCondition
    split
    · exact ordinary_bind (Expr.ordinary_ofValue _) fun _ => ordinary_ok _
    · exact ordinary_ok _
  unfold prepareGiven
  split
  · exact ordinary_bind (Value.limited_shown _).ordinary fun _ => ordinary_error nofun
  · exact ordinary_bind (Expr.ordinary_ofValue _) fun _ =>
      ordinary_bind hcondition fun _ => ordinary_ok _

theorem Prepared.ordinary_registration (p : Prepared) : Ordinary p.registration := by
  have hlistens : Ordinary p.listensTo := by
    unfold listensTo
    split
    · split
      · exact ordinary_ok _
      · exact ordinary_error nofun
    · exact Expr.ordinary_freeVariables _
  refine ordinary_bind hlistens fun names => ?_
  split
  · exact ordinary_ok _
  · exact ordinary_bind (Value.ordinary_asKey _) fun _ => ordinary_ok _

end Switchboard
