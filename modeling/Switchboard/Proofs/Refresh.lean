-- Which controls are refreshed. If a slot has another value after a transaction, the transaction
-- changed a name that the slot read. The controls that are indexed under a changed name are among
-- the targets of the event. A slot is indexed under all names it can read but one kind: those in
-- the computed properties of its callees.
import Switchboard.Proofs.Twins
namespace Switchboard

/-- The names that an expression reads for the computed properties of its callees. They are not
among its free variables. -/
def Expr.hiddenNames (e : Expr) : List String := e.callees.flatMap Expr.pathInputs

/-! ## What a control is indexed by -/

theorem forall₂_of_mapM {α β : Type} {f : α → Except Fault β} {items : List α} {results : List β}
    (h : items.mapM f = .ok results) : List.Forall₂ (fun a b => f a = .ok b) items results := by
  induction items generalizing results with
  | nil =>
    cases h
    exact .nil
  | cons a rest ih =>
    rw [List.mapM_cons] at h
    obtain ⟨b, hb, h⟩ := ok_of_bind_ok h
    obtain ⟨bs, hbs, h⟩ := ok_of_bind_ok h
    cases h
    exact .cons hb (ih hbs)

namespace Control

/-- Each slot that holds an expression is an entry whose text was read. -/
theorem readSlots_get? {entries : List (Scalar × Value)} {slots : Dict Scalar Expr}
    (h : List.Forall₂
      (fun e found => (do return (e.1, ← Expr.ofValue e.2) : Except Fault _) = .ok found)
      entries slots)
    {slot : Scalar} {e : Expr} (hs : slots.get? slot = some e) :
    ∃ entry ∈ entries, (entry.1 == slot) = true ∧ Expr.ofValue entry.2 = .ok e := by
  induction h with
  | nil => cases hs
  | @cons entry found rest slots hentry _ ih =>
    obtain ⟨e', he', hfound⟩ := ok_of_bind_ok hentry
    cases hfound
    simp only [Dict.get?] at hs
    split at hs
    · rename_i hk
      cases hs
      exact ⟨entry, List.mem_cons_self, hk, he'⟩
    · obtain ⟨other, hm, hk, hother⟩ := ih hs
      exact ⟨other, List.mem_cons_of_mem entry hm, hk, hother⟩

/-- So it is with the slots of a control. None of them is the storage slot. -/
theorem slot_of_make {serial : Nat} {id : Value} {runtime : Dict Scalar Value} {control : Control}
    (h : make serial id runtime = .ok control) {slot : Scalar} {e : Expr}
    (hs : control.slots.get? slot = some e) :
    (slot == storageSlot) = false ∧ e.isSpelled = true ∧
      ∃ entry ∈ control.runtime, (entry.1 == slot) = true := by
  obtain ⟨slots, hp, hcontrol⟩ := ok_of_bind_ok h
  cases hcontrol
  obtain ⟨entry, hm, hk, hread⟩ := readSlots_get? (forall₂_of_mapM hp) hs
  obtain ⟨hruntime, hslot⟩ := List.mem_filter.mp hm
  simp only [Bool.and_eq_true, Bool.not_eq_true'] at hslot
  refine ⟨?_, Expr.ofValue_spelled hread, entry, hruntime, hk⟩
  rw [← BEq.congr_left hk]
  exact hslot.1

/-- A control is said to read the free variables of each of its slots. -/
theorem slot_reads {control : Control} {reads : List Scalar} (hr : control.reads = .ok reads)
    {slot : Scalar} {e : Expr} (hslot : (slot == storageSlot) = false)
    (hs : control.slots.get? slot = some e)
    (hentry : ∃ entry ∈ control.runtime, (entry.1 == slot) = true) {names : List Scalar}
    (hn : e.freeVariables = .ok names) {key : Scalar} (hk : names.contains key = true) :
    reads.contains key = true := by
  obtain ⟨found, hfound, hreads⟩ := ok_of_bind_ok hr
  cases hreads
  obtain ⟨entry, hm, hentry⟩ := hentry
  obtain ⟨vs, hv, hvs⟩ := exists_of_forall₂ (forall₂_of_mapM hfound) hm
  have hnames : vs = names := by
    unfold slotVariables at hvs
    rw [BEq.congr_left hentry, hslot, Dict.get?_congr control.slots hentry, hs] at hvs
    exact Except.ok.inj (hvs.symm.trans hn)
  rw [contains_distinct, List.contains_iff_exists_mem_beq]
  rw [← hnames, List.contains_iff_exists_mem_beq] at hk
  obtain ⟨k, hmem, hkey⟩ := hk
  exact ⟨k, List.mem_flatten.mpr ⟨vs, hv, hmem⟩, hkey⟩

end Control

/-! ## Slots -/

namespace Manager

open World Conduct

variable {σ : Type} {functions : Functions σ}

/-- A control is among the readers of every name that its slots mention. -/
theorem Indexed.reader {w : World σ} {control : Control} (h : Indexed w control) {slot : Scalar}
    {e : Expr} (hs : control.slots.get? slot = some e) {s : String} (hm : s ∈ e.mentions)
    {key : Scalar} (hk : (key == .text s) = true) : control.id ∈ w.readersOf key := by
  obtain ⟨serial, id, runtime, hmake⟩ := h.made
  obtain ⟨reads, hreads, hlinked⟩ := h.linked
  obtain ⟨hslot, hspelled, hentry⟩ := Control.slot_of_make hmake hs
  have hnames := Expr.freeVariables_eq hspelled
  have hread := Control.slot_reads hreads hslot hs hentry hnames
    (Expr.freeVariables_contains hspelled hnames hm hk)
  obtain ⟨v, hv, hkv⟩ := List.contains_iff_exists_mem_beq.mp hread
  have hcontrol := hlinked v hv
  rw [← Dict.get?_congr w.readLinks hkv] at hcontrol
  exact List.mem_map_of_mem hcontrol

/-- A slot that holds an expression has the value of the expression. -/
theorem evaluateSlot_expression {below : Level σ} {control : Control} {slot : Scalar} {e : Expr}
    (hg : (Value.scalar slot).isGiven = true) (hslot : (slot == Control.storageSlot) = false)
    (hs : control.slots.get? slot = some e) :
    evaluateSlot functions below control (.scalar slot) = evaluateNow functions below e := by
  have hstorage : (Value.scalar slot).sameKey (.scalar Control.storageSlot) = false := hslot
  unfold evaluateSlot
  rw [hg, hstorage]
  funext w
  have hkey : (Run.ofExcept (Value.scalar slot).asKey : Run (World σ) Scalar) w = .ok slot w := rfl
  simp only [Bool.not_true, Bool.or_false, Bool.false_eq_true, if_false]
  rw [bind_ok hkey, hs]

/-- If nothing was changed that a slot mentions and nothing that its callees hide, its value is like
the one that it had. -/
theorem slot_unchanged {w w₁ : World σ} {log : List Change} {event? : Option Event} {e : Expr}
    {v v' : Value} {u u' : World σ} {k j : Nat} (hg : Gathered w log event? w₁)
    (ho : w.holdsOld = true) (hs : e.isSpelled = true) (ht : e.thisNamed = true)
    (hp : Likeness.CallsOnly (IsPure functions w.nextIdentity) (.map 0 w.context) e.callees)
    (ha : ∀ f ∈ e.callees, ∀ s ∈ f.root, w₁.store.state.contains (.text s) = false)
    (hv : evaluateNow functions (level functions (k + 1)) e w = .ok v u)
    (hv' : evaluateNow functions (level functions (j + 1)) e w₁ = .ok v' u')
    (hmentions : ∀ s ∈ e.mentions, isChanged log (.text s) = false)
    (hhidden : ∀ s ∈ e.hiddenNames, isChanged log (.text s) = false) :
    v.alike w.nextIdentity v' = true := by
  have hroots : ∀ f ∈ e.callees, ∀ s ∈ f.root,
      w.store.state.contains (.text s) = false ∧ isChanged log (.text s) = false := by
    intro f hf s hs
    have hend := ha f hf s hs
    rw [hg.leads.contains_eq, Bool.or_eq_false_iff] at hend
    exact hend
  have hsame : ∀ s ∈ e.inputs, w₁.table.valueAt (.text s) = w.table.valueAt (.text s) := by
    intro s hs
    refine table_valueAt_of_leads hg.context hg.leads ?_
    rcases e.inputs_accounted s hs with hm | ⟨f, hf, hm | hm⟩
    · exact hmentions s hm
    · exact (hroots f hf s hm).2
    · exact hhidden s (List.mem_flatMap.mpr ⟨f, hf, hm⟩)
  have hrepeat : Repeatable functions w e :=
    ⟨hs, ht, hp, fun f hf s hs => (hroots f hf s hs).1⟩
  obtain ⟨-, -, v₁, hv₁⟩ := hrepeat.again ho hg.identities hsame hv j
  cases hv'.symm.trans hv₁
  exact Value.alike_renamed (Nat.le_refl _) v

/-- A slot whose value is another one at the end of a transaction than at its start has its control
among the targets of the event, unless a name was changed that stands in a computed property of a
callee. So it is for every control of a manager that is not disposed of. -/
theorem a_control_is_refreshed_unless_a_callee_hides_what_changed
    (hf : ∀ name identity args, Candid (functions name identity args)) (n bound : Nat)
    {patch : Value} {w w' : World σ} (hr : Reachable w) (hl : w.isLive = true)
    (ho : w.holdsOld = true) (hw : w.inTransaction = false)
    (h : exec functions (level functions n) bound (.setState patch) nofun w = .ok () w') :
    ∃ (event? : Option Event) (w₁ : World σ) (log : List Change),
      gather false ((Opening.patch patch).writes functions (level functions n)) w =
        .ok event? w₁ ∧
      Gathered w log event? w₁ ∧
      ∀ control ∈ w.controls, ∀ (slot : Scalar) (e : Expr), (Value.scalar slot).isGiven = true →
        control.slots.get? slot = some e → e.thisNamed = true →
        Likeness.CallsOnly (IsPure functions w.nextIdentity) (.map 0 w.context) e.callees →
        (∀ f ∈ e.callees, ∀ s ∈ f.root, w₁.store.state.contains (.text s) = false) →
        ∀ (k j : Nat) (v v' : Value) (u u' : World σ),
          evaluateSlot functions (level functions (k + 1)) control (.scalar slot) w = .ok v u →
          evaluateSlot functions (level functions (j + 1)) control (.scalar slot) w₁ = .ok v' u' →
          v.alike w.nextIdentity v' = false →
          (∃ event, event? = some event ∧ event.targets.any (·.sameKey control.id) = true ∧
            Told functions (level functions n) event w₁.listeners.values
              { w₁ with events := w₁.events ++ [event] } w') ∨
          ∃ s ∈ e.hiddenNames, isChanged log (.text s) = true := by
  obtain ⟨event?, w₁, hgather, hdispatch⟩ := transaction_ok hw h
  obtain ⟨log, hg⟩ := gathered_of_gather (o := .patch patch) hf (hr.listeners hl) hgather
  refine ⟨event?, w₁, log, hgather, hg, ?_⟩
  intro control hc slot e hgiven hs ht hp ha k j v v' u u' hv hv' hunlike
  have hindexed := hr.sound.indexed control hc
  obtain ⟨serial, id, runtime, hmake⟩ := hindexed.made
  obtain ⟨hslot, hspelled, -⟩ := Control.slot_of_make hmake hs
  rw [evaluateSlot_expression hgiven hslot hs] at hv hv'
  by_cases hhidden : ∃ s ∈ e.hiddenNames, isChanged log (.text s) = true
  · exact .inr hhidden
  left
  have hquiet : ∀ s ∈ e.hiddenNames, isChanged log (.text s) = false := by
    intro s hs
    rw [Bool.eq_false_iff]
    intro hc
    exact hhidden ⟨s, hs, hc⟩
  obtain ⟨s, hm, hchanged⟩ : ∃ s ∈ e.mentions, isChanged log (.text s) = true := by
    by_contra hnone
    have hmentions : ∀ s ∈ e.mentions, isChanged log (.text s) = false := by
      intro s hs
      rw [Bool.eq_false_iff]
      intro hc
      exact hnone ⟨s, hs, hc⟩
    rw [slot_unchanged hg ho hspelled ht hp ha hv hv' hmentions hquiet] at hunlike
    cases hunlike
  obtain ⟨c, hclog, hck⟩ := isChanged_iff.mp hchanged
  cases event? with
  | none =>
    rw [hg.silent.mp rfl] at hclog
    cases hclog
  | some event =>
    have hreader := hindexed.reader hs hm hck
    exact ⟨event, rfl, hg.named event rfl c hclog control.id hreader, dispatch_ok hdispatch⟩

/-- The tree of `fns[op](x) + x`. -/
def choiceSum : Expr :=
  .binary (.text "+")
    (.call (.member (.identifier (.text "fns")) (.identifier (.text "op")) true)
      [.identifier (.text "x")])
    (.identifier (.text "x"))

/-- A control that shows the sum. -/
def display : Control where
  serial := 0
  id := .text "display"
  runtime := [(.text "label", .text "fns[op](x) + x")]
  slots := [(.text "label", choiceSum)]

/-- The functions to choose from. -/
def choices : Dict Scalar Value :=
  [(.text "a", .function (.host "seven")), (.text "b", .function (.host "nargs"))]

/-- A manager with the control. -/
def panel : World Unit :=
  (Setup.world
    { state := [(.text "op", .text "a"), (.text "x", .int 1)]
      context := [(.text "fns", .map 0 choices)]
      nextIdentity := 1 } (.ofNat 0) ()).linkControl display [.text "x"]

def counters : Functions Unit
  | "seven", _, _ => .done (.int 7)
  | _, _, args => .done (.int args.length)

theorem panel_reachable : Reachable panel := by
  have hmake : Control.make 0 (.text "display") [(.text "label", .text "fns[op](x) + x")] =
      .ok display := rfl
  have hreads : display.reads = .ok [.text "x"] := rfl
  exact ⟨_, _, _, .single (.control hmake hreads)⟩

theorem counters_pure (n : Nat) (name : String) : Pure n (counters name) := by
  have hends : ∀ identity args, ∃ i, counters name identity args = .done (.int i) ∧
      ∀ d m k, counters name k (Value.allRenamed m d args) = .done (.int i) := by
    intro identity args
    unfold counters
    split
    · exact ⟨7, rfl, fun _ _ _ => rfl⟩
    · refine ⟨args.length, rfl, fun d m k => ?_⟩
      rw [Value.allRenamed_eq, List.length_map]
  constructor
  · intro identity args
    obtain ⟨i, hi, -⟩ := hends identity args
    rw [hi]
    exact ⟨_, .done _⟩
  · intro m d identity args r _ _ _ hr
    obtain ⟨i, hi, hmoved⟩ := hends identity args
    rw [hi] at hr
    cases hr
    rw [hmoved]
    refine ⟨.done _, fun v hv => ?_⟩
    cases hv
    rfl

/-- The sum calls nothing but one of the choices. -/
theorem display_pure : Likeness.CallsOnly (IsPure counters panel.nextIdentity)
    (.map 0 panel.context) choiceSum.callees := by
  intro f hf path ha g hg
  cases List.mem_singleton.mp hf
  obtain ⟨front, key, rfl, hfront, -⟩ := ha
  have hfront : front = [.text "fns"] := hfront
  subst hfront
  have hchoice : (Value.map 0 choices).lookup [key] = .ok (.function g) := hg
  have hpart : (Value.map 0 choices).part key = .ok (.function g) := by
    simpa [Value.lookup] using hchoice
  rcases Value.map_part_cases hpart with hnull | ⟨k, hk⟩
  · cases hnull
  · simp only [choices, Dict.get?] at hk
    split at hk
    · cases hk
      exact counters_pure _ _
    · split at hk <;> cases hk
      exact counters_pure _ _

/-- Does the label come to another value, by a transaction with an event like this? -/
def relabels (patch : Value) (like : Event → Bool) : Bool :=
  (evaluateSlot counters (level counters 9) display (.text "label")).yields panel fun v _ =>
    (gather false ((Opening.patch patch).writes counters (level counters 9))).yields panel
      fun event? w₁ => event?.any like && !w₁.store.state.contains (.text "fns") &&
        (evaluateSlot counters (level counters 9) display (.text "label")).yields w₁ fun v' _ =>
          !v.alike 1 v'

theorem relabels_ok {patch : Value} {like : Event → Bool} (h : relabels patch like = true) :
    ∃ v u event w₁ v' u',
      evaluateSlot counters (level counters 9) display (.text "label") panel = .ok v u ∧
      gather false ((Opening.patch patch).writes counters (level counters 9)) panel =
        .ok (some event) w₁ ∧
      evaluateSlot counters (level counters 9) display (.text "label") w₁ = .ok v' u' ∧
      like event = true ∧ w₁.store.state.contains (.text "fns") = false ∧
      v.alike 1 v' = false := by
  obtain ⟨v, u, hv, h⟩ := Run.yields_ok h
  obtain ⟨event?, w₁, hg, h⟩ := Run.yields_ok h
  simp only [Bool.and_eq_true, Bool.not_eq_true'] at h
  obtain ⟨⟨hlike, hroot⟩, h⟩ := h
  obtain ⟨v', u', hv', hne⟩ := Run.yields_ok h
  cases event? with
  | none => cases hlike
  | some event => exact ⟨v, u, event, w₁, v', u', hv, hg, hv', hlike, hroot, by simpa using hne⟩

/-- The label depends on `x`, so its control is refreshed when `x` changes. -/
theorem the_display_is_refreshed :
    ∃ (event : Event) (w₁ : World Unit),
      gather false ((Opening.patch (.map 0 [(.text "x", .int 2)])).writes counters
        (level counters 9)) panel = .ok (some event) w₁ ∧
      event.targets.any (·.sameKey display.id) = true := by
  have hlabel : relabels (.map 0 [(.text "x", .int 2)])
      (fun event => event.new.keys = [.text "x"]) = true := by decide +kernel
  have hruns : (exec counters (level counters 9) 9 (.setState (.map 0 [(.text "x", .int 2)]))
      nofun).yields panel (fun _ _ => true) = true := by decide +kernel
  obtain ⟨_, w', hrun, -⟩ := Run.yields_ok hruns
  obtain ⟨v, u, event, w₁, v', u', hv, hgather, hv', hkeys, hroot, hunlike⟩ := relabels_ok hlabel
  have hcandid : ∀ name identity args, Candid (counters name identity args) := by
    intro name identity args
    unfold counters
    split <;> trivial
  obtain ⟨event?, w₂, log, hgather', hg, h⟩ :=
    a_control_is_refreshed_unless_a_callee_hides_what_changed hcandid 9 9 panel_reachable rfl rfl
      rfl hrun
  cases hgather.symm.trans hgather'
  have hfns : ∀ f ∈ choiceSum.callees, ∀ s ∈ f.root,
      w₁.store.state.contains (.text s) = false := by
    intro f hf s hs
    cases List.mem_singleton.mp hf
    cases List.mem_singleton.mp hs
    exact hroot
  rcases h display List.mem_cons_self (.text "label") choiceSum rfl rfl rfl display_pure hfns 8 8
    v v' u u' hv hv' hunlike with ⟨event', he, htargets, -⟩ | ⟨s, hs, hchanged⟩
  · cases he
    exact ⟨event, w₁, hgather, htargets⟩
  · have hname : s = "op" := List.mem_singleton.mp hs
    have hnew : event.new.keys = [.text "x"] := of_decide_eq_true hkeys
    have hlog := (hg.tells event rfl).new_keys
    rw [isChanged_eq, hname, ← contains_distinct, ← hlog, hnew] at hchanged
    cases hchanged

/-- The label depends on `op` too, but nothing is refreshed when `op` changes. -/
theorem the_display_is_missed :
    Reachable panel ∧ display ∈ panel.controls ∧
      ∃ (v v' : Value) (event : Event) (w₁ w' u u' : World Unit),
        exec counters (level counters 9) 9 (.setState (.map 0 [(.text "op", .text "b")])) nofun
          panel = .ok () w' ∧
        gather false ((Opening.patch (.map 0 [(.text "op", .text "b")])).writes counters
          (level counters 9)) panel = .ok (some event) w₁ ∧
        evaluateSlot counters (level counters 9) display (.text "label") panel = .ok v u ∧
        evaluateSlot counters (level counters 9) display (.text "label") w₁ = .ok v' u' ∧
        v.alike 1 v' = false ∧ event.targets = [] := by
  have hlabel : relabels (.map 0 [(.text "op", .text "b")]) (·.targets.isEmpty) = true := by
    decide +kernel
  have hruns : (exec counters (level counters 9) 9 (.setState (.map 0 [(.text "op", .text "b")]))
      nofun).yields panel (fun _ _ => true) = true := by decide +kernel
  obtain ⟨_, w', hrun, -⟩ := Run.yields_ok hruns
  obtain ⟨v, u, event, w₁, v', u', hv, hgather, hv', htargets, -, hunlike⟩ := relabels_ok hlabel
  exact ⟨panel_reachable, List.mem_cons_self, v, v', event, w₁, w', u, u', hrun, hgather, hv, hv',
    hunlike, List.isEmpty_iff.mp htargets⟩

end Manager
end Switchboard
