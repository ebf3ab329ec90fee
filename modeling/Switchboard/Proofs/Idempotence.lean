-- Writing what is there. A value is strictly itself, unless it is NaN, so a patch that gives each
-- key the value it has stores nothing: no change is followed up, nothing is evaluated, and no event
-- tells of it. An assignment that comes to what its own storage holds ends there likewise.
import Switchboard.Proofs.Comparisons
import Switchboard.Proofs.Reactions
import Switchboard.Proofs.Targets
namespace Switchboard

namespace Manager

open World Conduct

variable {σ : Type}

/-! ## Writes of what is stored -/

/-- Does a patch give each of its keys the value that is stored there, and never NaN? -/
def Reproduces (store : Store Unit) (entries : List (Scalar × Value)) : Prop :=
  ∀ e ∈ entries, store.read e.1 = e.2 ∧ e.2.isNaN = false

theorem same_of_stored {store : Store Unit} {key : Scalar} {value : Value}
    (h : store.read key = value) (hv : value.isNaN = false) :
    (store.read key).strictEquals value = true := by
  rw [h, Value.strictEquals_self, hv]
  rfl

/-- A table gives each of its keys the value that it has. -/
theorem reproduces_state {store : Store Unit} (honce : NoneTwice store.state.keys)
    (hv : ∀ v ∈ store.state.values, v.isNaN = false) : Reproduces store store.state := by
  intro e he
  refine ⟨?_, hv e.2 (List.mem_map_of_mem he)⟩
  unfold Store.read
  rw [Dict.get?_of_mem honce he]
  rfl

section

variable {functions : Functions σ} {below : Level σ}

theorem writeKey_same {w : World σ} {key : Scalar} {value : Value}
    (h : w.store.read key = value) (hv : value.isNaN = false) :
    writeKey functions below key value w = .ok () w := by
  rw [writeKey_eq_forM, if_pos (same_of_stored h hv)]

theorem writePatch_same {w : World σ} {entries : List (Scalar × Value)}
    (h : Reproduces w.store entries) : writePatch functions below entries w = .ok () w := by
  induction entries with
  | nil => rfl
  | cons e rest ih =>
    obtain ⟨⟨hstored, hv⟩, hrest⟩ := List.forall_mem_cons.mp h
    exact (bind_ok (writeKey_same hstored hv)).trans (ih hrest)

/-- There is no change that is to be followed up. -/
theorem traceAll_same {n : Nat} {w : World σ} {entries : List (Scalar × Value)}
    (h : Reproduces w.store entries) :
    traceAll (fun e => writeKey functions (level functions n) e.1 e.2)
      (fun e => reactionsToWrite functions (level functions n) (reactions functions n) e.1 e.2)
      entries w = [] := by
  induction entries with
  | nil => rfl
  | cons e rest ih =>
    obtain ⟨⟨hstored, hv⟩, hrest⟩ := List.forall_mem_cons.mp h
    unfold traceAll
    rw [afterwards_ok (writeKey_same hstored hv), ih hrest, List.append_nil]
    exact if_pos (same_of_stored hstored hv)

theorem reactions_same {w : World σ} {patch : Value} {entries : List (Scalar × Value)}
    (hp : Store.patchOf patch = .ok entries) (h : Reproduces w.store entries) (n : Nat) :
    (Opening.patch patch).reactions functions n w = [] := by
  simp only [Opening.reactions, hp]
  exact traceAll_same h

/-- A transaction of such a patch ends as it began. -/
theorem setState_same (bound : Nat) {w : World σ} {patch : Value} {entries : List (Scalar × Value)}
    (hp : Store.patchOf patch = .ok entries) (h : Reproduces w.store entries) :
    (Opening.patch patch).run functions below bound w =
      .ok () (if w.inTransaction then w else { w with changes := {} }) := by
  have hpatch : ∀ v : World σ, (Run.ofExcept (Store.patchOf patch) : Run (World σ) _) v =
      .ok entries v := by
    intro v
    rw [hp]
    rfl
  have hwrites : ∀ v : World σ, v.store = w.store →
      (Opening.patch patch).writes functions below v = .ok () v := by
    intro v hstore
    refine (bind_ok (hpatch v)).trans (writePatch_same ?_)
    rwa [hstore]
  rw [Opening.run_eq rfl]
  cases hopen : w.inTransaction with
  | true => exact (transaction_within hopen).trans (hwrites w rfl)
  | false => exact transaction_empty hopen (hwrites _ rfl) rfl

end

/-- An assignment that comes to what its own storage holds writes nothing. -/
theorem applyAssignment_same {functions : Functions σ} {n : Nat} {a : Assignment}
    {w w₁ w₂ : World σ} {v : Value}
    (hc : conditionHolds functions (level functions (n + 1)) a w = .ok true w₁)
    (he : evaluateNow functions (level functions (n + 1)) a.expression w₁ = .ok v w₂)
    (hv : w₂.store.read a.storage = v) (hnan : v.isNaN = false) :
    applyAssignment functions (level functions (n + 1)) a w = .ok () w₂ ∧
      reactionsToAssignment functions (level functions (n + 1)) (reactions functions (n + 1)) a w =
        [] := by
  constructor
  · unfold applyAssignment
    rw [bind_ok hc]
    exact (bind_ok he).trans (writeKey_same hv hnan)
  · unfold reactionsToAssignment
    rw [afterwards_ok hc, if_pos rfl, afterwards_ok he]
    exact if_pos (same_of_stored hv hnan)

/-- Writing what is stored is silent, unless it is NaN: of a patch that gives each key what the
state has under it nothing is stored, nothing evaluated, nothing deferred and nothing told, whatever
is registered; so it is with the state as a patch, and an assignment that comes to what its own
storage holds ends with its evaluation. -/
theorem writing_back_what_is_stored_is_silent (functions : Functions σ) :
    (∀ (below : Level σ) (bound : Nat) (patch : Value) (entries : List (Scalar × Value))
        (w : World σ), Store.patchOf patch = .ok entries → Reproduces w.store entries →
      (Opening.patch patch).run functions below bound w =
        .ok () (if w.inTransaction then w else { w with changes := {} }) ∧
      ∀ n, (Opening.patch patch).reactions functions n w = []) ∧
    (∀ (below : Level σ) (bound identity : Nat) (w : World σ), NoneTwice w.store.state.keys →
      (∀ v ∈ w.store.state.values, v.isNaN = false) →
      (Opening.patch (.map identity w.snapshot.state)).run functions below bound w =
        .ok () (if w.inTransaction then w else { w with changes := {} })) ∧
    ∀ (n : Nat) (a : Assignment) (w w₁ w₂ : World σ) (v : Value),
      conditionHolds functions (level functions (n + 1)) a w = .ok true w₁ →
      evaluateNow functions (level functions (n + 1)) a.expression w₁ = .ok v w₂ →
      w₂.store.read a.storage = v → v.isNaN = false →
      applyAssignment functions (level functions (n + 1)) a w = .ok () w₂ ∧
      reactionsToAssignment functions (level functions (n + 1)) (reactions functions (n + 1)) a w =
        [] := by
  refine ⟨?_, ?_, ?_⟩
  · intro below bound patch entries w hp h
    exact ⟨setState_same bound hp h, reactions_same hp h⟩
  · intro below bound identity w honce hv
    exact setState_same bound rfl (reproduces_state honce hv)
  · intro n a w w₁ w₂ v hc he hv hnan
    exact applyAssignment_same hc he hv hnan

/-- A reading that is no number, and an alarm that is set off by every change of it. -/
def thermometer : World Unit :=
  (Setup.world { state := [(.text "reading", .float .nan)] } (.ofNat 0) ()).linkAssignment
    ⟨.text "alarm", .null, .literal (.bool true) (.text "true"), none, .null⟩ [.text "reading"]

/-- A reading that is no number is told anew when it is written back, and it sets off the alarm. -/
theorem a_reading_that_is_no_number_is_told_anew :
    Reachable thermometer ∧ ∃ w : World Unit,
      (Opening.patch (.map 0 thermometer.snapshot.state)).run unaided (level unaided 9) 9
        thermometer = .ok () w ∧
      thermometer.store.state = [(.text "reading", .float .nan)] ∧
      w.events.map (·.new.keys) = [[.text "reading", .text "alarm"]] ∧
      w.store.state.keys = [.text "reading", .text "alarm"] := by
  have hruns : ((Opening.patch (.map 0 thermometer.snapshot.state)).run unaided (level unaided 9)
      9).yields thermometer (fun _ w =>
        w.events.map (·.new.keys) = [[.text "reading", .text "alarm"]] ∧
          w.store.state.keys = [.text "reading", .text "alarm"]) = true := by decide +kernel
  obtain ⟨_, w, hrun, hends⟩ := Run.yields_ok hruns
  obtain ⟨hevents, hkeys⟩ := of_decide_eq_true hends
  have hreachable : Reachable thermometer :=
    ⟨_, _, _, Relation.ReflTransGen.single (.assignment _ _)⟩
  exact ⟨hreachable, w, hrun, rfl, hevents, hkeys⟩

/-- The price is written back, and the total and the quote that follow it are left alone. A price
that is to be the price stays as it is. -/
theorem a_price_written_back_asks_for_no_quote :
    (∃ w : World Unit, (Opening.patch (.map 0 market.snapshot.state)).run unaided
      (level unaided 9) 9 market = .ok () w ∧ w.core = market.core) ∧
    ∃ w : World Unit,
      applyAssignment unaided (level unaided 9) (pricing "price" none .null) market = .ok () w ∧
        w.core = market.core := by
  obtain ⟨-, hstate, hown⟩ := writing_back_what_is_stored_is_silent unaided
  refine ⟨⟨_, hstate (level unaided 9) 9 0 market ?_ ?_, rfl⟩, _,
    (hown 8 (pricing "price" none .null) market _ _ _ rfl rfl rfl rfl).1, rfl⟩
  · exact List.pairwise_singleton _ _
  · intro v hv
    cases List.mem_singleton.mp hv
    rfl

end Manager
end Switchboard
