-- The guard against deep cascades. A transaction under a limit comes to its end, whatever listens
-- to what. It goes just as without a limit if no reaction nests deeper than allowed, and otherwise
-- up to the change that would be followed up one level too deep, which is kept and told to no one.
import Switchboard.Proofs.Onlookers
import Switchboard.Proofs.Reactions
namespace Switchboard.Manager

open World Conduct

variable {σ : Type} {functions : Functions σ} {limit : Nat}

/-! ## How deep reactions nest -/

/-- The largest number of changes that are being followed up at a time. -/
def deepest (ms : List (Reaction σ)) : Nat := ms.foldr (fun m deep => max m.nesting deep) 0

theorem deepest_le {ms : List (Reaction σ)} :
    deepest ms ≤ limit ↔ ∀ m ∈ ms, m.nesting ≤ limit := by
  induction ms with
  | nil => simp [deepest]
  | cons m rest ih =>
    have hmax : deepest (m :: rest) = max m.nesting (deepest rest) := rfl
    rw [hmax, Nat.max_le, ih, List.forall_mem_cons]

theorem lt_deepest {before after : List (Reaction σ)} {m : Reaction σ}
    (h : m.nesting = limit + 1) : limit < deepest (before ++ m :: after) := by
  refine Nat.lt_of_not_le fun hle => ?_
  have hm := deepest_le.mp hle m (List.mem_append_right before List.mem_cons_self)
  omega

/-! ## Under the guard -/

theorem Opening.begun_limited (o : Opening) (limit : Option Int) (w : World σ) :
    o.begun (w.limited limit) = (o.begun w).limited limit := by
  cases o <;> rfl

/-- An event is told the same way under every limit. -/
theorem dispatch_limited (hf : ∀ name identity args, WritesNothing (functions name identity args))
    (n : Nat) (event : Event) {w : World σ} (hw : w.Onlookers) (limit : Option Int) :
    dispatch functions (level functions n) event (w.limited limit) =
      Run.mapEnd (World.limited limit) (dispatch functions (level functions n) event w) := by
  have htold : (aloof : Law Unit (World σ)).holds fun _ => w.listeners.values.forM fun l =>
      deliver functions (level functions n) l event :=
    aloof.forM _ fun l hm => aloof_deliver hf n (hw.listeners l hm) event
  exact (htold { w with events := w.events ++ [event] } ⟨hw.listeners, hw.effects⟩).same limit

/-- The manager that the guard leaves at the change that would nest too deep. -/
def Reaction.cut (limit : Nat) (m : Reaction σ) : World σ :=
  { m.world.limited (some limit) with depth := 0, inTransaction := false }

section

variable {o : Opening} {w : World σ} {n : Nat} {ms : List (Reaction σ)}

/-- A transaction whose writes go the same way under the limit does so with its event. -/
theorem run_within (hf : ∀ name identity args, WritesNothing (functions name identity args))
    (ho : o.isAllowed = true) (hclosed : w.inTransaction = false) (bound : Nat)
    (honlookers : (Run.ending (o.writes functions (level functions n) (o.begun w))).Onlookers)
    (hwithin : Within limit (o.writes functions (level functions n)) ms (o.begun w)) :
    o.run functions (level functions n) bound (w.limited (some limit)) =
      Run.mapEnd (World.limited (some limit))
        (o.run functions (level functions n) bound w) := by
  have hsame := hwithin.same
  rw [← o.begun_limited] at hsame
  have hlimited : (w.limited (some (limit : Int))).inTransaction = false := hclosed
  rw [Opening.run_begun ho bound hclosed, Opening.run_begun ho bound hlimited, hsame]
  cases hr : o.writes functions (level functions n) (o.begun w) with
  | error f v => rfl
  | ok a v =>
    rw [hr] at honlookers
    have hclosing : ({ v with inTransaction := false } : World σ).Onlookers :=
      ⟨honlookers.listeners, honlookers.effects⟩
    have htold := dispatch_limited hf n (v.changes.toEvent o.isDelayed) hclosing (some limit)
    change (if v.changes.isEmpty then _ else _) =
      Run.mapEnd _ (if v.changes.isEmpty then _ else _)
    cases v.changes.isEmpty with
    | true => rfl
    | false => exact htold

/-- One whose writes are stopped ends there. -/
theorem run_stopped (ho : o.isAllowed = true) (hclosed : w.inTransaction = false)
    (hdepth : w.depth = 0) (bound : Nat)
    (hstopped : Stopped limit (o.writes functions (level functions n)) ms (o.begun w)) :
    ∃ before m after, ms = before ++ m :: after ∧ (∀ b ∈ before, b.nesting ≤ limit) ∧
      m.nesting = limit + 1 ∧
      o.run functions (level functions n) bound (w.limited (some limit)) =
        .error (.cascade m.change.key limit) (m.cut limit) := by
  obtain ⟨before, m, after, hsplit, hbefore, hnesting, hstop⟩ := hstopped
  refine ⟨before, m, after, hsplit, hbefore, hnesting, ?_⟩
  have hlimited : (w.limited (some (limit : Int))).inTransaction = false := hclosed
  have hbegun : (o.begun w).depth = 0 := (o.start_depth w).trans hdepth
  rw [Opening.run_begun ho bound hlimited, o.begun_limited, hstop, hbegun]
  rfl

end

theorem Reachable.unlimited {w : World σ} (hr : Reachable w) (hw : w.Onlookers) (o : Opening) :
    Unlimited (o.begun (w.limited none)) := by
  have hheard := hr.sound.listeners
  cases o <;> exact ⟨rfl, ⟨hw.listeners, hw.effects⟩, hheard⟩

/-- Under a limit every transaction comes to its end. If nothing nests deeper than allowed without a
limit, it goes as without one, in all that it leaves and tells, whether it succeeds or fails. If
something does, it goes as without one up to the first change that is to be followed up one level
too deep. This change is kept, the fault names its key and the limit, and there is no event. -/
theorem the_guard_ends_every_cascade_and_is_exact (functions : Functions σ)
    (hf : ∀ name identity args, WritesNothing (functions name identity args))
    (ht : Total functions) (limit bound : Nat) (o : Opening) (ho : o.isAllowed = true) (w : World σ)
    (hr : Reachable w) (hw : w.Onlookers) (hclosed : w.inTransaction = false)
    (hdepth : w.depth = 0) :
    (∃ r, Settles (fun n => o.run functions (level functions n) bound)
      (w.limited (some limit)) r) ∧
    ∀ n, let ms := o.reactions functions n (o.begun (w.limited none))
      (deepest ms ≤ limit →
        o.run functions (level functions n) bound (w.limited (some limit)) =
          Run.mapEnd (World.limited (some limit))
            (o.run functions (level functions n) bound (w.limited none))) ∧
      (limit < deepest ms → ∃ before m after f, ms = before ++ m :: after ∧
        deepest before ≤ limit ∧ m.nesting = limit + 1 ∧
        o.run functions (level functions n) bound (w.limited (some limit)) =
          .error f (m.cut limit) ∧
        (m.change.key.isWritable = true → f = .cascadeTooDeep m.change.key limit) ∧
        (m.cut limit).store.history = w.store.history ++ (before ++ [m]).map (·.change) ∧
        (m.cut limit).store.read m.change.key = m.change.new ∧
        (m.cut limit).events = w.events) := by
  have hharmless := harmless_of_total hf ht
  have hplaced : Placed limit 0 (w.limited (some limit)) :=
    ⟨rfl, hdepth, hw.listeners, hw.effects⟩
  have hlimited : (w.limited (some (limit : Int))).inTransaction = false := hclosed
  refine ⟨settles_opening hharmless ho hplaced hlimited (fun l hl => tame_deliver hf ht hl) bound,
    fun n => ?_⟩
  have hopen : (w.limited none).inTransaction = false := hclosed
  have hbegun : (o.begun (w.limited none)).depth ≤ limit := by
    rw [show (o.begun (w.limited none)).depth = 0 from (o.start_depth _).trans hdepth]
    exact Nat.zero_le limit
  have hwrites : Exact limit (o.writes functions (level functions n)) _ :=
    exact_writes hharmless n o
  obtain ⟨htracks, hguard⟩ := hwrites _ (hr.unlimited hw o)
  have honlookers := htracks.onlookers (hr.unlimited hw o).onlookers
  refine ⟨fun hle => ?_, fun hlt => ?_⟩
  · rcases hguard hbegun with hwithin | ⟨before, m, after, hsplit, -, hnesting, -⟩
    · exact run_within hf ho hopen bound honlookers hwithin
    · rw [hsplit] at hle
      exact absurd (lt_deepest hnesting) (Nat.not_lt.mpr hle)
  · rcases hguard hbegun with hwithin | hstopped
    · exact absurd (deepest_le.mpr hwithin.shallow) (Nat.not_le.mpr hlt)
    · obtain ⟨before, m, after, hsplit, hbefore, hnesting, hrun⟩ :=
        run_stopped ho hopen hdepth bound hstopped
      obtain ⟨-, hhistory, hevents⟩ := htracks.recorded before m after hsplit
      refine ⟨before, m, after, _, hsplit, deepest_le.mpr hbefore, hnesting, hrun, fun hkey => ?_,
        hhistory.trans (by rw [o.begun_store]; rfl), m.stored,
        hevents.trans (o.begun_events (w.limited none))⟩
      exact if_pos hkey

/-- Two values, each of which is made one more than the other when that changes. -/
def strokes : List Prepared :=
  [⟨⟨.text "pong", .null, .text "ping", .null, .null⟩,
      .binary (.text "+") (.identifier (.text "ping")) (.literal (.int 1) .null), none⟩,
    ⟨⟨.text "ping", .null, .text "pong", .null, .null⟩,
      .binary (.text "+") (.identifier (.text "pong")) (.literal (.int 1) .null), none⟩]

/-- The manager that these are registered with. -/
def court : World Unit :=
  (strokes.filterMap fun p => p.registration.toOption).foldl
    (fun w r => r.2.elim w fun a => w.linkAssignment a r.1)
    (Setup.world { state := [(.text "ping", .int 0)] } (.ofNat 0) ())

/-- The same with one who listens. -/
def rally : World Unit := { court with listeners := [(1, .host fun _ => .done .null)] }

theorem total_unaided : Total unaided := fun _ _ _ w _ => by
  refine ⟨.ok .null w, trivial, 1, fun n hn => ?_⟩
  cases n with
  | zero => omega
  | succ n => rfl

/-- A rally never ends by itself. Under a limit of three its fourth stroke is the last: it is kept,
and no one is told. A price whose total follows it goes under a limit of two as without one. -/
theorem a_rally_is_cut_at_its_fourth_stroke :
    (∃ r, Settles (fun n => (Opening.patch (.map 0 [(.text "ping", .int 1)])).run unaided
      (level unaided n) 0) (rally.limited (some 3)) r) ∧
    (∃ w', (Opening.patch (.map 0 [(.text "ping", .int 1)])).run unaided (level unaided 9) 0
        (rally.limited (some 3)) = .error (.cascadeTooDeep (.text "pong") 3) w' ∧
      w'.store.history.length = 4 ∧ w'.events = []) ∧
    (Opening.patch (.map 0 [(.text "price", .int 5)])).run unaided (level unaided 9) 0
        (market.limited (some 2)) =
      Run.mapEnd (World.limited (some 2))
        ((Opening.patch (.map 0 [(.text "price", .int 5)])).run unaided (level unaided 9) 0
          (market.limited none)) := by
  have hcourt : Reachable court :=
    ⟨_, _, _, (Relation.ReflTransGen.single (.assignment _ _)).tail (.assignment _ _)⟩
  have hrally : Reachable rally := hcourt.steps (.single (.aside ⟨rfl, Nat.le_refl _⟩))
  have hmarket : Reachable market :=
    ⟨_, _, _, (Relation.ReflTransGen.single (.assignment _ _)).tail (.assignment _ _)⟩
  have honlookers : rally.Onlookers := by
    refine ⟨fun l hl => ?_, fun _ he => nomatch he⟩
    cases List.mem_singleton.mp hl
    exact fun _ => trivial
  have hnobody : market.Onlookers := ⟨(fun _ hl => nomatch hl), fun _ he => nomatch he⟩
  obtain ⟨hends, hexact⟩ := the_guard_ends_every_cascade_and_is_exact unaided
    (fun _ _ _ => trivial) total_unaided 3 0 (.patch (.map 0 [(.text "ping", .int 1)])) rfl rally
    hrally honlookers rfl rfl
  obtain ⟨-, hsame⟩ := the_guard_ends_every_cascade_and_is_exact unaided
    (fun _ _ _ => trivial) total_unaided 2 0 (.patch (.map 0 [(.text "price", .int 5)])) rfl market
    hmarket hnobody rfl rfl
  refine ⟨hends, ?_, (hsame 9).1 (by decide +kernel)⟩
  obtain ⟨before, m, after, f, -, -, -, hrun, -, -, -, hevents⟩ := (hexact 9).2 (by decide +kernel)
  have hfails : fails ((Opening.patch (.map 0 [(.text "ping", .int 1)])).run unaided
      (level unaided 9) 0) (rally.limited (some 3)) (fun f w =>
        f = .cascadeTooDeep (.text "pong") 3 && w.store.history.length = 4) = true := by
    decide +kernel
  obtain ⟨f', w', hrun', hcut⟩ := fails_error hfails
  obtain ⟨hfault, hlength⟩ := Bool.and_eq_true_iff.mp hcut
  cases hrun.symm.trans hrun'
  cases of_decide_eq_true hfault
  exact ⟨_, hrun, of_decide_eq_true hlength, hevents⟩

end Switchboard.Manager
