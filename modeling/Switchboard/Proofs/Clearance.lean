-- Running all that waits. Round by round the clock goes to the due time of the task that comes
-- next, until none is left. If no task fails or moves the clock itself, this comes to an end, and
-- each task that is not cancelled before its turn has started once, in the order of all tasks. One
-- advance that goes as far as the last of them makes the same calls.
import Switchboard.Proofs.Additivity
import Switchboard.Proofs.Offspring
namespace Switchboard.Scheduler

open Conduct Chronicle Run

theorem Chronicle.of_orBroken_ok {τ σ α : Type} {deadline : τ} {act : Run (Chronicle τ σ) α}
    {w v : Chronicle τ σ} {a : α} (h : orBroken deadline act w = .ok a v) : act w = .ok a v := by
  unfold orBroken at h
  split at h
  · rename_i hr
    cases h
    exact hr
  · cases h

/-! ## Rounds and windows -/

section

variable {ω ψ τ : Type} [AddCommGroup τ] [LinearOrder τ] {part : Part ω (Scheduler τ ψ)}
  {fire : ψ → Run ω Unit}

/-- A larger bound changes nothing. -/
theorem guarded_runAll_le {bound bound' n k : Nat} (hb : bound ≤ bound') (h : n ≤ k) :
    Guarded (runAll part fire bound n) (runAll part fire bound' k) := by
  induction n generalizing k with
  | zero => exact fun w => .inr ⟨w, rfl⟩
  | succ n ih =>
    obtain ⟨k, rfl⟩ : ∃ j, k = j + 1 := ⟨k - 1, by omega⟩
    unfold runAll
    refine guarded_bind (guarded_refl _) fun s => ?_
    cases s.queue.top? with
    | none => exact guarded_refl _
    | some t =>
      have hround : ∀ ms, Guarded (advance part fire bound ms) (advance part fire bound' ms) :=
        fun ms => guarded_bind (guarded_refl _) fun _ => guarded_advanceTo_le hb
      exact guarded_bind (hround _) fun _ => guarded_bind (ih (by omega)) fun _ => guarded_refl _

variable [IsOrderedAddMonoid τ]

/-- The clock does not go back from round to round. -/
theorem now_le_of_runAll (hp : part.Lawful) {bound : Nat} (rounds : Nat) {w v : ω} {ran : Nat}
    (h : runAll part fire bound rounds w = .ok ran v) : (part.view w).now ≤ (part.view v).now := by
  induction rounds generalizing w ran with
  | zero => cases h
  | succ n ih =>
    cases ht : (part.view w).queue.top? with
    | none =>
      rw [runAll_idle bound n ht] at h
      cases h
      exact le_rfl
    | some t =>
      rw [runAll_next bound n ht] at h
      obtain ⟨before, u, hround, h⟩ := bind_ok_inv h
      obtain ⟨after, u', hrest, h⟩ := bind_ok_inv h
      cases h
      refine le_trans ?_ (ih hrest)
      rw [now_of_advanceTo hp bound hround]
      exact le_add_of_nonneg_right (le_max_right _ 0)

/-- All rounds together come to what one advance comes to that goes as far. -/
theorem runAll_advanceTo (hp : part.Lawful) {bound : Nat} {deadline : τ} (rounds : Nat) {w v : ω}
    {ran : Nat} (h : runAll part fire bound rounds w = .ok ran v)
    (hlast : (part.view v).now ≤ deadline) :
    ∃ n, advanceTo part fire deadline n w = .ok ran (clockAt part deadline v) := by
  induction rounds generalizing w ran with
  | zero => cases h
  | succ n ih =>
    cases ht : (part.view w).queue.top? with
    | none =>
      rw [runAll_idle bound n ht] at h
      cases h
      exact ⟨1, advanceTo_arrived 0 fun t hsome => nomatch ht.symm.trans hsome⟩
    | some t =>
      rw [runAll_next bound n ht] at h
      obtain ⟨before, u, hround, h⟩ := bind_ok_inv h
      obtain ⟨after, u', hrest, h⟩ := bind_ok_inv h
      cases h
      obtain ⟨k, hk⟩ := ih hrest
      have hnow := now_of_advanceTo hp bound hround
      have hdeadline := hnow.symm.le.trans ((now_le_of_runAll hp n hrest).trans hlast)
      have htwo : onward part fire _ deadline bound k w =
          .ok (before + after) (clockAt part deadline v) :=
        (bind_ok hround).trans (bind_ok hk)
      exact ⟨bound + k, (onward_advanceTo hp hdeadline bound k w).ok htwo⟩

end

/-! ## All rounds -/

section

variable {τ σ : Type} [AddCommGroup τ] [LinearOrder τ]

/-- What happened in the rounds that left nothing to wait: so many starts of tasks, and no advance
within another one or into the past. -/
structure Cleared (w w' : Chronicle τ σ) (ran : Nat)
    (more : List (Entry τ (Program (interface τ) σ))) : Prop where
  log : w'.log = w.log ++ more
  path : Path w.stage more w'.stage
  unhurried : Unhurried more
  count : more.countP (·.what.isStart) = ran
  running : w'.running = []
  empty : w'.session.scheduler.queue.top? = none

theorem Cleared.idle {w : Chronicle τ σ} (hw : w.running = [])
    (ht : w.session.scheduler.queue.top? = none) : Cleared w w 0 [] :=
  ⟨(List.append_nil _).symm, .nil, nofun, rfl, hw, ht⟩

variable [IsOrderedAddMonoid τ]

/-- One more round before the others. -/
theorem Cleared.round {w u w' : Chronicle τ σ} {before after : Nat} {ms : τ}
    {mid more : List (Entry τ (Program (interface τ) σ))}
    {x : Stage τ (Program (interface τ) σ)} (hw : w.running = []) (hms : 0 ≤ ms)
    (hround : Drained (w.session.scheduler.now + ms)
      (w.entered (.began (w.session.scheduler.now + ms))
        ⟨w.session.scheduler, (w.session.scheduler.now + ms) :: w.running⟩) u before mid x)
    (hrest : Cleared u w' after more) :
    Cleared w w' (before + after)
      (⟨.began (w.session.scheduler.now + ms),
          ⟨w.session.scheduler, (w.session.scheduler.now + ms) :: w.running⟩⟩ ::
        mid ++ ⟨.arrived (w.session.scheduler.now + ms), u.stage⟩ :: more) where
  log := by
    rw [hrest.log, hround.log]
    simp [Chronicle.entered]
  path := by
    have hbegan : Path w.stage _ _ := .single (.began (w.session.scheduler.now + ms))
    have hlast := (hbegan.append hround.path).append (.single hround.arrived)
    have hall := hlast.append hrest.path
    rw [List.append_assoc] at hall
    exact hall
  unhurried e he := by
    rcases List.mem_append.mp he with he | he
    · rcases List.mem_cons.mp he with rfl | he
      · refine ⟨le_add_of_nonneg_right hms, fun outer houter => ?_⟩
        change outer ∈ w.running at houter
        rw [hw] at houter
        exact (List.not_mem_nil houter).elim
      · exact unhurried_of_inner hround.inner e he
    · rcases List.mem_cons.mp he with rfl | he
      · trivial
      · exact hrest.unhurried e he
  count := by
    rw [List.countP_append, List.countP_cons_of_neg (by exact Bool.false_ne_true), hround.count,
      List.countP_cons_of_neg (by exact Bool.false_ne_true), hrest.count]
  running := hrest.running
  empty := hrest.empty

/-- The rounds end: by induction on what is in the queue. Each takes at least the task that comes
next, which is due by its deadline. -/
theorem runAll_ends (m : Nat) {w : Chronicle τ σ} (hw : w.running = [])
    (hm : AllModest w.session.scheduler) (hsane : Sane w.session.scheduler) :
    ∃ enough ran w' more, Cleared w w' ran more ∧ ∀ bound ≥ enough, ∀ rounds ≥ enough,
      Chronicle.runAll (runTask m) bound rounds w = .ok ran w' := by
  induction hs : w.session.scheduler.payloads using (wellFounded_cutExpand τ σ).transGen.induction
    generalizing w with
  | _ s ih =>
    subst hs
    cases ht : w.session.scheduler.queue.top? with
    | none =>
      refine ⟨1, 0, w, [], .idle hw ht, fun bound _ rounds hr => ?_⟩
      obtain ⟨n, rfl⟩ : ∃ k, rounds = k + 1 := ⟨rounds - 1, by omega⟩
      exact Chronicle.runAll_idle bound n ht
    | some t =>
      let ms := max (t.due - w.session.scheduler.now) 0
      let deadline := w.session.scheduler.now + ms
      let u := w.entered (.began deadline) ⟨w.session.scheduler, deadline :: w.running⟩
      have hdue : t.due ≤ deadline := by
        rw [← sub_le_iff_le_add']
        exact le_max_left _ 0
      have hbegan : u.running = deadline :: w.running := rfl
      obtain ⟨enough, before, v, hend, hround⟩ := advanceTo_ends m hbegan hm
      have hless := hend.fewer.resolve_left fun hnone => hnone.1 t ht hdue
      have hdrains := drains (calm_task (m + 1)) enough hbegan hm
      have hlast : Chronicle.advanceTo (fun p => do let _ ← Chronicle.run (m + 1) p) deadline
          enough u = .ok before v := hround enough le_rfl
      unfold Drains at hdrains
      rw [hlast] at hdrains
      obtain ⟨mid, x, hdrained⟩ := hdrains
      have hrunning : v.running = [] := hend.running.trans hw
      obtain ⟨others, after, w', more, hcleared, hrest⟩ := ih _ hless hrunning hend.modest
        ((hsane.path hdrained.path).step hdrained.arrived) rfl
      refine ⟨max enough (others + 1), before + after, w', _,
        hcleared.round hw (le_max_right _ 0) hdrained, fun bound hb rounds hr => ?_⟩
      obtain ⟨n, rfl⟩ : ∃ k, rounds = k + 1 := ⟨rounds - 1, by omega⟩
      have hadvance : Chronicle.advance (runTask m) bound ms w = .ok before v :=
        orBroken_ok (hround bound (by omega))
      rw [Chronicle.runAll_next bound n ht, bind_ok hadvance]
      exact bind_ok (hrest bound (by omega) n (by omega))

end

/-! ## The calls -/

namespace Record

variable {τ σ : Type} [Add τ] [Sub τ] [Zero τ] [Max τ] [LE τ] [LT τ] [DecidableLE τ] [DecidableLT τ]

/-- To run all that waits in a session, with a record. -/
def runAll (m bound : Nat) : Run (Record τ σ) Nat :=
  Scheduler.runAll schedulerPart (call m) bound bound

end Record

section

variable {ω ω' τ ψ : Type} [Add τ] [Sub τ] [Zero τ] [Max τ] [LE τ] [LT τ] [DecidableLE τ]
  [DecidableLT τ] {view : ω → ω'} {fire : ψ → Run ω Unit} {fire' : ψ → Run ω' Unit}

theorem projects_rounds (part : Part ω (Scheduler τ ψ)) (part' : Part ω' (Scheduler τ ψ))
    (hread : Projects view part.read part'.read)
    (hwrite : ∀ s, Projects view (part.write s) (part'.write s))
    (hf : ∀ p, Projects view (fire p) (fire' p)) (bound rounds : Nat) :
    Projects view (runAll part fire bound rounds) (runAll part' fire' bound rounds) := by
  induction rounds with
  | zero => exact projects_throw _
  | succ n ih =>
    unfold runAll
    refine projects_bind hread fun s => ?_
    cases s.queue.top? with
    | none => exact projects_pure 0
    | some t =>
      refine projects_bind ?_ fun _ => projects_bind ih fun _ => projects_pure _
      exact projects_bind hread fun s =>
        projects_advanceTo part part' hread hwrite hf _ bound

end

/-- To forget the record gives what the session does. -/
theorem projects_runAll {τ σ : Type} [Add τ] [Sub τ] [Zero τ] [Max τ] [LE τ] [LT τ] [DecidableLE τ]
    [DecidableLT τ] (m bound : Nat) :
    Projects Record.session (Record.runAll m bound : Run (Record τ σ) Nat)
      (Session.exec (Session.run m) bound .runAll nofun) :=
  projects_rounds Record.schedulerPart Session.schedulerPart (fun _ => rfl) (fun _ _ => rfl)
    (projects_call m) bound bound

section

variable {τ σ : Type} [AddCommGroup τ] [LinearOrder τ] {base : Tally τ} {m : Nat}

omit [AddCommGroup τ] in
/-- Requests start nothing. -/
theorem started_after_requests (log : List (Entry τ (Program (interface τ) σ)))
    {more : List (Entry τ (Program (interface τ) σ))} (h : ∀ e ∈ more, e.what.isRequest = true) :
    (base.after (log ++ more)).started = (base.after log).started := by
  induction more using List.reverseRecOn with
  | nil => rw [List.append_nil]
  | append_singleton more e ih =>
    rw [← List.append_assoc, Tally.after_concat,
      ← ih fun e' he' => h e' (List.mem_append_left _ he')]
    have hwhat := h e (List.mem_append_right _ List.mem_cons_self)
    obtain ⟨what, v⟩ := e
    cases what with
    | submitted serial due => rfl
    | cancelled serial => rfl
    | looked => rfl
    | _ => cases hwhat

/-- Does a record have the calls of the tasks that a chronicle says have started? -/
structure Told (base : Tally τ) (w : Chronicle τ σ) (r : Record τ σ) : Prop where
  session : r.session = w.session
  calls : r.calls.map (·.1) = (base.after w.log).started.map dueOf

omit [AddCommGroup τ] in
/-- What starts nothing is not told. -/
theorem Told.idle {w : Chronicle τ σ} {r : Record τ σ} (h : Told base w r) (what : Happening τ)
    (s : Scheduler τ (Program (interface τ) σ)) (running : List τ)
    (hwhat : ∀ a : Tally τ, (a.enter what).started = a.started) :
    Told base (w.entered what ⟨s, running⟩) (Record.schedulerPart.replace s r) := by
  refine ⟨congrArg (fun u : Session τ σ => { u with scheduler := s }) h.session, ?_⟩
  change r.calls.map (·.1) = (base.after (w.log ++ [_])).started.map dueOf
  rw [Tally.after_concat, hwhat]
  exact h.calls

/-- A task that starts is called. -/
theorem Told.start {w u : Chronicle τ σ} {r : Record τ σ} (h : Told base w r)
    (t : Task τ (Program (interface τ) σ)) (queue : Heap (Task τ (Program (interface τ) σ)))
    (hran : runTask m t.payload (w.entered (.started t.serial t.due)
      ⟨{ w.session.scheduler with now := t.due, queue := queue }, w.running⟩) = .ok () u)
    (hmeek : Meek (w.entered (.started t.serial t.due)
      ⟨{ w.session.scheduler with now := t.due, queue := queue }, w.running⟩) u) :
    ∃ r', Record.call (m + 1) t.payload (Record.schedulerPart.replace
      { w.session.scheduler with now := t.due, queue := queue } r) = .ok () r' ∧
      Told base u r' := by
  let s : Scheduler τ (Program (interface τ) σ) :=
    { w.session.scheduler with now := t.due, queue := queue }
  let start := w.entered (.started t.serial t.due) ⟨s, w.running⟩
  let r₁ : Record τ σ := Record.schedulerPart.replace s r
  have hsession : r₁.session = start.session :=
    congrArg (fun u : Session τ σ => { u with scheduler := s }) h.session
  obtain ⟨a, v, hrun, hend⟩ := bind_ok_inv hran
  cases hend
  have hplain := logs_run (m + 1) t.payload start
  rw [hrun] at hplain
  refine ⟨{ Record.called t.payload r₁ with session := u.session }, ?_, rfl, ?_⟩
  · change Record.call (m + 1) t.payload r₁ = _
    unfold Record.call
    rw [hsession, ← hplain]
    rfl
  · obtain ⟨more, hlog, -, hrequests⟩ := hmeek.records
    change (r.calls ++ [(s.now, t.payload)]).map (·.1) = _
    rw [hlog, started_after_requests _ hrequests]
    change _ = (base.after (w.log ++ [_])).started.map dueOf
    rw [Tally.after_concat, List.map_append, h.calls]
    have hranked : ((base.after w.log).started ++ [t.rank]).map dueOf =
        (base.after w.log).started.map dueOf ++ [t.rank].map dueOf := List.map_append
    exact hranked.symm

/-- The loop makes the calls that are told. -/
theorem told_advanceTo {deadline : τ} {outer : List τ} (n : Nat) {w w' : Chronicle τ σ}
    {r : Record τ σ} {ran : Nat} (hw : w.running = deadline :: outer)
    (hm : AllModest w.session.scheduler) (ht : Told base w r)
    (h : Chronicle.advanceTo (runTask m) deadline n w = .ok ran w') :
    AllModest w'.session.scheduler ∧ ∃ r',
      advanceTo Record.schedulerPart (Record.call (m + 1)) deadline n r = .ok ran r' ∧
        Told base w' r' := by
  induction n generalizing w r ran with
  | zero => cases h
  | succ n ih =>
    have hview : Record.schedulerPart.view r = w.session.scheduler :=
      congrArg Session.scheduler ht.session
    rcases turn_cases w.session.scheduler deadline with
      ⟨t, htop, hd, hc⟩ | ⟨t, htop, hd, hc⟩ | hidle
    · rw [Chronicle.advanceTo_dropped n htop hd hc] at h
      rw [Scheduler.advanceTo_dropped n (by rw [hview]; exact htop) hd hc, hview]
      have hdropped := ht.idle (.dropped t.serial)
        { w.session.scheduler with queue := w.session.scheduler.rest } w.running fun _ => rfl
      refine ih ?_ (allModest_rest hm htop rfl) hdropped h
      exact hw
    · rw [Chronicle.advanceTo_started n htop hd hc] at h
      obtain ⟨_, u, hran, h⟩ := bind_ok_inv h
      obtain ⟨before, v, hrest, h⟩ := bind_ok_inv h
      cases h
      have hmodest := hm.top htop hc
      obtain ⟨u', hran', hmeek, -⟩ := bears_task m hmodest (w.entered (.started t.serial t.due)
        ⟨{ w.session.scheduler with now := t.due, queue := w.session.scheduler.rest }, w.running⟩)
      cases hran.symm.trans hran'
      obtain ⟨r₁, hcall, htold⟩ := ht.start t w.session.scheduler.rest hran hmeek
      obtain ⟨hleft, r', hrecord, htold'⟩ := ih (hmeek.running.trans hw)
        (hmeek.modest (allModest_rest hm htop rfl)) htold hrest
      refine ⟨hleft, r', ?_, htold'⟩
      rw [Scheduler.advanceTo_started n (by rw [hview]; exact htop) hd hc, hview, bind_ok hcall]
      exact bind_ok hrecord
    · rw [Chronicle.advanceTo_arrived n hidle] at h
      cases h
      rw [Scheduler.advanceTo_arrived n (by rw [hview]; exact hidle), hview]
      exact ⟨hm, _, rfl, ht.idle _ _ _ fun _ => rfl⟩

/-- And so do the rounds. -/
theorem told_runAll {bound : Nat} (rounds : Nat) {w w' : Chronicle τ σ} {r : Record τ σ} {ran : Nat}
    (hm : AllModest w.session.scheduler) (ht : Told base w r)
    (h : Chronicle.runAll (runTask m) bound rounds w = .ok ran w') :
    ∃ r', runAll Record.schedulerPart (Record.call (m + 1)) bound rounds r = .ok ran r' ∧
      Told base w' r' := by
  induction rounds generalizing w r ran with
  | zero => cases h
  | succ n ih =>
    have hview : Record.schedulerPart.view r = w.session.scheduler :=
      congrArg Session.scheduler ht.session
    cases htop : w.session.scheduler.queue.top? with
    | none =>
      rw [Chronicle.runAll_idle bound n htop] at h
      cases h
      exact ⟨r, Scheduler.runAll_idle bound n (by rw [hview]; exact htop), ht⟩
    | some t =>
      rw [Chronicle.runAll_next bound n htop] at h
      obtain ⟨before, u, hround, h⟩ := bind_ok_inv h
      obtain ⟨after, v, hrest, h⟩ := bind_ok_inv h
      cases h
      let deadline := w.session.scheduler.now + max (t.due - w.session.scheduler.now) 0
      let start := w.entered (.began deadline) ⟨w.session.scheduler, deadline :: w.running⟩
      have hrunning : start.running = deadline :: w.running := rfl
      have hbegan : Told base start r := by
        refine ⟨ht.session, ?_⟩
        change _ = (base.after (w.log ++ [_])).started.map dueOf
        rw [Tally.after_concat]
        exact ht.calls
      have hloop : Chronicle.advanceTo (runTask m) deadline bound start = .ok before u :=
        of_orBroken_ok hround
      obtain ⟨hleft, r₁, hadvance, htold⟩ := told_advanceTo bound hrunning hm hbegan hloop
      obtain ⟨r', hrecord, htold'⟩ := ih hleft htold hrest
      refine ⟨r', ?_, htold'⟩
      have hadvance' : Scheduler.advance Record.schedulerPart (Record.call (m + 1)) bound
          (max (t.due - (Record.schedulerPart.view r).now) 0) r = .ok before r₁ := by
        rw [hview]
        change Scheduler.advanceTo _ _ ((Record.schedulerPart.view r).now + _) bound r = _
        rw [hview]
        exact hadvance
      rw [Scheduler.runAll_next bound n (by rw [hview]; exact htop), bind_ok hadvance']
      exact bind_ok hrecord

end

/-! ## One advance for all rounds -/

section

variable {τ σ : Type} [AddCommGroup τ] [LinearOrder τ] {m : Nat}

/-- No call is taken back. -/
theorem calls_leading {deadline : τ} (n : Nat) {w r : Record τ σ} {ran : Nat}
    (h : advanceTo Record.schedulerPart (Record.call m) deadline n w = .ok ran r) :
    w.calls <+: r.calls := by
  induction n generalizing w ran with
  | zero => cases h
  | succ n ih =>
    rcases turn_cases (Record.schedulerPart.view w) deadline with
      ⟨t, ht, hd, hc⟩ | ⟨t, ht, hd, hc⟩ | hidle
    · rw [Scheduler.advanceTo_dropped n ht hd hc] at h
      have hrest := ih h
      exact hrest
    · rw [Scheduler.advanceTo_started n ht hd hc] at h
      obtain ⟨_, u, hcall, h⟩ := bind_ok_inv h
      obtain ⟨_, u', hrest, h⟩ := bind_ok_inv h
      cases h
      have hcalls := calls_of_call hcall
      exact (List.prefix_append _ _).trans (hcalls ▸ ih hrest)
    · rw [Scheduler.advanceTo_arrived n hidle] at h
      cases h
      exact List.prefix_rfl

/-- If all that waits is due after a time, and no call has been made after that time in the end,
none is made. -/
theorem quiet_of_late {deadline later : τ} (n : Nat) {w r : Record τ σ} {ran : Nat}
    (h : advanceTo Record.schedulerPart (Record.call m) later n w = .ok ran r)
    (hlate : ∀ t ∈ w.session.scheduler.queue.toList, deadline < t.due)
    (hearly : ∀ c ∈ r.calls, c.1 ≤ deadline) :
    ran = 0 ∧ r.calls = w.calls ∧ r.session.host = w.session.host := by
  induction n generalizing w ran with
  | zero => cases h
  | succ n ih =>
    rcases turn_cases (Record.schedulerPart.view w) later with
      ⟨t, ht, hd, hc⟩ | ⟨t, ht, hd, hc⟩ | hidle
    · rw [Scheduler.advanceTo_dropped n ht hd hc] at h
      have hrest := ih h fun u hu => hlate u ((Heap.toList_pop Task.before ht).subset
        (List.mem_cons_of_mem t hu))
      exact hrest
    · exfalso
      rw [Scheduler.advanceTo_started n ht hd hc] at h
      obtain ⟨_, u, hcall, h⟩ := bind_ok_inv h
      obtain ⟨_, u', hrest, h⟩ := bind_ok_inv h
      cases h
      have hcalled : (t.due, t.payload) ∈ u.calls := by
        rw [calls_of_call hcall]
        exact List.mem_append_right _ List.mem_cons_self
      have htop := hlate t ((Heap.toList_pop Task.before ht).subset List.mem_cons_self)
      exact absurd htop (not_lt_of_ge (hearly _ ((calls_leading n hrest).subset hcalled)))
    · rw [Scheduler.advanceTo_arrived n hidle] at h
      cases h
      exact ⟨rfl, rfl, rfl⟩

variable [IsOrderedAddMonoid τ]

/-- Commands leave a scheduler sane. -/
theorem sane_exec {w v : Session τ σ} (hsane : Sane w.scheduler) {bound : Nat} (c : Command τ)
    (callback : c.Input → Program (interface τ) σ) {a : c.Answer}
    (h : Session.exec (Session.run m) bound c callback w = .ok a v) : Sane v.scheduler := by
  have hplain := logs_exec (logs_run m) bound c callback { session := w }
  have hkeeps := recording_exec (recording_run m) bound c callback { session := w }
  rw [h] at hplain
  cases hr : Chronicle.exec (Chronicle.run m) bound c callback { session := w } with
  | ok b u =>
    rw [hr] at hplain
    cases hplain
    obtain ⟨-, more, -, hpath⟩ := hkeeps.good hr
    exact Sane.path (u := Chronicle.stage { session := w }) hsane hpath
  | error f u =>
    rw [hr] at hplain
    cases hplain

/-- An advance that goes as far as the last call makes all the calls that the rounds make. -/
theorem advance_of_runAll {w : Session τ σ} (hsane : Sane w.scheduler) {bound rounds ran : Nat}
    {r : Record τ σ}
    (h : runAll Record.schedulerPart (Record.call m) bound rounds { session := w } = .ok ran r)
    {ms : τ} (hlast : ∀ c ∈ r.calls, c.1 ≤ w.scheduler.now + ms) :
    ∃ enough w', w'.host = r.session.host ∧ ∀ bound ≥ enough,
      Record.advance m bound ms { session := w } =
        .ok ran { session := w', calls := r.calls } := by
  -- The advance goes on to the end of the rounds, if that is later, and makes no call on the way.
  let deadline := w.scheduler.now + ms
  let later := max deadline r.session.scheduler.now
  obtain ⟨n, hall⟩ := runAll_advanceTo Record.lawful_schedulerPart rounds h
    (le_max_right deadline r.session.scheduler.now)
  have htwo := (advanceTo_onward Record.lawful_schedulerPart
    (le_max_left deadline r.session.scheduler.now) (le_refl n) _).ok hall
  obtain ⟨before, u, hfirst, htwo⟩ := bind_ok_inv htwo
  obtain ⟨after, v, hsecond, hend⟩ := bind_ok_inv htwo
  cases hend
  have hadvance : Record.advance m n ms { session := w } = .ok before u := hfirst
  have hsession := projects_advance m n ms { session := w }
  rw [hadvance] at hsession
  have hleft : ∀ t ∈ u.session.scheduler.queue.toList, deadline < t.due :=
    (sane_exec hsane (.advance ms) _ hsession.symm).none_due
      (idle_of_advanceTo Record.lawful_schedulerPart n hfirst)
  obtain ⟨rfl, hcalls, hhost⟩ := quiet_of_late n hsecond hleft hlast
  have hu : u = { session := u.session, calls := r.calls } :=
    congrArg (Record.mk u.session) hcalls.symm
  refine ⟨n, u.session, hhost.symm, fun bound hb => ?_⟩
  rw [← hu]
  exact ShortOf.ok (guarded_advanceTo_le hb _) hfirst

end

/-! ## All that waits -/

/-- Has all been run that waited or was submitted meanwhile, so many tasks? -/
structure RanAll {τ ψ : Type} [LinearOrder τ] (s s' : Scheduler τ ψ) (ran : Nat)
    (log : List (Entry τ ψ)) : Prop where
  /-- What has started is what waited or was submitted, without what was cancelled before, -/
  all : ∀ r, r ∈ ((Tally.of s).after log).started ↔
    r ∈ ((Tally.of s).after log).submitted ∧ r ∉ ((Tally.of s).after log).cancelled
  /-- each task once, and in order, -/
  inOrder : ((Tally.of s).after log).started.Pairwise (· < ·)
  count : ((Tally.of s).after log).started.length = ran
  /-- and nothing waits. -/
  empty : s'.queue.toList = []

section

variable {τ σ : Type} [AddCommGroup τ] [LinearOrder τ] [IsOrderedAddMonoid τ]

theorem Cleared.ranAll {w w' : Chronicle τ σ} {ran : Nat}
    {more : List (Entry τ (Program (interface τ) σ))} (h : Cleared w w' ran more)
    (hw : w.running = []) (hsane : Sane w.session.scheduler) :
    RanAll w.session.scheduler w'.session.scheduler ran more := by
  have hconserved : Conserved ((Tally.of w.session.scheduler).after more) w'.session.scheduler :=
    (Conserved.of_sane hsane).path h.path
  have hempty := Heap.toList_of_no_top h.empty
  have hconditions := hconserved.conditions
  unfold waiting at hconditions
  rw [hempty] at hconditions
  refine ⟨fun r => ⟨hconserved.begun, fun ⟨hr, hlive⟩ => ?_⟩, ?_, ?_, hempty⟩
  · exact (List.mem_append.mp (hconditions.subset hr)).resolve_right hlive
  · have hrunning : (w.session.scheduler.now :: w.running).Pairwise (· ≤ ·) := by
      rw [hw]
      exact List.pairwise_singleton _ _
    exact (Forward.path (s := w.stage) hrunning hsane h.path h.unhurried).starts
  · rw [Tally.length_started_after, h.count]
    exact Nat.zero_add ran

/-- From every state that a host leads a new scheduler to, to run all that waits comes to its end if
all tasks are modest. Then nothing waits. All that waited or was submitted has started, unless it
was cancelled before its turn, each task once and in the order of due times and submissions, and
their number is told. An advance makes the same calls at the same times if it goes as far as the
last of them. That a task submits more and more without end need not be ruled out, for programs are
finite. -/
theorem running_all_that_waits_empties_the_queue (n : ℕ) (p : Program (interface τ) σ) (host : σ)
    {w : Session τ σ} (hw : Run.ending (Session.run n p ⟨.empty, host⟩) = w)
    (hm : AllModest w.scheduler) (m : ℕ) :
    (∀ bound, Logs (Chronicle.exec (Chronicle.run (m + 1)) bound .runAll nofun)
      (Session.exec (Session.run (m + 1)) bound .runAll nofun : Run (Session τ σ) ℕ)) ∧
    (∀ bound, Projects Record.session (Record.runAll (m + 1) bound)
      (Session.exec (Session.run (m + 1)) bound .runAll nofun : Run (Session τ σ) ℕ)) ∧
    (∀ bound ms, Projects Record.session (Record.advance (m + 1) bound ms)
      (Session.exec (Session.run (m + 1)) bound (.advance ms) nofun : Run (Session τ σ) ℕ)) ∧
    ∃ (ran : ℕ) (w' : Session τ σ) (log : List (Entry τ (Program (interface τ) σ)))
      (calls : List (τ × Program (interface τ) σ)),
      (∃ enough, ∀ bound ≥ enough,
        Chronicle.exec (Chronicle.run (m + 1)) bound .runAll nofun { session := w } =
          .ok ran { session := w', log } ∧
        Record.runAll (m + 1) bound { session := w } = .ok ran { session := w', calls }) ∧
      RanAll w.scheduler w'.scheduler ran log ∧
      calls.map (·.1) = ((Tally.of w.scheduler).after log).started.map dueOf ∧
      ∀ ms, (∀ c ∈ calls, c.1 ≤ w.scheduler.now + ms) →
        ∃ enough w'', w''.host = w'.host ∧ ∀ bound ≥ enough,
          Record.advance (m + 1) bound ms { session := w } =
            .ok ran { session := w'', calls } := by
  have hsane : Sane w.scheduler := hw ▸ sane_run n p host
  obtain ⟨enough, ran, v, more, hcleared, hends⟩ :=
    runAll_ends m (w := { session := w }) rfl hm hsane
  have htold : Told (Tally.of w.scheduler) { session := w } { session := w } := ⟨rfl, rfl⟩
  obtain ⟨⟨session, calls⟩, hrecord, ⟨rfl, hcalls⟩⟩ :=
    told_runAll enough hm htold (hends enough le_rfl enough le_rfl)
  have hv : v = { session := v.session, log := more } := by
    obtain ⟨session, running, log⟩ := v
    cases hcleared.running
    exact congrArg (Chronicle.mk session []) hcleared.log
  have hlog : v.log = more := hcleared.log
  refine ⟨fun bound => logs_exec (logs_run (m + 1)) bound .runAll nofun,
    projects_runAll (m + 1), projects_advance (m + 1), ran, v.session, more, calls,
    ⟨enough, fun bound hb => ⟨?_, ?_⟩⟩, hcleared.ranAll rfl hsane, hlog ▸ hcalls,
    fun ms hlast => ?_⟩
  · rw [← hv]
    exact hends bound hb bound hb
  · exact ShortOf.ok (guarded_runAll_le hb hb _) hrecord
  · exact advance_of_runAll hsane hrecord hlast

end

/-- The second errand is cancelled, and the three others run in the end. An advance of nine runs
them as well. -/
theorem three_errands_are_run :
    ∃ w : Session ℤ Unit, Run.ending (Session.run 9 errands ⟨.empty, ()⟩) = w ∧
      AllModest w.scheduler ∧
      ∃ (w' : Session ℤ Unit) (log : _) (calls : List (ℤ × Program (interface ℤ) Unit)),
        calls.map (·.1) = [5, 7, 9] ∧ RanAll w.scheduler w'.scheduler 3 log ∧
        (∃ enough, ∀ bound ≥ enough,
          Record.runAll 9 bound { session := w } = .ok 3 { session := w', calls }) ∧
        ∃ enough w'', w''.host = w'.host ∧ ∀ bound ≥ enough,
          Record.advance 9 bound 9 { session := w } = .ok 3 { session := w'', calls } := by
  have hruns : (Session.run 9 errands).yields ⟨.empty, ()⟩ (fun _ w =>
      w.scheduler.now = 0 && (Record.runAll 9 9).yields { session := w } fun ran r =>
        ran = 3 && r.calls.map (·.1) = [5, 7, 9]) = true := by decide +kernel
  obtain ⟨_, w, hw, hrest⟩ := Run.yields_ok hruns
  rw [Bool.and_eq_true, decide_eq_true_eq] at hrest
  obtain ⟨hnow, hall⟩ := hrest
  obtain ⟨ran, r, hr, hcalls⟩ := Run.yields_ok hall
  simp only [Bool.and_eq_true, decide_eq_true_eq] at hcalls
  obtain ⟨rfl, hcalls⟩ := hcalls
  have hending : Run.ending (Session.run 9 errands ⟨.empty, ()⟩) = w := by rw [hw]; rfl
  have hmodest := allModest_of_run modest_errands hw
  obtain ⟨-, -, -, ran, w', log, calls, ⟨enough, hends⟩, hranAll, -, hadvance⟩ :=
    running_all_that_waits_empties_the_queue 9 errands () hending hmodest 8
  -- what came to its end with a bound of nine is what comes of any larger one
  have hlarge := ShortOf.ok (guarded_runAll_le (le_max_left 9 enough) (le_max_left 9 enough) _) hr
  cases ((hends _ (le_max_right 9 enough)).2).symm.trans hlarge
  refine ⟨w, hending, hmodest, w', log, calls, hcalls, hranAll,
    ⟨enough, fun bound hb => (hends bound hb).2⟩, hadvance 9 fun c hc => ?_⟩
  have htime := List.mem_map_of_mem (f := fun c : ℤ × Program (interface ℤ) Unit => c.1) hc
  rw [hcalls] at htime
  rw [hnow]
  simp only [List.mem_cons, List.not_mem_nil, or_false] at htime
  omega

end Switchboard.Scheduler
