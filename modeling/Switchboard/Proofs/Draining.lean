-- What one advance of the clock runs. Tasks may submit and cancel tasks while the advance runs what
-- is due, but neither fail nor advance the clock themselves. Then all that is due by the deadline
-- runs, each task when it is due and in the order of all tasks, and nothing else does.
import Mathlib.Algebra.Order.Group.Int
import Mathlib.Data.Int.ConditionallyCompleteOrder
import Switchboard.Proofs.Chronicle
import Switchboard.Proofs.Tally
namespace Switchboard.Scheduler

open Conduct Chronicle

/-! ## Modest tasks -/

/-- Does a program only submit and cancel tasks and look at the clock, without a fault, and is it so
with all that it submits? -/
def Modest {τ σ : Type} : Program (interface τ) σ → Prop
  | .done _ => True
  | .fail _ => False
  | .note _ next => ∀ s, Modest (next s)
  | .perform (.later _) task next => (∀ i, Modest (task i)) ∧ ∀ serial, Modest (next (.ok serial))
  | .perform (.cancel _) _ next => ∀ u, Modest (next (.ok u))
  | .perform .look _ next => ∀ answer, Modest (next (.ok answer))
  | .perform (.advance _) _ _ | .perform .runAll _ _ => False

/-- Are all tasks that wait modest? -/
def AllModest {τ σ : Type} (s : Scheduler τ (Program (interface τ) σ)) : Prop :=
  ∀ t ∈ s.waiting, Modest t.payload

/-- Is this a thing that a modest task does? -/
def Happening.isRequest {τ : Type} : Happening τ → Bool
  | .submitted .. | .cancelled _ | .looked => true
  | _ => false

def Happening.isStart {τ : Type} : Happening τ → Bool
  | .started .. => true
  | _ => false

/-- Does this belong to the advance that is under way, and neither end it nor begin another? -/
def Happening.isInner {τ : Type} : Happening τ → Bool
  | .began _ | .arrived _ | .broken _ => false
  | _ => true

theorem Happening.isInner_of_isRequest {τ : Type} {what : Happening τ}
    (h : what.isRequest = true) : what.isInner = true := by
  cases what with
  | submitted serial due => rfl
  | cancelled serial => rfl
  | looked => rfl
  | _ => cases h

theorem Happening.isStart_of_isRequest {τ : Type} {what : Happening τ}
    (h : what.isRequest = true) : what.isStart = false := by
  cases what with
  | started serial due => cases h
  | _ => rfl

section

variable {τ σ : Type} [AddCommGroup τ] [LinearOrder τ]

/-- What a modest task leads to. -/
structure Meek (w w' : Chronicle τ σ) : Prop where
  records : ∃ more, w'.log = w.log ++ more ∧ Path w.stage more w'.stage ∧
    ∀ e ∈ more, e.what.isRequest = true
  running : w'.running = w.running
  modest : AllModest w.session.scheduler → AllModest w'.session.scheduler

theorem Meek.refl (w : Chronicle τ σ) : Meek w w :=
  ⟨⟨[], (List.append_nil _).symm, .nil, fun _ he => (List.not_mem_nil he).elim⟩, rfl, id⟩

theorem Meek.trans {w u w' : Chronicle τ σ} (h : Meek w u) (h' : Meek u w') : Meek w w' := by
  obtain ⟨more, hlog, hpath, hrequests⟩ := h.records
  obtain ⟨rest, hlog', hpath', hrequests'⟩ := h'.records
  refine ⟨⟨more ++ rest, by rw [hlog', hlog, List.append_assoc], hpath.append hpath', ?_⟩,
    h'.running.trans h.running, h'.modest ∘ h.modest⟩
  intro e he
  rcases List.mem_append.mp he with he | he
  · exact hrequests e he
  · exact hrequests' e he

theorem meek_entered {w : Chronicle τ σ} {what : Happening τ}
    {s : Scheduler τ (Program (interface τ) σ)} (h : Step w.stage what ⟨s, w.running⟩)
    (hrequest : what.isRequest = true) (hm : AllModest w.session.scheduler → AllModest s) :
    Meek w (w.entered what ⟨s, w.running⟩) := by
  refine ⟨⟨_, rfl, .single h, fun e he => ?_⟩, rfl, hm⟩
  cases List.mem_singleton.mp he
  exact hrequest

/-- Does a computation end, unless its bound is reached, and lead to what a modest task does? -/
def Calm {α : Type} (act : Run (Chronicle τ σ) α) (w : Chronicle τ σ) : Prop :=
  match act w with
  | .ok _ w' => Meek w w'
  | .error f _ => f = .exhausted

theorem Calm.after {α : Type} {act rest : Run (Chronicle τ σ) α} {w u : Chronicle τ σ}
    (hr : act w = rest u) (hw : Meek w u) (h : Calm rest u) : Calm act w := by
  unfold Calm at h ⊢
  rw [hr]
  cases hend : rest u with
  | ok a w' =>
    rw [hend] at h
    exact hw.trans h
  | error f w' =>
    rw [hend] at h
    exact h

/-- A command that succeeds is not seen to fail. -/
theorem calm_perform {α β : Type} {act : Run (Chronicle τ σ) α}
    {next : Except Fault α → Run (Chronicle τ σ) β} {w u : Chronicle τ σ} {a : α}
    (hr : act w = .ok a u) (hw : Meek w u) (hn : Calm (next (.ok a)) u) :
    Calm (act.outcome >>= next) w := .after (bind_ok (outcome_ok hr)) hw hn

theorem allModest_later {s : Scheduler τ (Program (interface τ) σ)} (hs : AllModest s) (delay : τ)
    {task : Program (interface τ) σ} (ht : Modest task) : AllModest (s.later delay task).2 := by
  intro t hmem
  rcases List.mem_cons.mp ((waiting_later s delay task).subset hmem) with rfl | hmem
  · exact ht
  · exact hs t hmem

/-- A run of a modest program is calm. -/
theorem calm_run (n : Nat) {p : Program (interface τ) σ} (hp : Modest p) (w : Chronicle τ σ) :
    Calm (Chronicle.run n p) w := by
  cases n with
  | zero => exact rfl
  | succ n =>
    change Calm (p.run hostPart (Chronicle.exec (Chronicle.run n) n)) w
    induction p generalizing w with
    | done result => exact Meek.refl w
    | fail f => exact hp.elim
    | note change next ih =>
      let u := hostPart.replace (change w.session.host) w
      have hnoted : Meek w u :=
        ⟨⟨[], (List.append_nil _).symm, .nil, fun _ he => (List.not_mem_nil he).elim⟩, rfl, id⟩
      exact .after (u := u) rfl hnoted (ih _ (hp _) u)
    | perform command task next _ ih =>
      cases command with
      | later delay =>
        exact calm_perform rfl (meek_entered (.submitted delay (task ())) rfl fun hs =>
          allModest_later hs delay (hp.1 ())) (ih _ (hp.2 _) _)
      | cancel serial =>
        exact calm_perform rfl (meek_entered (.cancelled serial) rfl fun hs t ht =>
          hs t (mem_waiting_cancel ht).1) (ih _ (hp ()) _)
      | look => exact calm_perform rfl (meek_entered .looked rfl id) (ih _ (hp _) _)
      | advance ms => exact hp.elim
      | runAll => exact hp.elim

/-- What a task answers is of no matter. -/
theorem calm_task (n : Nat) (p : Program (interface τ) σ) (hp : Modest p) (w : Chronicle τ σ) :
    Calm (do let _ ← Chronicle.run n p) w := by
  have hcalm := calm_run n hp w
  unfold Calm at hcalm ⊢
  cases hend : Chronicle.run n p w with
  | ok a w' =>
    rw [hend] at hcalm
    rw [bind_ok hend]
    exact hcalm
  | error f w' =>
    rw [hend] at hcalm
    rw [bind_error hend]
    exact hcalm

/-! ## The loop -/

/-- What happened from one chronicle to the other, when the advance that was under way has arrived:
other things that belong to it, so many starts of tasks among them. -/
structure Drained (deadline : τ) (w w' : Chronicle τ σ) (ran : Nat)
    (mid : List (Entry τ (Program (interface τ) σ))) (u : Stage τ (Program (interface τ) σ)) :
    Prop where
  log : w'.log = w.log ++ mid ++ [⟨.arrived deadline, w'.stage⟩]
  path : Path w.stage mid u
  arrived : Step u (.arrived deadline) w'.stage
  inner : ∀ e ∈ mid, e.what.isInner = true
  count : mid.countP (·.what.isStart) = ran

/-- Other things may have happened before. -/
theorem Drained.after {deadline : τ} {w v w' : Chronicle τ σ} {ran total : Nat}
    {mid more : List (Entry τ (Program (interface τ) σ))} {u : Stage τ (Program (interface τ) σ)}
    (h : Drained deadline v w' ran mid u) (hlog : v.log = w.log ++ more)
    (hpath : Path w.stage more v.stage) (hinner : ∀ e ∈ more, e.what.isInner = true)
    (htotal : more.countP (fun e => e.what.isStart) + ran = total) :
    Drained deadline w w' total (more ++ mid) u where
  log := by rw [h.log, hlog, List.append_assoc w.log]
  path := hpath.append h.path
  arrived := h.arrived
  inner e he := (List.mem_append.mp he).elim (hinner e) (h.inner e)
  count := by rw [List.countP_append, h.count, htotal]

/-- Has the loop of an advance drained the queue, unless its bound is reached? -/
def Drains (deadline : τ) (act : Run (Chronicle τ σ) Nat) (w : Chronicle τ σ) : Prop :=
  match act w with
  | .ok ran w' => ∃ mid u, Drained deadline w w' ran mid u
  | .error f _ => f = .exhausted

theorem Drains.after {deadline : τ} {w v : Chronicle τ σ} {act rest : Run (Chronicle τ σ) Nat}
    {more : List (Entry τ (Program (interface τ) σ))} {k : Nat} (h : Drains deadline rest v)
    (hok : ∀ ran w', rest v = .ok ran w' → act w = .ok (ran + k) w')
    (herror : ∀ f w', rest v = .error f w' → act w = .error f w')
    (hlog : v.log = w.log ++ more) (hpath : Path w.stage more v.stage)
    (hinner : ∀ e ∈ more, e.what.isInner = true)
    (hcount : more.countP (fun e => e.what.isStart) = k) : Drains deadline act w := by
  unfold Drains at h ⊢
  cases hend : rest v with
  | ok ran w' =>
    rw [hend] at h
    obtain ⟨mid, u, hdrained⟩ := h
    rw [hok ran w' hend]
    exact ⟨more ++ mid, u, hdrained.after hlog hpath hinner (by rw [hcount, Nat.add_comm])⟩
  | error f w' =>
    rw [hend] at h
    rw [herror f w' hend]
    exact h

omit [AddCommGroup τ] in
theorem allModest_rest {s s' : Scheduler τ (Program (interface τ) σ)}
    {t : Task τ (Program (interface τ) σ)} (hs : AllModest s) (ht : s.queue.top? = some t)
    (hq : s'.queue = s.rest) : AllModest s' := by
  intro t' hmem
  unfold waiting at hmem
  rw [hq] at hmem
  obtain ⟨hleft, hlive⟩ := List.mem_filter.mp hmem
  have hwaits := (Heap.toList_pop Task.before ht).subset (List.mem_cons_of_mem t hleft)
  exact hs t' (List.mem_filter.mpr ⟨hwaits, hlive⟩)

/-- By induction on the bound: what comes next is let go or started, or nothing is due. -/
theorem drains {fire : Program (interface τ) σ → Run (Chronicle τ σ) Unit}
    (hf : ∀ p, Modest p → ∀ w, Calm (fire p) w) {deadline : τ} {outer : List τ} (n : Nat)
    {w : Chronicle τ σ} (hw : w.running = deadline :: outer)
    (hm : AllModest w.session.scheduler) :
    Drains deadline (Chronicle.advanceTo fire deadline n) w := by
  induction n generalizing w with
  | zero => exact rfl
  | succ n ih =>
    obtain ⟨t, s, ht, hq, hs, hr⟩ | ⟨t, s, ht, hc, hq, hs, hr⟩ | ⟨s, hs, hr⟩ :=
      advanceTo_turn n hw
    · have hrest := ih (w := w.entered (.dropped t.serial) ⟨s, w.running⟩) hw
        (allModest_rest hm ht hq)
      refine hrest.after (k := 0) (fun _ _ h => hr.trans h) (fun _ _ h => hr.trans h) rfl
        (.single hs) (fun e he => ?_) rfl
      cases List.mem_singleton.mp he
      rfl
    · have hcalm := hf t.payload
        (hm t ((waiting_rest_of_live ht hc hq).subset List.mem_cons_self))
        (w.entered (.started t.serial t.due) ⟨s, w.running⟩)
      unfold Calm at hcalm
      cases hfire : fire t.payload (w.entered (.started t.serial t.due) ⟨s, w.running⟩) with
      | error f u =>
        rw [hfire] at hcalm
        unfold Drains
        rw [hr, bind_error hfire]
        exact hcalm
      | ok a u =>
        rw [hfire] at hcalm
        rw [bind_ok hfire] at hr
        obtain ⟨more, hlog, hpath, hrequests⟩ := hcalm.records
        have hrest := ih (hcalm.running.trans hw) (hcalm.modest (allModest_rest hm ht hq))
        have hquiet : more.countP (fun e => e.what.isStart) = 0 :=
          List.countP_eq_zero.mpr fun e he =>
            Bool.not_eq_true _ ▸ Happening.isStart_of_isRequest (hrequests e he)
        refine hrest.after (k := 1) (fun ran w' h => hr.trans (bind_ok h))
          (fun f w' h => hr.trans (bind_error h)) (hlog.trans (List.append_assoc ..))
          ((Path.single hs).append hpath) (fun e he => ?_) ?_
        · rcases List.mem_cons.mp he with rfl | he
          · rfl
          · exact Happening.isInner_of_isRequest (hrequests e he)
        · rw [List.singleton_append, List.countP_cons_of_pos rfl, hquiet]
    · unfold Drains
      rw [hr]
      refine ⟨[], w.stage, by rw [List.append_nil]; rfl, .nil, hs, ?_, rfl⟩
      exact fun _ he => (List.not_mem_nil he).elim

end

/-! ## What was run -/

section

variable {τ ψ : Type} [LinearOrder τ]

/-- When the task that started last was due, or another time if none has started. -/
def Tally.latest (a : Tally τ) (now : τ) : τ := (a.started.getLast?.map dueOf).getD now

theorem Tally.length_started_after (a : Tally τ) (log : List (Entry τ ψ)) :
    (a.after log).started.length =
      a.started.length + log.countP (fun e => e.what.isStart) := by
  induction log generalizing a with
  | nil => rfl
  | cons e log ih =>
    change ((a.enter e.what).after log).started.length = _
    rw [ih, List.countP_cons]
    obtain ⟨what, v⟩ := e
    cases what with
    | started serial due =>
      change (a.started ++ [toLex (due, serial)]).length + _ = _ + (_ + 1)
      rw [List.length_append, List.length_singleton, Nat.add_assoc, Nat.add_comm 1]
    | _ => rfl

/-- Where things belong to an advance only, the clock shows when the last task was due, and tasks
start between the time it showed at first and the deadline. -/
structure Within (deadline : τ) (s : Stage τ ψ) (log : List (Entry τ ψ)) (v : Stage τ ψ) :
    Prop where
  running : v.running = s.running
  now : v.scheduler.now = ((Tally.of s.scheduler).after log).latest s.scheduler.now
  forward : s.scheduler.now ≤ v.scheduler.now
  starts : ∀ r ∈ ((Tally.of s.scheduler).after log).started,
    s.scheduler.now ≤ dueOf r ∧ dueOf r ≤ deadline

variable {deadline : τ} {outer : List τ} {s u v : Stage τ ψ} {log : List (Entry τ ψ)}

/-- Nothing changes for the clock if no task starts. -/
theorem Within.idle {what : Happening τ} (h : Within deadline s log u)
    (hrunning : v.running = u.running) (hnow : v.scheduler.now = u.scheduler.now)
    (hstarted : (((Tally.of s.scheduler).after log).enter what).started =
      ((Tally.of s.scheduler).after log).started) :
    Within deadline s (log ++ [⟨what, v⟩]) v := by
  have hsame : ((Tally.of s.scheduler).after (log ++ [⟨what, v⟩])).started =
      ((Tally.of s.scheduler).after log).started := by
    rw [Tally.after_concat]
    exact hstarted
  refine ⟨hrunning.trans h.running, ?_, hnow ▸ h.forward, hsame ▸ h.starts⟩
  unfold Tally.latest
  rw [hsame]
  exact hnow.trans h.now

/-- What belongs to one advance begins no other. -/
theorem unhurried_of_inner (hinner : ∀ e ∈ log, e.what.isInner = true) : Unhurried log := by
  intro e he
  have hwhat := hinner e he
  unfold Entry.Unhurried
  split
  · rename_i d hbegan
    rw [hbegan] at hwhat
    cases hwhat
  · trivial

theorem Path.within [AddCommGroup τ] [IsOrderedAddMonoid τ] (hsane : Sane s.scheduler)
    (hrunning : s.running = deadline :: outer) (hp : Path s log v)
    (hinner : ∀ e ∈ log, e.what.isInner = true) : Within deadline s log v := by
  induction hp with
  | nil => exact ⟨rfl, rfl, le_refl _, fun _ hr => (List.not_mem_nil hr).elim⟩
  | @snoc log u v what hp hs ih =>
    have hu := ih fun e he => hinner e (List.mem_append_left _ he)
    have hwhat := hinner ⟨what, v⟩ (List.mem_append_right _ List.mem_cons_self)
    cases hs with
    | submitted delay payload => exact hu.idle rfl rfl rfl
    | cancelled serial => exact hu.idle rfl rfl rfl
    | looked => exact hu.idle rfl rfl rfl
    | dropped ht hd hc => exact hu.idle rfl rfl rfl
    | @started s₁ deadline₁ outer₁ t ht hd hc =>
      have hahead : s₁.now ≤ t.due := (hsane.path hp).due t
        ((Heap.toList_pop Task.before ht).subset List.mem_cons_self)
      have hdeadline : deadline₁ = deadline := (List.cons.inj (hu.running.trans hrunning)).1
      have hfrom : s.scheduler.now ≤ t.due := hu.forward.trans hahead
      refine ⟨hu.running, ?_, hfrom, fun r hr => ?_⟩
      · rw [Tally.after_concat]
        unfold Tally.latest Tally.enter
        rw [List.getLast?_concat]
        rfl
      · rw [Tally.after_concat] at hr
        rcases List.mem_append.mp hr with hr | hr
        · exact hu.starts r hr
        · cases List.mem_singleton.mp hr
          exact ⟨hfrom, hdeadline ▸ hd⟩
    | began d => cases hwhat
    | arrived hnext => cases hwhat
    | broken => cases hwhat

end

/-- Has an advance run exactly what was due, so many tasks? -/
structure RanWhatWasDue {τ ψ : Type} [LinearOrder τ] (deadline : τ) (s s' : Scheduler τ ψ)
    (ran : Nat) (mid : List (Entry τ ψ)) : Prop where
  /-- What has started is what was due of all that waited or was submitted meanwhile, without what
  was cancelled before, -/
  due : ∀ r, r ∈ ((Tally.of s).after mid).started ↔ r ∈ ((Tally.of s).after mid).submitted ∧
    dueOf r ≤ deadline ∧ r ∉ ((Tally.of s).after mid).cancelled
  /-- each task once, and in order, -/
  inOrder : ((Tally.of s).after mid).started.Pairwise (· < ·)
  count : ((Tally.of s).after mid).started.length = ran
  /-- and the clock shows when the running task is due. -/
  clock : ∀ pre e, pre ++ [e] <+: mid →
    e.after.scheduler.now = ((Tally.of s).after (pre ++ [e])).latest s.now
  now : s'.now = deadline
  left : ∀ t ∈ s'.queue.toList, deadline < t.due

section

variable {τ σ : Type} [AddCommGroup τ] [LinearOrder τ] [IsOrderedAddMonoid τ]

theorem Drained.ranWhatWasDue {deadline : τ} {w w' : Chronicle τ σ} {ran : Nat}
    {mid : List (Entry τ (Program (interface τ) σ))} {u : Stage τ (Program (interface τ) σ)}
    (h : Drained deadline w w' ran mid u) (hw : w.running = [deadline])
    (hsane : Sane w.session.scheduler) :
    RanWhatWasDue deadline w.session.scheduler w'.session.scheduler ran mid := by
  have hwithin := h.path.within hsane hw h.inner
  have hconserved : Conserved ((Tally.of w.session.scheduler).after mid) u.scheduler :=
    (Conserved.of_sane hsane).path h.path
  obtain ⟨hnext, hend, -⟩ := h.arrived.of_arrived
  have hended : w'.session.scheduler = { u.scheduler with now := deadline } := hend
  refine ⟨fun r => ⟨fun hr => ?_, fun ⟨hr, hdue, hlive⟩ => ?_⟩, ?_, ?_, fun pre e hpre => ?_, ?_, ?_⟩
  · obtain ⟨hsubmitted, hlive⟩ := hconserved.begun hr
    exact ⟨hsubmitted, (hwithin.starts r hr).2, hlive⟩
  · exact (hconserved.settled (hsane.path h.path) h.arrived r hr hdue).resolve_right hlive
  · -- A deadline that has passed is not reached by any start.
    by_cases hahead : w.session.scheduler.now ≤ deadline
    · have hrunning : (w.session.scheduler.now :: w.running).Pairwise (· ≤ ·) := by
        rw [hw]
        exact List.pairwise_pair.mpr hahead
      exact (Forward.path hrunning hsane h.path (unhurried_of_inner h.inner)).starts
    · have hnone : ((Tally.of w.session.scheduler).after mid).started = [] :=
        List.eq_nil_iff_forall_not_mem.mpr fun r hr =>
          hahead ((hwithin.starts r hr).1.trans (hwithin.starts r hr).2)
      rw [hnone]
      exact List.Pairwise.nil
  · rw [Tally.length_started_after, h.count]
    exact Nat.zero_add ran
  · obtain ⟨v, hv⟩ := h.path.upTo hpre
    have hbefore := hv.within hsane hw fun e he => h.inner e (hpre.subset he)
    rw [hv.last.1] at hbefore
    exact hbefore.now
  · rw [hended]
  · rw [hended]
    exact (hsane.path h.path).none_due hnext

/-- The advance is over then. -/
theorem Drained.over {deadline : τ} {w w' : Chronicle τ σ} {ran : Nat}
    {mid : List (Entry τ (Program (interface τ) σ))} {u : Stage τ (Program (interface τ) σ)}
    (h : Drained deadline w w' ran mid u) (hw : w.running = [deadline])
    (hsane : Sane w.session.scheduler) : w'.running = [] := by
  have hrunning : u.running = [deadline] := (h.path.within hsane hw h.inner).running.trans hw
  rw [h.arrived.of_arrived.2.2] at hrunning
  exact (List.cons.inj hrunning).2

/-- From every state that a host leads a new scheduler to, an advance runs exactly what is due, if it
ends and all tasks that wait are modest; and only its bound can keep it from its end. -/
theorem one_advance_runs_exactly_what_is_due (n : Nat) (p : Program (interface τ) σ) (host : σ)
    {w : Session τ σ} (hw : Run.ending (Session.run n p ⟨.empty, host⟩) = w)
    (hm : AllModest w.scheduler) (m bound : Nat) (ms : τ) :
    let deadline := w.scheduler.now + ms
    match Session.exec (Session.run m) bound (.advance ms) nofun w with
    | .ok ran w' => ∃ mid,
      Chronicle.exec (Chronicle.run m) bound (.advance ms) nofun { session := w } =
        .ok ran
          { session := w'
            log := ⟨.began deadline, ⟨w.scheduler, [deadline]⟩⟩ :: mid ++
              [⟨.arrived deadline, ⟨w'.scheduler, []⟩⟩] } ∧
      RanWhatWasDue deadline w.scheduler w'.scheduler ran mid
    | .error f _ => f = .exhausted := by
  intro deadline
  have hsane : Sane w.scheduler := hw ▸ sane_run n p host
  have hlogs := logs_exec (logs_run m) bound (.advance ms) nofun { session := w }
  let u : Chronicle τ σ := Chronicle.entered { session := w } (.began deadline)
    ⟨w.scheduler, [deadline]⟩
  have hdrains := drains (calm_task m) bound (w := u) rfl hm
  have hrun : Chronicle.exec (Chronicle.run m) bound (.advance ms) nofun { session := w } =
      orBroken deadline (Chronicle.advanceTo (fun task => do let _ ← Chronicle.run m task)
        deadline bound) u := rfl
  rw [← hlogs, hrun]
  unfold Drains at hdrains
  unfold orBroken
  cases hend : Chronicle.advanceTo (fun task => do let _ ← Chronicle.run m task) deadline bound u with
  | error f w' =>
    rw [hend] at hdrains
    exact hdrains
  | ok ran w' =>
    rw [hend] at hdrains
    obtain ⟨mid, v, hdrained⟩ := hdrains
    refine ⟨mid, ?_, hdrained.ranWhatWasDue rfl hsane⟩
    obtain ⟨session, running, log⟩ := w'
    cases hdrained.over rfl hsane
    exact congrArg (fun l => EStateM.Result.ok ran (Chronicle.mk session [] l)) hdrained.log

end

/-- Three tasks. The first one submits another, and cancels the second. -/
def errands : Program (interface ℤ) Unit :=
  .ask (.later 5)
    (fun _ => .ask (.later 2) (fun _ => .done .null) fun _ =>
      .ask (.cancel 1) nofun fun _ => .done .null)
    fun _ => .ask (.later 6) (fun _ => .done .null) fun _ =>
      .ask (.later 9) (fun _ => .done .null) fun _ => .done .null

theorem modest_errands : Modest errands :=
  ⟨fun _ => ⟨fun _ => trivial, fun _ _ => trivial⟩,
    fun _ => ⟨fun _ => trivial, fun _ => ⟨fun _ => trivial, fun _ => trivial⟩⟩⟩

/-- The first task and the one that it submits are due within eight. -/
theorem two_errands_are_due :
    ∃ w : Session ℤ Unit, Run.ending (Session.run 9 errands ⟨.empty, ()⟩) = w ∧
      AllModest w.scheduler ∧
      ∃ (ran : ℕ) (w' : Session ℤ Unit) (mid : _), ran = 2 ∧
        Session.exec (Session.run 9) 9 (.advance (8 : ℤ)) nofun w = .ok ran w' ∧
        RanWhatWasDue (w.scheduler.now + 8) w.scheduler w'.scheduler ran mid := by
  have hruns : (Chronicle.run 9 errands).yields { session := ⟨.empty, ()⟩ } (fun _ u =>
      Run.yields (Session.exec (Session.run 9) 9 (.advance (8 : ℤ)) nofun) u.session
        (fun (ran : ℕ) _ => ran = 2)) = true := by decide +kernel
  obtain ⟨_, u, hu, hadvances⟩ := Run.yields_ok hruns
  obtain ⟨(ran : ℕ), w', hrun, htwo⟩ := Run.yields_ok hadvances
  have hplain := logs_run 9 errands { session := ⟨.empty, ()⟩ }
  have hcalm := calm_run 9 modest_errands { session := ⟨.empty, ()⟩ }
  unfold Calm at hcalm
  rw [hu] at hcalm hplain
  have hw : Run.ending (Session.run 9 errands ⟨.empty, ()⟩) = u.session :=
    congrArg Run.ending hplain.symm
  have hmodest : AllModest u.session.scheduler :=
    hcalm.modest fun _ ht => (List.not_mem_nil ht).elim
  have hexact := one_advance_runs_exactly_what_is_due 9 errands () hw hmodest 9 9 8
  dsimp only at hexact
  split at hexact
  · rename_i ran₁ w₁ hok
    cases hrun.symm.trans hok
    obtain ⟨mid, -, hexactly⟩ := hexact
    exact ⟨u.session, hw, hmodest, ran, w', mid, of_decide_eq_true htwo, hrun, hexactly⟩
  · rename_i f w₁ herror
    cases hrun.symm.trans herror

end Switchboard.Scheduler
