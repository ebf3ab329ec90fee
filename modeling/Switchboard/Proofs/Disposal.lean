-- What is left of a manager that was disposed of. It hears of nothing, nothing waits, and whatever
-- the host goes on to do with it, it does as a manager would that knows neither transactions nor
-- assignments: it stores what is new of a patch, and moves a clock on which there is nothing to
-- start. It can be set up again with controls, assignments and listeners, but none comes into play.
import Switchboard.Proofs.Bookkeeping
namespace Switchboard

/-- Store a value under a key, unless it is strictly the one that is there. -/
def Store.keep {κ : Type} (store : Store κ) (e : Scalar × Value) : Store κ :=
  if (store.read e.1).strictEquals e.2 then store
  else { store with
    state := store.state.put e.1 e.2
    history := store.history ++ [⟨e.1, store.read e.1, e.2⟩] }

theorem Store.listeners_keep {κ : Type} (entries : List (Scalar × Value)) (store : Store κ) :
    (entries.foldl Store.keep store).listeners = store.listeners := by
  induction entries generalizing store with
  | nil => rfl
  | cons e rest ih =>
    refine (ih (store.keep e)).trans ?_
    unfold Store.keep
    split <;> rfl

namespace Manager

open World Conduct

variable {σ : Type}

/-! ## A manager that only stores -/

/-- Store what a patch brings, in its order. Before that the account of changes is begun anew. -/
def keeping (patch : Except Fault (List (Scalar × Value))) : Run (World σ) Unit := do
  modify fun w => { w with changes := {} }
  let entries ← .ofExcept patch
  modify fun w => { w with store := entries.foldl Store.keep w.store }

/-- What a command does to a manager that only stores. There is no task that could start when its
clock moves, and no timer to run. What is left is what neither writes nor lets time go by. -/
def restingExec (functions : Functions σ) (below : Level σ) (bound : Nat) :
    (c : Command) → (c.Input → Act σ) → Run (World σ) c.Answer
  | .setState patch, _ => keeping (Store.patchOf patch)
  | .setValue control value, _ =>
    if control.isWritable then keeping (do return [(← control.storage.asKey, value)])
    else .ofExcept (do .error (.notWritable (← control.id.written)))
  | .advance ms, _ => do
    let ms ← .ofExcept ms.toSpan
    Scheduler.advance schedulerPart (fun _ => throw .exhausted) bound ms
  | .runAll, _ => Scheduler.runAll schedulerPart (fun _ => throw .exhausted) bound bound
  | .runTimer _, _ => throw .badValue
  | c, callback => exec functions below bound c callback

theorem restingExec_other {functions : Functions σ} {below : Level σ} {bound : Nat} {c : Command}
    (hc : c.isWrite = false) (callback : c.Input → Act σ) :
    restingExec functions below bound c callback = exec functions below bound c callback := by
  cases c with
  | setState _ | setValue _ _ | advance _ | runAll | runTimer _ => cases hc
  | _ => rfl

/-- The levels of a manager that only stores and is tested whenever the host gets to see it. No
assignment writes. -/
def restingLevel (functions : Functions σ) (test : World σ → Bool) : Nat → Level σ
  | 0 => level functions 0
  | n + 1 =>
    let below := restingLevel functions test n
    let obey (c : Command) (callback : c.Input → Act σ) : Run (World σ) c.Answer :=
      tested test (restingExec functions below n c callback)
    ⟨fun p => tested test (p.run hostPart obey), fun _ _ => throw .exhausted⟩

/-! ## Inert managers -/

/-- Is there nothing that a manager could follow up or start, and nothing told but these events? -/
structure Inert (events : List Event) (w : World σ) : Prop where
  unheard : w.store.listeners = []
  closed : w.inTransaction = false
  pending : w.pending = []
  waiting : w.clock.scheduler.waiting = []
  events : w.events = events

/-- Does a command run a timer of an event loop? -/
def Command.isTimer : Command → Bool
  | runTimer _ => true
  | _ => false

/-- Does a program leave timers to the event loop, if this manager has one? -/
def LeavesTimers (start : World σ) (p : Act σ) : Prop :=
  (∃ timers, start.clock = .loop timers) → Refrains Command.isTimer p

/-- What stays so of a manager that was disposed of in this world. -/
structure Retired (start w : World σ) : Prop where
  inert : Inert start.events w
  admitted : EffectsAdmitted (LeavesTimers start) w.signals
  clock : (∃ s, w.clock = .virtual s) ∨ ∃ timers, start.clock = .loop timers

namespace Retired

variable {start w w' : World σ}

/-- What deals with none of what matters here may be done. -/
theorem aside (h : Retired start w) (hstore : w'.store = w.store)
    (hopen : w'.inTransaction = w.inTransaction) (hpending : w'.pending = w.pending)
    (hclock : w'.clock = w.clock) (hevents : w'.events = w.events)
    (hsignals : w'.signals = w.signals) : Retired start w' where
  inert := by
    obtain ⟨hunheard, hclosed, hnone, hwaiting, hold⟩ := h.inert
    refine ⟨?_, hopen.trans hclosed, hpending.trans hnone, ?_, hevents.trans hold⟩
    · rwa [hstore]
    · rwa [hclock]
  admitted := by rw [hsignals]; exact h.admitted
  clock := by rw [hclock]; exact h.clock

theorem signalled (h : Retired start w) {signals : Signals (Value → Act σ)}
    (hs : EffectsAdmitted (LeavesTimers start) signals) :
    Retired start { w with signals := signals } := by
  obtain ⟨hunheard, hclosed, hnone, hwaiting, hold⟩ := h.inert
  exact ⟨⟨hunheard, hclosed, hnone, hwaiting, hold⟩, hs, h.clock⟩

/-- To store is not to listen. -/
theorem stored (h : Retired start w) (entries : List (Scalar × Value)) : Retired start
    { w with changes := {}, store := entries.foldl Store.keep w.store } := by
  obtain ⟨hunheard, hclosed, hnone, hwaiting, hold⟩ := h.inert
  exact ⟨⟨(Store.listeners_keep entries w.store).trans hunheard, hclosed, hnone, hwaiting, hold⟩,
    h.admitted, h.clock⟩

/-- The clock may move, since nothing begins to wait. -/
theorem ticked (h : Retired start w) {s : Scheduler Binary64 Deferral} (hs : s.waiting = []) :
    Retired start (schedulerPart.replace s w) := by
  obtain ⟨hunheard, hclosed, hnone, -, hold⟩ := h.inert
  have hclock : (w.clock.setScheduler s).scheduler.waiting = [] := by
    cases w.clock with
    | virtual _ => exact hs
    | loop _ => rfl
  refine ⟨⟨hunheard, hclosed, hnone, hclock, hold⟩, h.admitted, h.clock.imp_left ?_⟩
  rintro ⟨s', hs'⟩
  refine ⟨s, ?_⟩
  change w.clock.setScheduler s = _
  rw [hs']
  rfl

/-- To dispose of it once more changes nothing that matters. -/
theorem disposed (h : Retired start w) : Retired start w.dispose := by
  have hclock : w.dispose.clock = w.clock := by
    change w.pending.foldl (fun clock p => clock.cancel p.handle) w.clock = _
    rw [h.inert.pending]
    rfl
  refine ⟨⟨rfl, h.inert.closed, rfl, ?_, h.inert.events⟩, h.admitted, ?_⟩
  · rw [hclock]
    exact h.inert.waiting
  · rw [hclock]
    exact h.clock

end Retired

/-! ## What is done to it -/

/-- A manager as it is, or one that only stores, with the test that it is put to. -/
def managed (functions : Functions σ) (n : Nat) (i : Bool × (World σ → Bool)) : Level σ :=
  if i.1 then restingLevel functions i.2 n else testedLevel functions i.2 n

/-- What a command does to the one and to the other. -/
def obeyed (functions : Functions σ) (n bound : Nat) (i : Bool × (World σ → Bool)) (c : Command)
    (callback : c.Input → Act σ) : Run (World σ) c.Answer :=
  if i.1 then restingExec functions (managed functions n i) bound c callback
  else exec functions (managed functions n i) bound c callback

theorem managed_zero (functions : Functions σ) (i : Bool × (World σ → Bool)) (p : Act σ) :
    (managed functions 0 i).act p = throw .exhausted := by
  obtain ⟨_ | _, test⟩ := i <;> rfl

theorem managed_succ (functions : Functions σ) (n : Nat) (i : Bool × (World σ → Bool))
    (p : Act σ) : (managed functions (n + 1) i).act p = tested i.2
      (p.run hostPart fun c callback => tested i.2 (obeyed functions n n i c callback)) := by
  obtain ⟨_ | _, test⟩ := i <;> rfl

theorem obeyed_other (functions : Functions σ) (n bound : Nat) (i : Bool × (World σ → Bool))
    {c : Command} (hc : c.isWrite = false) (callback : c.Input → Act σ) :
    obeyed functions n bound i c callback =
      exec functions (managed functions n i) bound c callback := by
  obtain ⟨_ | _, test⟩ := i
  · rfl
  · exact restingExec_other hc callback

/-- The law that both do the same with a manager that was disposed of in this world, which stays so,
under all tests that are then passed. -/
abbrev resting (start : World σ) : Law (Bool × (World σ → Bool)) (World σ) :=
  agreeing (fun i => Passed (Retired start) i.2) (Retired start)

section

variable {start : World σ}

theorem resting_regime : Regime (resting start) (LeavesTimers start) where
  sees _ hn := agrees_sees fun w hw => hn w hw.admitted
  attempt := agrees_attempt
  signals hs := agrees_modify fun _ hw => hw.signalled (hs _ hw.admitted)
  computing _ := agrees_modify fun _ hw => hw.aside rfl rfl rfl rfl rfl rfl
  computed _ := agrees_ensuring fun _ hw => hw.aside rfl rfl rfl rfl rfl rfl
  subscribed _ := agrees_modify fun _ hw => hw.aside rfl rfl rfl rfl rfl rfl
  connected _ := agrees_modify fun _ hw => hw.aside rfl rfl rfl rfl rfl rfl
  unsubscribed _ := agrees_modify fun _ hw => hw.aside rfl rfl rfl rfl rfl rfl
  control _ _ := agrees_modify fun _ hw => hw.aside rfl rfl rfl rfl rfl rfl
  assignment _ _ _ := agrees_modify fun _ hw => hw.aside rfl rfl rfl rfl rfl rfl
  dispose := agrees_modify fun _ hw => hw.disposed

theorem resting_admits : Regime.Admits (resting start) (LeavesTimers start) where
  fail _ := agrees_throw _
  note _ := agrees_modify fun _ hw => hw.aside rfl rfl rfl rfl rfl rfl
  noted h s hl := h hl s
  callback h a hl := (h hl).2.1 a
  next h r _ hl := (h hl).2.2 r

/-! ## Patches -/

/-- Nobody hears of what is written. -/
theorem writePatch_unheard (functions : Functions σ) (below : Level σ)
    (entries : List (Scalar × Value)) {w : World σ} (h : w.store.listeners = []) :
    writePatch functions below entries w =
      .ok () { w with store := entries.foldl Store.keep w.store } := by
  induction entries generalizing w with
  | nil => rfl
  | cons e rest ih =>
    have hwrite : writeKey functions below e.1 e.2 w =
        .ok () { w with store := w.store.keep e } := by
      rw [writeKey_unheard h]
      unfold Store.keep
      split <;> rfl
    exact (bind_ok hwrite).trans (ih ((Store.listeners_keep [e] w.store).trans h))

/-- A transaction that stores a patch does no more. -/
theorem resting_transaction (functions : Functions σ) (n : Nat)
    (patch : Except Fault (List (Scalar × Value))) : (resting start).holds fun i =>
      if i.1 then keeping patch
      else transaction functions (managed functions n i) false
        (Run.ofExcept patch >>= writePatch functions (managed functions n i)) := by
  intro w hw
  obtain ⟨hunheard, hclosed, -⟩ := hw.inert
  cases patch with
  | error f =>
    refine ⟨.error f { w with changes := {} }, ?_, hw.stored []⟩
    rintro ⟨_ | _, test⟩ -
    · have hfault : (Run.ofExcept (.error f) >>=
          writePatch functions (managed functions n (false, test)) : Run (World σ) Unit)
            { w with changes := {}, inTransaction := true } =
          .error f { w with changes := {}, inTransaction := true } := rfl
      refine (transaction_eq hclosed).trans ?_
      rw [hfault, hclosed]
    · rfl
  | ok entries =>
    refine ⟨.ok () { w with changes := {}, store := entries.foldl Store.keep w.store }, ?_,
      hw.stored entries⟩
    rintro ⟨_ | _, test⟩ -
    · have hstored := writePatch_unheard functions (managed functions n (false, test)) entries
        (w := { w with changes := {}, inTransaction := true }) hunheard
      refine (transaction_empty hclosed hstored rfl).trans ?_
      rw [hclosed]
    · rfl

/-! ## The clock -/

namespace Retired

variable {w : World σ} {t : Task Binary64 Deferral}

theorem passed (h : Retired start w) (now : Binary64) : Retired start (w.passed now) :=
  h.ticked h.inert.waiting

theorem dropped (h : Retired start w) (ht : w.clock.scheduler.queue.top? = some t)
    (hc : t.cancelled = true) : Retired start w.dropped := by
  have hleft : ({ w.clock.scheduler with queue := w.clock.scheduler.rest } :
      Scheduler Binary64 Deferral).waiting.Perm w.clock.scheduler.waiting :=
    Scheduler.waiting_rest_of_cancelled ht hc rfl
  rw [h.inert.waiting] at hleft
  exact h.ticked (List.perm_nil.mp hleft)

/-- A task that is still in the queue was cancelled, so none starts. -/
theorem cancelled (h : Retired start w) (ht : w.clock.scheduler.queue.top? = some t) :
    t.cancelled = true := by
  by_contra hc
  have hwaits : (t :: ({ w.clock.scheduler with queue := w.clock.scheduler.rest } :
      Scheduler Binary64 Deferral).waiting).Perm w.clock.scheduler.waiting :=
    Scheduler.waiting_rest_of_live ht (Bool.eq_false_iff.mpr hc) rfl
  rw [h.inert.waiting] at hwaits
  cases List.perm_nil.mp hwaits

end Retired

variable {fires : Bool × (World σ → Bool) → Deferral → Run (World σ) Unit}

theorem resting_advanceTo (deadline : Binary64) (bound : Nat) : (resting start).holds fun i =>
    Scheduler.advanceTo schedulerPart (fires i) deadline bound :=
  agrees_advanceTo (fun now hw => hw.passed now) (fun hw ht hc => hw.dropped ht hc)
    (fun hw ht hc => absurd (hw.cancelled ht) (Bool.eq_false_iff.mp hc)) deadline bound

theorem resting_runAll (bound rounds : Nat) : (resting start).holds fun i =>
    Scheduler.runAll schedulerPart (fires i) bound rounds :=
  agrees_runAll (fun now hw => hw.passed now) (fun hw ht hc => hw.dropped ht hc)
    (fun hw ht hc => absurd (hw.cancelled ht) (Bool.eq_false_iff.mp hc)) bound rounds

/-! ## Commands -/

section

variable {functions : Functions σ} {n : Nat}

/-- A value of a control is a patch of one entry. -/
theorem resting_setValue (control : Control) (value : Value) (bound : Nat)
    (callback : (Command.setValue control value).Input → Act σ) : (resting start).holds fun i =>
      obeyed functions n bound i (.setValue control value) callback := by
  cases hw : control.isWritable with
  | false =>
    have hrefused : ∀ i, obeyed functions n bound i (.setValue control value) callback =
        .ofExcept (do .error (.notWritable (← control.id.written))) := by
      rintro ⟨_ | _, test⟩ <;> exact if_neg (Bool.eq_false_iff.mp hw)
    simp only [hrefused]
    exact agrees_ofExcept _
  | true =>
    have hwrites : ∀ i, obeyed functions n bound i (.setValue control value) callback =
        if i.1 then keeping (do return [(← control.storage.asKey, value)])
        else transaction functions (managed functions n i) false
          (Run.ofExcept (do return [(← control.storage.asKey, value)]) >>=
            writePatch functions (managed functions n i)) := by
      rintro ⟨_ | _, test⟩
      · refine (if_pos hw).trans (congrArg _ ?_)
        cases control.storage.asKey with
        | error f => rfl
        | ok key => exact (bind_pure_unit (x := writeKey functions _ key value)).symm
      · exact if_pos hw
    simp only [hwrites]
    exact resting_transaction functions n _

/-- A timer of an event loop is left to the loop, and a virtual clock has none. -/
theorem resting_runTimer {number : Nat} {callback : (Command.runTimer number).Input → Act σ}
    {next : Except Fault (Command.runTimer number).Answer → Act σ}
    (h : LeavesTimers start (.perform (.runTimer number) callback next)) (bound : Nat) :
    (resting start).holds fun i => obeyed functions n bound i (.runTimer number) callback := by
  intro w hw
  rcases hw.clock with hvirtual | hloop
  · refine ⟨.error .badValue w, ?_, hw⟩
    rintro ⟨_ | _, test⟩ -
    · exact runTimer_virtual hvirtual bound callback
    · rfl
  · cases (h hloop).1

theorem resting_obeyed
    (hf : ∀ name identity args, LeavesTimers start (functions name identity args))
    (hact : ∀ {p}, LeavesTimers start p →
      (resting start).holds fun i => (managed functions n i).act p)
    {c : Command} {callback : c.Input → Act σ} {next : Except Fault c.Answer → Act σ}
    (h : LeavesTimers start (.perform c callback next)) (bound : Nat) :
    (resting start).holds fun i => obeyed functions n bound i c callback := by
  have hcalls := resting_admits.callback h
  cases hc : c.isWrite with
  | false =>
    have hserves : Serves (resting start) functions (managed functions n) :=
      agrees_serves (fun _ hw => hw.aside rfl rfl rfl rfl rfl rfl)
        (fun _ hw => hw.aside rfl rfl rfl rfl rfl rfl) fun _ _ _ => hact (hf _ _ _)
    simp only [obeyed_other functions n bound _ hc callback]
    exact resting_regime.exec hserves (fun _ => bound) hc hcalls fun a => hact (hcalls a)
  | true =>
    cases c with
    | setState patch => exact resting_transaction functions n (Store.patchOf patch)
    | setValue control value => exact resting_setValue control value bound callback
    | advance ms =>
      have hadvance : ∀ i, obeyed functions n bound i (.advance ms) callback =
          (Run.ofExcept ms.toSpan >>= Scheduler.advance schedulerPart
            (if i.1 then fun _ => throw .exhausted else fire functions (managed functions n i))
            bound : Run (World σ) Nat) := by
        rintro ⟨_ | _, test⟩ <;> rfl
      simp only [hadvance]
      refine (resting start).bind (agrees_ofExcept _) fun span w hw => ?_
      exact resting_advanceTo _ bound w hw
    | runAll =>
      have hrunAll : ∀ i, obeyed functions n bound i .runAll callback =
          (Scheduler.runAll schedulerPart
            (if i.1 then fun _ => throw .exhausted else fire functions (managed functions n i))
            bound bound : Run (World σ) Nat) := by
        rintro ⟨_ | _, test⟩ <;> rfl
      simp only [hrunAll]
      exact resting_runAll bound bound
    | runTimer number => exact resting_runTimer h bound
    | _ => cases hc

end

/-! ## Programs -/

theorem resting_level {functions : Functions σ}
    (hf : ∀ name identity args, LeavesTimers start (functions name identity args)) (n : Nat)
    {p : Act σ} (hp : LeavesTimers start p) :
    (resting start).holds fun i => (managed functions n i).act p := by
  induction n generalizing p with
  | zero =>
    simp only [managed_zero]
    exact agrees_throw _
  | succ n ih =>
    simp only [managed_succ]
    refine agrees_tested (fun _ hi => hi) ?_
    refine resting_regime.program resting_admits (fun {c callback next} h _ hnext => ?_) hp
    exact agrees_attempt (agrees_tested (fun _ hi => hi) (resting_obeyed hf ih h n)) hnext

/-- A program does with a manager that was disposed of what it does with one that only stores. -/
theorem Retired.does {functions : Functions σ}
    (hf : ∀ name identity args, LeavesTimers start (functions name identity args)) {w : World σ}
    (h : Retired start w) (bound : Nat) {program : Act σ} (hp : LeavesTimers start program) :
    (∀ test, Passed (Retired start) test → run functions bound program w =
      (restingLevel functions test bound).act program w) ∧
    Retired start (Run.ending (run functions bound program w)) := by
  obtain ⟨r, hsame, hr⟩ := resting_level hf bound hp w h
  have hrun : run functions bound program w = r := by
    have huntested := hsame (false, fun _ => true) fun _ _ => rfl
    change (testedLevel functions (fun _ => true) bound).act program w = r at huntested
    rwa [testedLevel_untested] at huntested
  rw [hrun]
  exact ⟨fun test ht => (hsame (true, test) ht).symm, hr⟩

end

/-! ## After a dispose -/

theorem Clocked.rested {functions : Functions σ} {w : World σ} (h : Clocked functions w) :
    Rested functions w := by
  induction h with
  | new _ _ hcreate => exact .new hcreate
  | @command n bound c callback w _ ih =>
    cases hr : exec functions (level functions n) bound c callback w with
    | ok a w' => exact .done ih hr
    | error f w' => exact .failed ih hr
  | host host _ ih => exact .host host ih

/-- A virtual clock has no timers that could be run. -/
theorem Clocked.leavesTimers {functions : Functions σ} {w : World σ} (h : Clocked functions w)
    (p : Act σ) : LeavesTimers w p := by
  rintro ⟨timers, hloop⟩
  obtain ⟨fates, hrecorded, -⟩ := h.accounted
  obtain ⟨s, hs⟩ := hrecorded.booked.virtual
  rw [hs] at hloop
  cases hloop

/-- A timer that is not cancelled in the end was not, and it is of none of these notes. -/
theorem cancel_timers (notes : List Pending) (timers : Timers Deferral) :
    ∃ timers', notes.foldl (fun clock p => clock.cancel p.handle) (.loop timers) =
      Clock.loop timers' ∧ ∀ (n : Nat) (timer : Timer Deferral), timers'[n]? = some timer →
        timer.cancelled = false → (∃ t, timers[n]? = some t ∧ t.cancelled = false) ∧
          ∀ p ∈ notes, n ≠ p.handle := by
  induction notes generalizing timers with
  | nil => exact ⟨timers, rfl, fun n t ht hc => ⟨⟨t, ht, hc⟩, fun _ hp => by cases hp⟩⟩
  | cons p rest ih =>
    obtain ⟨timers', hclock, hleft⟩ := ih (timers.cancel p.handle)
    refine ⟨timers', hclock, fun n timer ht hc => ?_⟩
    obtain ⟨⟨t, hwas, hlive⟩, hrest⟩ := hleft n timer ht hc
    unfold Timers.cancel at hwas
    rw [List.getElem?_modify] at hwas
    obtain ⟨t', ht', rfl⟩ := Option.map_eq_some_iff.mp hwas
    by_cases hn : p.handle = n
    · rw [if_pos hn] at hlive
      cases hlive
    · rw [if_neg hn] at hlive
      exact ⟨⟨t', ht', hlive⟩, List.forall_mem_cons.mpr ⟨Ne.symm hn, hrest⟩⟩

/-- What was pending on an event loop is cancelled, so the loop does not run it. -/
theorem dispose_timers {w : World σ} {timers : Timers Deferral} (h : w.clock = .loop timers) :
    ∃ timers', w.dispose.clock = .loop timers' ∧
      ∀ p ∈ w.pending, ∀ timer, timers'[p.handle]? = some timer → timer.cancelled = true := by
  obtain ⟨timers', hclock, hleft⟩ := cancel_timers w.pending timers
  rw [← h] at hclock
  refine ⟨timers', hclock, fun p hp timer ht => ?_⟩
  by_contra hc
  exact (hleft p.handle timer ht (Bool.eq_false_iff.mpr hc)).2 p hp rfl

/-- A manager at rest that has its clock to itself. -/
def Alone (functions : Functions σ) (w : World σ) : Prop :=
  Clocked functions w ∨ Rested functions w ∧ ∃ timers, w.clock = .loop timers

theorem retired_dispose {functions : Functions σ} {w : World σ} (h : Alone functions w)
    (he : EffectsAdmitted (LeavesTimers w) w.signals) : Retired w w.dispose := by
  rcases h with h | ⟨h, timers, hloop⟩
  · obtain ⟨fates, hrecorded, -⟩ := h.accounted
    have hbooked := hrecorded.booked.disposed
    have hnone := List.map_eq_nil_iff.mp (List.nil_perm.mp hbooked.waiting)
    exact ⟨⟨rfl, h.rested.idle.1, rfl, hnone, rfl⟩, he, .inl hbooked.virtual⟩
  · obtain ⟨timers', hclock, -⟩ := dispose_timers hloop
    refine ⟨⟨rfl, h.idle.1, rfl, ?_, rfl⟩, he, .inr ⟨timers, hloop⟩⟩
    rw [hclock]
    rfl

/-- What becomes of a manager that was disposed of in this world, by programs of the host that leave
timers to the event loop, however each of them ended. -/
inductive Outlived (functions : Functions σ) (start : World σ) : World σ → Prop
  | disposed : Outlived functions start start.dispose
  | program {bound : Nat} {program : Act σ} {w : World σ} : Outlived functions start w →
    LeavesTimers start program →
    Outlived functions start (Run.ending (run functions bound program w))

theorem Outlived.retired {functions : Functions σ} {start w : World σ}
    (hstart : Retired start start.dispose)
    (hf : ∀ name identity args, LeavesTimers start (functions name identity args))
    (h : Outlived functions start w) : Retired start w := by
  induction h with
  | disposed => exact hstart
  | program _ hp ih => exact (ih.does hf _ hp).2

/-- To dispose of a manager is final. Whatever the host then does with it, by programs that may call
each other, fail, set it up again and dispose of it again, it does as one would that has neither
transactions nor assignments: of a patch it stores what is new, in order, and when its clock moves
nothing starts. Whenever the host gets to see it, and in the end, nothing is pending and no event
has been told since. What was pending on an event loop is cancelled there. -/
theorem a_manager_that_was_disposed_of_only_stores (functions : Functions σ) (w : World σ)
    (h : Alone functions w)
    (hf : ∀ name identity args, LeavesTimers w (functions name identity args))
    (he : EffectsAdmitted (LeavesTimers w) w.signals) :
    (∀ timers, w.clock = .loop timers → ∃ timers', w.dispose.clock = .loop timers' ∧
      ∀ p ∈ w.pending, ∀ timer, timers'[p.handle]? = some timer → timer.cancelled = true) ∧
    ∀ v, Outlived functions w v → Inert w.events v ∧
      ∀ bound program, LeavesTimers w program →
        ∀ test, (∀ u, Inert w.events u → test u = true) →
          run functions bound program v = (restingLevel functions test bound).act program v := by
  refine ⟨fun timers => dispose_timers, fun v hv => ?_⟩
  have hretired := hv.retired (retired_dispose h he) hf
  refine ⟨hretired.inert, fun bound program hp test htest => ?_⟩
  exact (hretired.does hf bound hp).1 test fun u hu => htest u hu.inert

/-- Dispose of the calendar again and set it up again, with someone to look. Then give it a date,
and run its clock. -/
def sequel : Act Unit :=
  .ask .dispose nofun fun _ =>
    .ask (.register reminding) nofun fun _ =>
      .ask .subscribe looking fun _ =>
        .ask (.setState (.map 2 [(.text "place", .null), (.text "date", .int 3)])) nofun fun _ =>
          .ask .runAll nofun fun (ran : Nat) => .done (.int ran)

/-- Two reminders are pending when the calendar is disposed of. Neither comes, nor does the one that
is registered later: only the new date is stored. -/
theorem no_reminder_outlives_the_calendar : calendar.pending.length = 2 ∧
    ∃ v, Outlived unaided calendar v ∧ Inert calendar.events v ∧
      v.assignments.keys = [.text "date"] ∧
      v.store.history.map (·.key) = [.text "date", .text "date", .text "date"] ∧
      ∀ test, (∀ u, Inert calendar.events u → test u = true) →
        run unaided 9 sequel calendar.dispose =
          (restingLevel unaided test 9).act sequel calendar.dispose := by
  have hleaves := calendar_clocked.leavesTimers
  obtain ⟨-, hfinal⟩ := a_manager_that_was_disposed_of_only_stores unaided calendar
    (.inl calendar_clocked) (fun _ _ _ => hleaves _) fun _ _ _ => hleaves _
  have hcome : Outlived unaided calendar (Run.ending (run unaided 9 sequel calendar.dispose)) :=
    .program .disposed (hleaves sequel)
  refine ⟨by decide +kernel, _, hcome, (hfinal _ hcome).1, by decide +kernel, by decide +kernel, ?_⟩
  exact (hfinal _ .disposed).2 9 sequel (hleaves sequel)

end Manager
end Switchboard
