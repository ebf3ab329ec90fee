-- That the account of deferrals is kept through every activity of a manager, by success and by
-- fault, and that it is in order whenever the host gets to see the manager. The host sees it when
-- one of its programs is started, and whenever a program gives a command: a manager that tests
-- itself at these moments, and breaks off if it fails the test, goes on as one that does not.
import Switchboard.Proofs.Aborted
import Switchboard.Proofs.Agreement
import Switchboard.Proofs.Regime
namespace Switchboard.Manager

open World Conduct

variable {ι σ α : Type}

/-! ## Tests -/

/-- Break off if a manager fails a test. No program can catch that. -/
def tested (test : World σ → Bool) (act : Run (World σ) α) : Run (World σ) α := do
  if test (← get) then act else throw .exhausted

/-- The levels of a manager that is tested whenever the host gets to see it. -/
def testedLevel (functions : Functions σ) (test : World σ → Bool) : Nat → Level σ
  | 0 => level functions 0
  | n + 1 =>
    let below := testedLevel functions test n
    let obey (c : Command) (callback : c.Input → Act σ) : Run (World σ) c.Answer :=
      tested test (exec functions below n c callback)
    ⟨fun p => tested test (p.run hostPart obey), writeKey functions below⟩

/-- Without a test they are those of every manager. -/
theorem testedLevel_untested (functions : Functions σ) (n : Nat) :
    testedLevel functions (fun _ => true) n = level functions n := by
  induction n with
  | zero => rfl
  | succ n ih =>
    unfold testedLevel level
    rw [ih]
    rfl

/-- Is a test one that all managers pass which are in a state of this kind? -/
def Passed (inv : World σ → Prop) (test : World σ → Bool) : Prop := ∀ w, inv w → test w = true

/-! ## What stays so while a virtual clock is kept -/

/-- Is a manager with a virtual clock of this kind still of it after whatever is done to the clock
and to what waits for it? -/
structure Abiding (inv : World σ → Prop) : Prop where
  virtual : ∀ {w}, inv w → ∃ s, w.clock = .virtual s
  aside : ∀ {w w' : World σ}, inv w → w.Timeless w' → inv w'
  deferred : ∀ {w} a delay, inv w → inv (w.deferred a delay)
  passed : ∀ {w} now, inv w → inv (w.passed now)
  dropped : ∀ {w t}, inv w → w.clock.scheduler.queue.top? = some t → t.cancelled = true →
    inv w.dropped
  launched : ∀ {w t}, inv w → w.clock.scheduler.queue.top? = some t → t.cancelled = false →
    inv (w.launched t)
  disposed : ∀ {w}, inv w → inv w.dispose

/-! ## What is the same under all tests -/

/-- Does a computation come to the same end under every test that is passed? -/
abbrev abiding (inv : World σ → Prop) : Law (World σ → Bool) (World σ) := agreeing (Passed inv) inv

/-- A test that is passed makes no difference. -/
theorem agrees_tested {fits : ι → Prop} {inv : World σ → Prop} {test : ι → World σ → Bool}
    (ht : ∀ i, fits i → Passed inv (test i)) {act : ι → Run (World σ) α}
    (h : (agreeing fits inv).holds act) :
    (agreeing fits inv).holds fun i => tested (test i) (act i) := by
  intro w hw
  have hget : (get : Run (World σ) (World σ)) w = .ok w w := rfl
  refine agreesAt_after (fun i hi => ?_) (h w hw)
  unfold tested
  rw [bind_ok hget, if_pos (ht i hi w hw)]

namespace Abiding

variable {inv : World σ → Prop} (hinv : Abiding inv)

include hinv

/-- What does not touch the clock, nor what waits for it, may be done. -/
theorem timeless {change : World σ → World σ} (h : ∀ w : World σ, w.Timeless (change w)) :
    (abiding inv).holds fun _ => (modify change : Run (World σ) Unit) :=
  agrees_modify fun w hw => hinv.aside hw (h w)

theorem ensuring {act : (World σ → Bool) → Run (World σ) α} {change : World σ → World σ}
    (hc : ∀ w : World σ, w.Timeless (change w)) (h : (abiding inv).holds act) :
    (abiding inv).holds fun test => (act test).ensuring change :=
  agrees_ensuring (fun w hw => hinv.aside hw (hc w)) h

/-! ## Evaluations and cascades -/

theorem defer (a : Assignment) : (abiding inv).holds fun _ => (defer a : Run (World σ) Unit) := by
  intro w hw
  cases hd : w.clock.delayOf a.timeout with
  | ok delay =>
    refine ⟨.ok () (w.deferred a delay), fun _ _ => (defer_eq a w).trans ?_,
      hinv.deferred a delay hw⟩
    rw [hd]
  | error f =>
    refine ⟨.error f w, fun _ _ => (defer_eq a w).trans ?_, hw⟩
    rw [hd]

theorem serves {functions : Functions σ} {below : (World σ → Bool) → Level σ}
    (hact : ∀ p, (abiding inv).holds fun test => (below test).act p) :
    Serves (abiding inv) functions below :=
  agrees_serves (fun _ hw => hinv.aside hw ⟨rfl, rfl, rfl⟩)
    (fun _ hw => hinv.aside hw ⟨rfl, rfl, rfl⟩) fun _ _ _ => hact _

theorem follows : Follows (abiding inv) where
  record _ := hinv.timeless fun _ => ⟨rfl, rfl, rfl⟩
  listening _ := agrees_sees fun _ _ => (abiding inv).answer _
  addTargets key assignments := by
    refine agrees_sees fun w _ => agrees_sees fun v _ => ?_
    exact (abiding inv).bind (hinv.timeless fun _ => ⟨rfl, rfl, rfl⟩) fun _ => agrees_ofExcept _
  defer := hinv.defer

/-! ## Registrations and signals -/

theorem regime : Regime (abiding inv) fun _ => True where
  sees _ hn := agrees_sees fun w _ => hn w fun _ _ _ => trivial
  attempt := agrees_attempt
  signals _ := hinv.timeless fun _ => ⟨rfl, rfl, rfl⟩
  computing _ := hinv.timeless fun _ => ⟨rfl, rfl, rfl⟩
  computed _ := hinv.ensuring fun _ => ⟨rfl, rfl, rfl⟩
  subscribed _ := hinv.timeless fun _ => ⟨rfl, rfl, rfl⟩
  connected _ := hinv.timeless fun _ => ⟨rfl, rfl, rfl⟩
  unsubscribed _ := hinv.timeless fun _ => ⟨rfl, rfl, rfl⟩
  control _ _ := hinv.timeless fun _ => ⟨rfl, rfl, rfl⟩
  assignment _ _ _ := hinv.timeless fun _ => ⟨rfl, rfl, rfl⟩
  dispose := agrees_modify fun _ hw => hinv.disposed hw

theorem admits : Regime.Admits (abiding inv) fun _ => True where
  fail _ := agrees_throw _
  note _ := hinv.timeless fun _ => ⟨rfl, rfl, rfl⟩
  noted _ _ := trivial
  callback _ _ := trivial
  next _ _ _ := trivial

end Abiding

/-- A virtual clock has no timers. -/
theorem runTimer_virtual {functions : Functions σ} {below : Level σ} {w : World σ}
    (h : ∃ s, w.clock = .virtual s) {number : Nat} (bound : Nat)
    (callback : (Command.runTimer number).Input → Act σ) :
    exec functions below bound (.runTimer number) callback w = .error .badValue w := by
  obtain ⟨s, hs⟩ := h
  have hnone : w.clock.timer? number = none := by rw [hs]; rfl
  refine (bind_ok rfl).trans ?_
  rw [hnone]
  rfl

/-- A level at which all that is nested abides. -/
structure Sheltered (inv : World σ → Prop) (below : (World σ → Bool) → Level σ) : Prop where
  kind : Abiding inv
  act : ∀ p, (abiding inv).holds fun test => (below test).act p
  write : ∀ key value, (abiding inv).holds fun test => (below test).write key value

namespace Sheltered

variable {functions : Functions σ} {inv : World σ → Prop} {below : (World σ → Bool) → Level σ}
  (h : Sheltered inv below)

include h

theorem applyAssignment (a : Assignment) :
    (abiding inv).holds fun test => applyAssignment functions (below test) a :=
  (h.kind.serves h.act).applyAssignment h.write a

theorem onChange (change : Change) :
    (abiding inv).holds fun test => onChange functions (below test) change := by
  refine (abiding inv).bind (h.kind.timeless fun _ => ⟨rfl, rfl, rfl⟩) fun _ => ?_
  refine h.kind.ensuring (fun _ => ⟨rfl, rfl, rfl⟩) ?_
  exact h.kind.follows.followUp agrees_checkDepth h.applyAssignment change

theorem writeKey (key : Scalar) (value : Value) :
    (abiding inv).holds fun test => writeKey functions (below test) key value := by
  intro w hw
  cases hs : (w.store.read key).strictEquals value with
  | true =>
    refine ⟨.ok () w, fun test _ => (writeKey_eq_forM w key value).trans ?_, hw⟩
    rw [hs]
    rfl
  | false =>
    have hheard : (abiding inv).holds fun test => (w.store.hearers key).forM fun _ =>
        Manager.onChange functions (below test) ⟨key, w.store.read key, value⟩ :=
      (abiding inv).forM _ fun _ _ => h.onChange _
    refine agreesAt_after (fun test _ => ?_)
      (hheard (w.stored key value) (h.kind.aside hw ⟨rfl, rfl, rfl⟩))
    rw [writeKey_eq_forM, hs]
    rfl

/-! ## Transactions -/

theorem deliver (l : Listener σ) (event : Event) :
    (abiding inv).holds fun test => deliver functions (below test) l event := by
  refine h.kind.regime.deliver (h.kind.serves h.act) (fun p _ => h.act p) ?_ event
  cases l with
  | host program => exact fun _ => trivial
  | bridge number => trivial

theorem transaction (delayed : Bool) {writes : (World σ → Bool) → Run (World σ) Unit}
    (hw : (abiding inv).holds writes) :
    (abiding inv).holds fun test => transaction functions (below test) delayed (writes test) := by
  have hgather : (abiding inv).holds fun test => gather delayed (writes test) :=
    (abiding inv).bind (h.kind.timeless fun _ => ⟨rfl, rfl, rfl⟩) fun _ =>
      (abiding inv).bind (h.kind.ensuring (fun _ => ⟨rfl, rfl, rfl⟩) hw) fun _ =>
        agrees_sees fun _ _ => (abiding inv).answer _
  refine agrees_sees fun w _ => ?_
  split
  · exact hw
  · refine (abiding inv).bind hgather fun event? => ?_
    cases event? with
    | none => exact (abiding inv).answer ()
    | some event =>
      exact (abiding inv).bind (h.kind.timeless fun _ => ⟨rfl, rfl, rfl⟩) fun _ =>
        agrees_sees fun w _ => (abiding inv).forM _ fun l _ => h.deliver l event

/-- A deferral that is due starts at once, and what it writes is a transaction. -/
theorem fire {w : World σ} {t : Task Binary64 Deferral} (hw : inv w)
    (ht : w.clock.scheduler.queue.top? = some t) (hc : t.cancelled = false) :
    AgreesAt (Passed inv) inv (fun test => fire functions (below test) t.payload)
      (schedulerPart.replace
        { w.clock.scheduler with now := t.due, queue := w.clock.scheduler.rest } w) :=
  h.transaction true (h.applyAssignment t.payload.assignment) _ (h.kind.launched hw ht hc)

/-! ## Commands -/

theorem setValue (control : Control) (value : Value) (bound : Nat)
    (callback : (Command.setValue control value).Input → Act σ) :
    (abiding inv).holds fun test =>
      exec functions (below test) bound (.setValue control value) callback := by
  have hset : (abiding inv).holds fun test => (do
      Manager.writeKey functions (below test) (← .ofExcept control.storage.asKey) value) :=
    (abiding inv).bind (agrees_ofExcept _) fun key => h.writeKey key value
  have hwrite : (abiding inv).holds fun test => (if control.isWritable then
        Manager.transaction functions (below test) false (do
          Manager.writeKey functions (below test) (← .ofExcept control.storage.asKey) value)
      else .ofExcept (do .error (.notWritable (← control.id.written)))) := by
    split
    · exact h.transaction false hset
    · exact agrees_ofExcept _
  exact hwrite

theorem exec (bound : Nat) (c : Command) (callback : c.Input → Act σ) :
    (abiding inv).holds fun test => exec functions (below test) bound c callback := by
  cases hc : c.isWrite with
  | false =>
    exact h.kind.regime.exec (h.kind.serves h.act) (fun _ => bound) hc (fun _ => trivial)
      fun _ => h.act _
  | true =>
    cases c with
    | setState patch =>
      refine h.transaction false ?_
      exact (abiding inv).bind (agrees_ofExcept _) fun entries =>
        (abiding inv).forM _ fun e _ => h.writeKey e.1 e.2
    | setValue control value => exact h.setValue control value bound callback
    | advance ms =>
      refine (abiding inv).bind (agrees_ofExcept _) fun span => ?_
      exact fun w hw => agrees_advanceTo h.kind.passed h.kind.dropped h.fire _ bound w hw
    | runAll => exact agrees_runAll h.kind.passed h.kind.dropped h.fire bound bound
    | runTimer number =>
      exact fun w hw => ⟨_, fun test _ => runTimer_virtual (h.kind.virtual hw) bound callback, hw⟩
    | _ => cases hc

end Sheltered

theorem sheltered {inv : World σ → Prop} (hinv : Abiding inv) (functions : Functions σ) (n : Nat) :
    Sheltered inv fun test => testedLevel functions test n := by
  induction n with
  | zero => exact ⟨hinv, fun _ => agrees_throw _, fun _ _ => agrees_throw _⟩
  | succ n ih =>
    refine ⟨hinv, fun p => agrees_tested (fun _ ht => ht) ?_, ih.writeKey⟩
    refine hinv.regime.program hinv.admits (fun {c callback next} _ _ hnext => ?_) trivial
    exact agrees_attempt (agrees_tested (fun _ ht => ht) (ih.exec n c callback)) hnext

/-- What abides under all tests does so without one. -/
theorem ending_of_abides {inv : World σ → Prop} (functions : Functions σ)
    (act : Level σ → Run (World σ) α) (n : Nat)
    (h : (abiding inv).holds fun test => act (testedLevel functions test n)) {w : World σ}
    (hw : inv w) : (∀ test, Passed inv test →
      act (testedLevel functions test n) w = act (level functions n) w) ∧
      inv (Run.ending (act (level functions n) w)) := by
  obtain ⟨r, hsame, hr⟩ := h w hw
  have huntested : act (level functions n) w = r := by
    rw [← testedLevel_untested functions n]
    exact hsame _ fun _ _ => rfl
  rw [huntested]
  exact ⟨hsame, hr⟩

/-! ## The account is kept -/

/-- Is an account carried on by another one? -/
structure Fates.Onward (a b : Fates) : Prop where
  deferred : a.deferred <+: b.deferred
  started : a.started <+: b.started
  cancelled : a.cancelled <+: b.cancelled

theorem Fates.Onward.refl (a : Fates) : a.Onward a :=
  ⟨List.prefix_refl _, List.prefix_refl _, List.prefix_refl _⟩

theorem Fates.Onward.trans {a b c : Fates} (h : a.Onward b) (h' : b.Onward c) : a.Onward c :=
  ⟨h.deferred.trans h'.deferred, h.started.trans h'.started, h.cancelled.trans h'.cancelled⟩

/-- Does an account of all deferrals carry on the one at the start? -/
def Accounted (start : Fates) (w : World σ) : Prop :=
  ∃ fates, Recorded w fates ∧ start.Onward fates

theorem abiding_accounted (start : Fates) : Abiding (Accounted start : World σ → Prop) where
  virtual := fun ⟨_, h, _⟩ => h.booked.virtual
  aside := fun ⟨fates, h, hon⟩ hw => ⟨fates, h.aside hw, hon⟩
  deferred := fun a delay ⟨_, h, hon⟩ => ⟨_, h.deferred a delay,
    hon.trans ⟨List.prefix_append _ _, List.prefix_refl _, List.prefix_refl _⟩⟩
  passed := fun now ⟨fates, h, hon⟩ => ⟨fates, h.passed now, hon⟩
  dropped := fun ⟨fates, h, hon⟩ ht hc => ⟨fates, h.dropped ht hc, hon⟩
  launched := fun ⟨_, h, hon⟩ ht hc => ⟨_, h.launched ht hc,
    hon.trans ⟨List.prefix_refl _, List.prefix_append _ _, List.prefix_refl _⟩⟩
  disposed := fun ⟨_, h, hon⟩ => ⟨_, h.disposed,
    hon.trans ⟨List.prefix_refl _, List.prefix_refl _, List.prefix_append _ _⟩⟩

/-- A manager with a virtual clock of its own, after commands of the host, however each of them
ended. -/
inductive Clocked (functions : Functions σ) : World σ → Prop
  | new {bound : Nat} {setup : Setup} {host : σ} {s : Scheduler Binary64 Deferral} {w : World σ} :
    setup.clock = .virtual s → s.queue = .empty →
    setup.create functions bound host = .ok w → Clocked functions w
  | command {n bound : Nat} {c : Command} {callback : c.Input → Act σ} {w : World σ} :
    Clocked functions w →
    Clocked functions (Run.ending (exec functions (level functions n) bound c callback w))
  /-- The host may do something of its own in between. -/
  | host {w : World σ} (host : σ) : Clocked functions w → Clocked functions { w with host := host }

theorem accounted_assignInitial (functions : Functions σ) (bound : Nat) (setup : Setup) :
    (abiding (Accounted {})).holds fun test =>
      setup.assignInitial functions (testedLevel functions test bound) := by
  have h := sheltered (abiding_accounted {}) functions bound
  exact (h.kind.serves h.act).assignInitial (fun hn => agrees_sees fun w _ => hn w) h.writeKey setup

theorem Clocked.accounted {functions : Functions σ} {w : World σ} (h : Clocked functions w) :
    Accounted {} w := by
  induction h with
  | @new bound setup host s w hclock hqueue hcreate =>
    obtain ⟨generator, hw⟩ := create_ok hcreate
    have hnew : Accounted {} (setup.world generator host) :=
      ⟨{}, .new hclock hqueue, .refl _⟩
    have hend := (ending_of_abides functions (fun below => setup.assignInitial functions below) bound
      (accounted_assignInitial functions bound setup) hnew).2
    rwa [hw] at hend
  | @command n bound c callback w _ ih =>
    exact (ending_of_abides functions (fun below => exec functions below bound c callback) n
      ((sheltered (abiding_accounted {}) functions n).exec bound c callback) ih).2
  | host host _ ih =>
    obtain ⟨fates, hw, hon⟩ := ih
    exact ⟨fates, hw.aside ⟨rfl, rfl, rfl⟩, hon⟩

/-- The reminder follows the date, but later. -/
def reminding : Prepared :=
  ⟨⟨.text "reminder", .null, .text "date", .null, .int 5⟩, .identifier (.text "date"), none⟩

/-- One who looks at the manager at each event. -/
def looking : Event → Act Unit := fun _ => .perform .look nofun fun _ => .done .null

def commanded (w : World Unit) (c : Command) (callback : c.Input → Act Unit) : World Unit :=
  Run.ending (exec unaided (level unaided 9) 9 c callback w)

theorem Clocked.commanded {w : World Unit} (h : Clocked unaided w) (c : Command)
    (callback : c.Input → Act Unit) : Clocked unaided (commanded w c callback) := h.command

/-- A manager that reminds and is looked at. -/
def planner : World Unit :=
  commanded (commanded (Setup.world {} (.ofNat 0) ()) (.register reminding) nofun) .subscribe
    looking

/-- A manager that was given two dates. -/
def calendar : World Unit :=
  commanded (commanded planner (.setState (.map 0 [(.text "date", .int 1)])) nofun)
    (.setState (.map 1 [(.text "date", .int 2)])) nofun

theorem calendar_clocked : Clocked unaided calendar := by
  have hnew : Clocked unaided (Setup.world {} (.ofNat 0) ()) :=
    @Clocked.new Unit unaided 0 {} () .empty _ rfl rfl rfl
  have hplanner : Clocked unaided planner := (hnew.commanded _ _).commanded _ _
  exact (hplanner.commanded _ _).commanded _ _

/-- Does a manager have as many notes as tasks that wait? -/
def tallies (w : World Unit) : Bool := w.pending.length = w.clock.scheduler.pending

end Switchboard.Manager
