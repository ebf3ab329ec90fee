-- Runs of a scheduler with a log of what happens. A chronicled run does what a run does and enters
-- each thing that happens, with what it led to, in a log. To forget the log gives the run back, and
-- the log is a path of single steps: what holds along every path holds of every run, at each
-- moment, however deep tasks and advances nest and however they end.
import Switchboard.Proofs.Happenings
import Switchboard.Proofs.Projection
import Switchboard.Scheduler.Session
namespace Switchboard.Scheduler

open Conduct

structure Chronicle (τ σ : Type) where
  session : Session τ σ
  /-- The deadlines of the advances that are under way, the innermost first. -/
  running : List τ := []
  log : List (Entry τ (Program (interface τ) σ)) := []

namespace Chronicle

variable {τ σ α β : Type}

def stage (w : Chronicle τ σ) : Stage τ (Program (interface τ) σ) :=
  ⟨w.session.scheduler, w.running⟩

def hostPart : Part (Chronicle τ σ) σ :=
  ⟨fun w => w.session.host, fun s w => { w with session := { w.session with host := s } }⟩

/-- The chronicle when something more has happened. -/
def entered (w : Chronicle τ σ) (what : Happening τ) (v : Stage τ (Program (interface τ) σ)) :
    Chronicle τ σ where
  session := { w.session with scheduler := v.scheduler }
  running := v.running
  log := w.log ++ [⟨what, v⟩]

def enter (what : Happening τ) (v : Stage τ (Program (interface τ) σ)) :
    Run (Chronicle τ σ) Unit := modify (·.entered what v)

/-- Enter that an advance is broken off, if it is. -/
def orBroken (deadline : τ) (act : Run (Chronicle τ σ) α) : Run (Chronicle τ σ) α := fun w =>
  match act w with
  | .ok a w => .ok a w
  | .error f w =>
    .error f (w.entered (.broken deadline) ⟨w.session.scheduler, w.running.tail⟩)

theorem orBroken_ok {deadline : τ} {act : Run (Chronicle τ σ) α} {w v : Chronicle τ σ} {a : α}
    (h : act w = .ok a v) : orBroken deadline act w = .ok a v := by
  unfold orBroken
  rw [h]

section

variable [Add τ] [Sub τ] [Zero τ] [Max τ] [LE τ] [LT τ] [DecidableLE τ] [DecidableLT τ]

/-! ## Chronicled runs -/

section

variable (fire : Program (interface τ) σ → Run (Chronicle τ σ) Unit)

def advanceTo (deadline : τ) : Nat → Run (Chronicle τ σ) Nat
  | 0 => throw .exhausted
  | n + 1 => do
    let w ← get
    let s := w.session.scheduler
    match s.queue.top? with
    | some t =>
      if t.due ≤ deadline then
        if t.cancelled then
          enter (.dropped t.serial) ⟨{ s with queue := s.rest }, w.running⟩
          advanceTo deadline n
        else
          enter (.started t.serial t.due) ⟨{ s with now := t.due, queue := s.rest }, w.running⟩
          fire t.payload
          return (← advanceTo deadline n) + 1
      else
        enter (.arrived deadline) ⟨{ s with now := deadline }, w.running.tail⟩
        return 0
    | none =>
      enter (.arrived deadline) ⟨{ s with now := deadline }, w.running.tail⟩
      return 0

def advance (bound : Nat) (ms : τ) : Run (Chronicle τ σ) Nat := do
  let w ← get
  let deadline := w.session.scheduler.now + ms
  enter (.began deadline) ⟨w.session.scheduler, deadline :: w.running⟩
  orBroken deadline (advanceTo fire deadline bound)

def runAll (bound : Nat) : Nat → Run (Chronicle τ σ) Nat
  | 0 => throw .exhausted
  | n + 1 => do
    let s := (← get).session.scheduler
    match s.queue.top? with
    | none => return 0
    | some t =>
      let ran ← advance fire bound (max (t.due - s.now) 0)
      return ran + (← runAll bound n)

end

def exec (call : Program (interface τ) σ → Run (Chronicle τ σ) Value) (bound : Nat) :
    (c : Command τ) → (c.Input → Program (interface τ) σ) → Run (Chronicle τ σ) c.Answer
  | .later delay, task => do
    let w ← get
    let s := w.session.scheduler
    enter (.submitted s.nextSerial (s.now + max delay 0)) ⟨(s.later delay (task ())).2, w.running⟩
    return s.nextSerial
  | .cancel serial, _ => do
    let w ← get
    enter (.cancelled serial) ⟨w.session.scheduler.cancel serial, w.running⟩
  | .advance ms, _ => advance (fun task => do let _ ← call task) bound ms
  | .runAll, _ => runAll (fun task => do let _ ← call task) bound bound
  | .look, _ => do
    let w ← get
    enter .looked w.stage
    return (w.session.scheduler.now, w.session.scheduler.pending)

def run : Nat → Program (interface τ) σ → Run (Chronicle τ σ) Value
  | 0, _ => throw .exhausted
  | n + 1, p => p.run hostPart (exec (run n) n)

/-! ## Forgetting the log -/

/-- A result without its log. -/
def plain : EStateM.Result Fault (Chronicle τ σ) α → EStateM.Result Fault (Session τ σ) α
  | .ok a w => .ok a w.session
  | .error f w => .error f w.session

omit [Add τ] [Sub τ] [Zero τ] [Max τ] [LE τ] [LT τ] [DecidableLE τ] [DecidableLT τ]

theorem plain_eq (r : EStateM.Result Fault (Chronicle τ σ) α) :
    plain r = Run.project session r := by
  cases r <;> rfl

theorem ending_plain (r : EStateM.Result Fault (Chronicle τ σ) α) :
    Run.ending (plain r) = (Run.ending r).session := by
  rw [plain_eq, ending_project]

/-- Is a computation the other one with a log? -/
def Logs (act : Run (Chronicle τ σ) α) (act' : Run (Session τ σ) α) : Prop :=
  ∀ w, plain (act w) = act' w.session

theorem logs_iff {act : Run (Chronicle τ σ) α} {act' : Run (Session τ σ) α} :
    Logs act act' ↔ Projects session act act' := by
  unfold Logs Projects
  simp only [plain_eq]

theorem logs_pure (a : α) :
    Logs (pure a : Run (Chronicle τ σ) α) (pure a : Run (Session τ σ) α) := fun _ => rfl

theorem logs_bind {act : Run (Chronicle τ σ) α} {act' : Run (Session τ σ) α}
    {next : α → Run (Chronicle τ σ) β} {next' : α → Run (Session τ σ) β} (h : Logs act act')
    (hn : ∀ a, Logs (next a) (next' a)) : Logs (act >>= next) (act' >>= next') :=
  logs_iff.mpr (projects_bind (logs_iff.mp h) fun a => logs_iff.mp (hn a))

theorem logs_outcome {act : Run (Chronicle τ σ) α} {act' : Run (Session τ σ) α}
    (h : Logs act act') : Logs act.outcome act'.outcome :=
  logs_iff.mpr (projects_outcome (logs_iff.mp h))

theorem logs_enter (what : Happening τ) (s : Scheduler τ (Program (interface τ) σ))
    (running : List τ) : Logs (enter what ⟨s, running⟩) (Session.schedulerPart.write s) :=
  fun _ => rfl

theorem logs_get {next : Chronicle τ σ → Run (Chronicle τ σ) β}
    {next' : Scheduler τ (Program (interface τ) σ) → Run (Session τ σ) β}
    (h : ∀ w, Logs (next w) (next' w.session.scheduler)) :
    Logs (get >>= next) (Session.schedulerPart.read >>= next') := fun w => h w w

end

section

variable [Add τ] [Sub τ] [Zero τ] [Max τ] [LE τ] [LT τ] [DecidableLE τ] [DecidableLT τ]

section

variable {fire : Program (interface τ) σ → Run (Chronicle τ σ) Unit}
  {fire' : Program (interface τ) σ → Run (Session τ σ) Unit} (hf : ∀ p, Logs (fire p) (fire' p))

include hf

omit [Add τ] [Sub τ] [Zero τ] [Max τ] in
theorem logs_advanceTo (deadline : τ) (bound : Nat) :
    Logs (advanceTo fire deadline bound)
      (Scheduler.advanceTo Session.schedulerPart fire' deadline bound) := by
  induction bound with
  | zero => exact fun _ => rfl
  | succ n ih =>
    unfold advanceTo Scheduler.advanceTo
    refine logs_get fun w => ?_
    dsimp only
    cases w.session.scheduler.queue.top? with
    | none => exact logs_bind (logs_enter _ _ _) fun _ => logs_pure 0
    | some t =>
      dsimp only
      by_cases hd : t.due ≤ deadline
      · rw [if_pos hd, if_pos hd]
        by_cases hc : t.cancelled = true
        · rw [if_pos hc, if_pos hc]
          exact logs_bind (logs_enter _ _ _) fun _ => ih
        · rw [if_neg hc, if_neg hc]
          exact logs_bind (logs_enter _ _ _) fun _ => logs_bind (hf _) fun _ =>
            logs_bind ih fun _ => logs_pure _
      · rw [if_neg hd, if_neg hd]
        exact logs_bind (logs_enter _ _ _) fun _ => logs_pure 0

omit [Sub τ] [Zero τ] [Max τ] in
theorem logs_advance (bound : Nat) (ms : τ) :
    Logs (advance fire bound ms)
      (Scheduler.advance Session.schedulerPart fire' bound ms) := by
  intro w
  have hloop := logs_advanceTo hf (w.session.scheduler.now + ms) bound
    (w.entered (.began (w.session.scheduler.now + ms))
      ⟨w.session.scheduler, (w.session.scheduler.now + ms) :: w.running⟩)
  refine Eq.trans ?_ hloop
  change plain (orBroken _ _ _) = _
  unfold orBroken
  cases advanceTo fire (w.session.scheduler.now + ms) bound _ <;> rfl

theorem logs_runAll (bound rounds : Nat) :
    Logs (runAll fire bound rounds)
      (Scheduler.runAll Session.schedulerPart fire' bound rounds) := by
  induction rounds with
  | zero => exact fun _ => rfl
  | succ n ih =>
    unfold runAll Scheduler.runAll
    refine logs_get fun w => ?_
    dsimp only
    cases w.session.scheduler.queue.top? with
    | none => exact logs_pure 0
    | some t =>
      exact logs_bind (logs_advance hf bound _) fun _ => logs_bind ih fun _ => logs_pure _

end

theorem logs_exec {call : Program (interface τ) σ → Run (Chronicle τ σ) Value}
    {call' : Program (interface τ) σ → Run (Session τ σ) Value}
    (hc : ∀ p, Logs (call p) (call' p)) (bound : Nat) (c : Command τ)
    (callback : c.Input → Program (interface τ) σ) :
    Logs (exec call bound c callback) (Session.exec call' bound c callback) := by
  have hf : ∀ p, Logs (do let _ ← call p) (do let _ ← call' p) :=
    fun p => logs_bind (hc p) fun _ => logs_pure ()
  cases c with
  | later delay => exact fun _ => rfl
  | cancel serial => exact fun _ => rfl
  | advance ms => exact logs_advance hf bound ms
  | runAll => exact logs_runAll hf bound bound
  | look => exact fun _ => rfl

/-- A chronicled run is the run of the program, with a log. -/
theorem logs_run (n : Nat) (p : Program (interface τ) σ) : Logs (run n p) (Session.run n p) := by
  induction n generalizing p with
  | zero => exact fun _ => rfl
  | succ n ih =>
    change Logs (p.run hostPart (exec (run n) n)) (p.run Session.hostPart (Session.exec _ n))
    induction p with
    | done result => exact fun _ => rfl
    | fail f => exact fun _ => rfl
    | note change next ihp => exact fun w => ihp _ _
    | perform command callback next _ ihp =>
      exact logs_bind (logs_outcome (logs_exec ih n command callback)) ihp

end

/-! ## Turns -/

section

variable [LE τ] [LT τ] [DecidableLE τ] [DecidableLT τ]
  {fire : Program (interface τ) σ → Run (Chronicle τ σ) Unit} {deadline : τ} {w : Chronicle τ σ}

theorem advanceTo_arrived (n : Nat)
    (h : ∀ t, w.session.scheduler.queue.top? = some t → ¬ t.due ≤ deadline) :
    advanceTo fire deadline (n + 1) w = .ok 0 (w.entered (.arrived deadline)
      ⟨{ w.session.scheduler with now := deadline }, w.running.tail⟩) := by
  have hget : (get : Run (Chronicle τ σ) (Chronicle τ σ)) w = .ok w w := rfl
  unfold advanceTo
  rw [bind_ok hget]
  dsimp only
  cases ht : w.session.scheduler.queue.top? with
  | none => rfl
  | some t =>
    dsimp only
    rw [if_neg (h t ht)]
    rfl

variable {t : Task τ (Program (interface τ) σ)}

theorem advanceTo_dropped (n : Nat) (ht : w.session.scheduler.queue.top? = some t)
    (hd : t.due ≤ deadline) (hc : t.cancelled = true) :
    advanceTo fire deadline (n + 1) w = advanceTo fire deadline n (w.entered (.dropped t.serial)
      ⟨{ w.session.scheduler with queue := w.session.scheduler.rest }, w.running⟩) := by
  have hget : (get : Run (Chronicle τ σ) (Chronicle τ σ)) w = .ok w w := rfl
  conv => lhs; unfold advanceTo
  rw [bind_ok hget]
  dsimp only
  rw [ht]
  dsimp only
  rw [if_pos hd, if_pos hc]
  rfl

theorem advanceTo_started (n : Nat) (ht : w.session.scheduler.queue.top? = some t)
    (hd : t.due ≤ deadline) (hc : t.cancelled = false) :
    advanceTo fire deadline (n + 1) w = (do
      fire t.payload
      return (← advanceTo fire deadline n) + 1) (w.entered (.started t.serial t.due)
        ⟨{ w.session.scheduler with now := t.due, queue := w.session.scheduler.rest },
          w.running⟩) := by
  have hget : (get : Run (Chronicle τ σ) (Chronicle τ σ)) w = .ok w w := rfl
  conv => lhs; unfold advanceTo
  rw [bind_ok hget]
  dsimp only
  rw [ht]
  dsimp only
  rw [if_pos hd, if_neg (by rw [hc]; decide)]
  rfl

variable [Add τ] [Sub τ] [Zero τ] [Max τ]

theorem runAll_idle (bound n : Nat) (h : w.session.scheduler.queue.top? = none) :
    runAll fire bound (n + 1) w = .ok 0 w := by
  have hget : (get : Run (Chronicle τ σ) (Chronicle τ σ)) w = .ok w w := rfl
  unfold runAll
  rw [bind_ok hget, h]
  rfl

theorem runAll_next (bound n : Nat) (h : w.session.scheduler.queue.top? = some t) :
    runAll fire bound (n + 1) w = (do
      let ran ← advance fire bound (max (t.due - w.session.scheduler.now) 0)
      return ran + (← runAll fire bound n)) w := by
  have hget : (get : Run (Chronicle τ σ) (Chronicle τ σ)) w = .ok w w := rfl
  conv => lhs; unfold runAll
  rw [bind_ok hget, h]

end

/-! ## The log is a path -/

section

variable [AddCommGroup τ] [LinearOrder τ]

/-- Is the log carried on by steps that lead from one chronicle to the other? -/
def Records (w w' : Chronicle τ σ) : Prop :=
  ∃ more, w'.log = w.log ++ more ∧ Path w.stage more w'.stage

theorem Records.refl (w : Chronicle τ σ) : Records w w :=
  ⟨[], (List.append_nil _).symm, .nil⟩

theorem Records.trans {w u w' : Chronicle τ σ} (h : Records w u) (h' : Records u w') :
    Records w w' := by
  obtain ⟨more, hlog, hpath⟩ := h
  obtain ⟨rest, hlog', hpath'⟩ := h'
  exact ⟨more ++ rest, by rw [hlog', hlog, List.append_assoc], hpath.append hpath'⟩

theorem records_entered {w : Chronicle τ σ} {what : Happening τ}
    {v : Stage τ (Program (interface τ) σ)} (h : Step w.stage what v) :
    Records w (w.entered what v) := ⟨[⟨what, v⟩], rfl, .single h⟩

/-- To go by steps, and to leave no advance under way that was not before. -/
def recording : Conduct (Chronicle τ σ) :=
  always (fun w w' => w'.running = w.running ∧ Records w w') (fun w => ⟨rfl, .refl w⟩)
    fun h h' => ⟨h'.1.trans h.1, h.2.trans h'.2⟩

/-- Is an advance over after a success, and still under way after a fault? -/
def Advances (deadline : τ) (outer : List τ) (w : Chronicle τ σ) (act : Run (Chronicle τ σ) α) :
    Prop :=
  (∀ a w', act w = .ok a w' → w'.running = outer ∧ Records w w') ∧
    ∀ f w', act w = .error f w' → w'.running = deadline :: outer ∧ Records w w'

theorem Advances.after {deadline : τ} {outer : List τ} {w u : Chronicle τ σ}
    {act rest : Run (Chronicle τ σ) α} (hr : act w = rest u) (hw : Records w u)
    (h : Advances deadline outer u rest) : Advances deadline outer w act := by
  refine ⟨fun a w' ha => ?_, fun f w' hf => ?_⟩
  · obtain ⟨hrunning, hrecords⟩ := h.1 a w' (hr.symm.trans ha)
    exact ⟨hrunning, hw.trans hrecords⟩
  · obtain ⟨hrunning, hrecords⟩ := h.2 f w' (hr.symm.trans hf)
    exact ⟨hrunning, hw.trans hrecords⟩

/-- What is done first may be a thing that keeps all advances under way. -/
theorem Advances.bind {deadline : τ} {outer : List τ} {u : Chronicle τ σ}
    {act : Run (Chronicle τ σ) α} {next : α → Run (Chronicle τ σ) β}
    (h : recording.KeepsAt act u) (hu : u.running = deadline :: outer)
    (hn : ∀ a v, v.running = deadline :: outer → Advances deadline outer v (next a)) :
    Advances deadline outer u (act >>= next) := by
  cases hr : act u with
  | ok a v =>
    obtain ⟨hrunning, hrecords⟩ := h.good hr
    exact .after (bind_ok hr) hrecords (hn a v (hrunning.trans hu))
  | error f v =>
    obtain ⟨hrunning, hrecords⟩ := h.bad hr
    refine ⟨fun b w' hb => ?_, fun f' w' hf => ?_⟩
    · rw [bind_error hr] at hb
      cases hb
    · rw [bind_error hr] at hf
      cases hf
      exact ⟨hrunning.trans hu, hrecords⟩

/-- What is done with the answer is of no matter. -/
theorem Advances.answer {deadline : τ} {outer : List τ} {u : Chronicle τ σ}
    {act : Run (Chronicle τ σ) α} (h : Advances deadline outer u act) (g : α → β) :
    Advances deadline outer u (do return g (← act)) := by
  cases hr : act u with
  | ok a v =>
    refine ⟨fun b w' hb => ?_, fun f w' hf => ?_⟩
    · cases (bind_ok hr).symm.trans hb
      exact h.1 a v hr
    · cases (bind_ok hr).symm.trans hf
  | error f v =>
    refine ⟨fun b w' hb => ?_, fun f' w' hf => ?_⟩
    · cases (bind_error hr).symm.trans hb
    · cases (bind_error hr).symm.trans hf
      exact h.2 f v hr

section

variable {fire : Program (interface τ) σ → Run (Chronicle τ σ) Unit}

/-- One turn of the loop: a task is let go or started, or the advance arrives. -/
theorem advanceTo_turn {deadline : τ} {outer : List τ} (n : Nat) {w : Chronicle τ σ}
    (hw : w.running = deadline :: outer) :
    (∃ t s, w.session.scheduler.queue.top? = some t ∧ s.queue = w.session.scheduler.rest ∧
      Step w.stage (.dropped t.serial) ⟨s, w.running⟩ ∧
      advanceTo fire deadline (n + 1) w =
        advanceTo fire deadline n (w.entered (.dropped t.serial) ⟨s, w.running⟩)) ∨
    (∃ t s, w.session.scheduler.queue.top? = some t ∧ t.cancelled = false ∧
      s.queue = w.session.scheduler.rest ∧
      Step w.stage (.started t.serial t.due) ⟨s, w.running⟩ ∧
      advanceTo fire deadline (n + 1) w = (do
        fire t.payload
        return (← advanceTo fire deadline n) + 1)
          (w.entered (.started t.serial t.due) ⟨s, w.running⟩)) ∨
    ∃ s, Step w.stage (.arrived deadline) ⟨s, outer⟩ ∧
      advanceTo fire deadline (n + 1) w = .ok 0 (w.entered (.arrived deadline) ⟨s, outer⟩) := by
  have hstage : w.stage = ⟨w.session.scheduler, deadline :: outer⟩ := congrArg (Stage.mk _) hw
  rcases turn_cases w.session.scheduler deadline with
    ⟨t, ht, hd, hc⟩ | ⟨t, ht, hd, hc⟩ | hidle
  · refine .inl ⟨t, _, ht, rfl, ?_, advanceTo_dropped n ht hd hc⟩
    rw [hstage, hw]
    exact .dropped ht hd hc
  · refine .inr (.inl ⟨t, _, ht, hc, rfl, ?_, advanceTo_started n ht hd hc⟩)
    rw [hstage, hw]
    exact .started ht hd hc
  · refine .inr (.inr ⟨{ w.session.scheduler with now := deadline }, ?_, ?_⟩)
    · rw [hstage]
      exact .arrived hidle
    · rw [advanceTo_arrived n hidle, hw]
      rfl

section

variable (hf : ∀ p, recording.Keeps (fire p))

include hf

theorem advances (deadline : τ) (outer : List τ) (n : Nat) {w : Chronicle τ σ}
    (hw : w.running = deadline :: outer) :
    Advances deadline outer w (advanceTo fire deadline n) := by
  induction n generalizing w with
  | zero =>
    refine ⟨fun a w' ha => (by cases ha), fun f w' hf => ?_⟩
    cases hf
    exact ⟨hw, .refl w⟩
  | succ n ih =>
    obtain ⟨t, s, -, -, hs, hr⟩ | ⟨t, s, -, -, -, hs, hr⟩ | ⟨s, hs, hr⟩ :=
      advanceTo_turn n hw
    · exact .after hr (records_entered hs) (ih hw)
    · refine .after hr (records_entered hs) ?_
      exact .bind (hf t.payload _) hw fun _ v hv => (ih hv).answer (· + 1)
    · refine ⟨fun a w' ha => ?_, fun f w' hf => ?_⟩
      · cases hr.symm.trans ha
        exact ⟨rfl, records_entered hs⟩
      · cases hr.symm.trans hf

/-- An advance begins, and it arrives or is broken off. -/
theorem recording_advance (bound : Nat) (ms : τ) : recording.Keeps (advance fire bound ms) := by
  intro w
  let deadline := w.session.scheduler.now + ms
  let u := w.entered (.began deadline) ⟨w.session.scheduler, deadline :: w.running⟩
  have hbegan : Records w u := records_entered (.began deadline)
  have hloop := advances hf deadline w.running bound (w := u) rfl
  have hrun : advance fire bound ms w = orBroken deadline (advanceTo fire deadline bound) u := rfl
  refine keepsAt_of (fun a w' ha => ?_) fun f w' hf => ?_
  · rw [hrun] at ha
    unfold orBroken at ha
    cases hr : advanceTo fire deadline bound u with
    | ok b v =>
      rw [hr] at ha
      cases ha
      obtain ⟨hrunning, hrecords⟩ := hloop.1 _ _ hr
      exact ⟨hrunning, hbegan.trans hrecords⟩
    | error f v =>
      rw [hr] at ha
      cases ha
  · rw [hrun] at hf
    unfold orBroken at hf
    cases hr : advanceTo fire deadline bound u with
    | ok b v =>
      rw [hr] at hf
      cases hf
    | error f v =>
      rw [hr] at hf
      cases hf
      obtain ⟨hrunning, hrecords⟩ := hloop.2 _ _ hr
      have hbroken : Step v.stage (.broken deadline)
          ⟨v.session.scheduler, v.running.tail⟩ := by
        rw [show v.stage = ⟨v.session.scheduler, deadline :: w.running⟩ from
          congrArg (Stage.mk _) hrunning, hrunning]
        exact .broken
      exact ⟨congrArg List.tail hrunning, (hbegan.trans hrecords).trans (records_entered hbroken)⟩

theorem recording_runAll (bound rounds : Nat) : recording.Keeps (runAll fire bound rounds) := by
  induction rounds with
  | zero => exact keeps_throw _
  | succ n ih =>
    refine keeps_get fun w => ?_
    dsimp only
    cases w.session.scheduler.queue.top? with
    | none => exact keeps_pure 0
    | some t =>
      exact keeps_bind (recording_advance hf bound _) fun _ => keeps_bind ih fun _ => keeps_pure _

end
end

theorem recording_exec {call : Program (interface τ) σ → Run (Chronicle τ σ) Value}
    (hc : ∀ p, recording.Keeps (call p)) (bound : Nat) (c : Command τ)
    (callback : c.Input → Program (interface τ) σ) :
    recording.Keeps (exec call bound c callback) := by
  have hf : ∀ p, recording.Keeps (do let _ ← call p) := fun p =>
    keeps_bind (hc p) fun _ => keeps_pure ()
  cases c with
  | later delay => exact fun w => ⟨rfl, records_entered (.submitted delay (callback ()))⟩
  | cancel serial => exact fun w => ⟨rfl, records_entered (.cancelled serial)⟩
  | advance ms => exact recording_advance hf bound ms
  | runAll => exact recording_runAll hf bound bound
  | look => exact fun w => ⟨rfl, records_entered .looked⟩

/-- However a chronicled run ends, its log is a path. -/
theorem recording_run (n : Nat) (p : Program (interface τ) σ) : recording.Keeps (run n p) := by
  induction n generalizing p with
  | zero => exact keeps_throw _
  | succ n ih =>
    have hnote : ∀ change, recording.Keeps (hostPart.update change : Run (Chronicle τ σ) Unit) :=
      fun change w => ⟨rfl, [], (List.append_nil _).symm, .nil⟩
    exact keeps_run id hnote (recording_exec ih n) p

end
end Chronicle

/-! ## Runs from the beginning -/

section

variable {τ σ : Type} [AddCommGroup τ] [LinearOrder τ]

open Chronicle

/-- The log of a program that is run with a new scheduler. -/
def logOf (n : Nat) (p : Program (interface τ) σ) (host : σ) :
    List (Entry τ (Program (interface τ) σ)) :=
  (Run.ending (Chronicle.run n p { session := ⟨.empty, host⟩ })).log

/-- It leads to what the run leads to. -/
theorem logOf_path (n : Nat) (p : Program (interface τ) σ) (host : σ) :
    ∃ running, Path ⟨.empty, []⟩ (logOf n p host)
      ⟨(Run.ending (Session.run n p ⟨.empty, host⟩)).scheduler, running⟩ := by
  have hend : Records _ (Run.ending (Chronicle.run n p { session := ⟨.empty, host⟩ })) :=
    ((recording_run n p).ending id { session := ⟨.empty, host⟩ }).2
  obtain ⟨more, hlog, hpath⟩ := hend
  rw [List.nil_append] at hlog
  rw [← logs_run n p { session := ⟨.empty, host⟩ }, ending_plain]
  refine ⟨(Run.ending (Chronicle.run n p { session := ⟨.empty, host⟩ })).running, ?_⟩
  unfold logOf
  rw [hlog]
  exact hpath

/-- A scheduler is sane at the end of every run. -/
theorem sane_run [IsOrderedAddMonoid τ] (n : Nat) (p : Program (interface τ) σ) (host : σ) :
    Sane (Run.ending (Session.run n p ⟨.empty, host⟩)).scheduler := by
  obtain ⟨running, hpath⟩ := logOf_path n p host
  have hnew : Sane (Scheduler.empty : Scheduler τ (Program (interface τ) σ)) := .of_empty rfl
  exact hnew.path hpath

end
end Switchboard.Scheduler
