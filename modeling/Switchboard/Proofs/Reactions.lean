-- What a limit of depth does to a cascade. The reactions of a cascade without a limit are listed in
-- order: each change that is followed up, with the manager as it is then. A cascade under a limit
-- goes the same way if no reaction nests deeper than allowed, and else up to the first that does.
import Switchboard.Proofs.Termination
namespace Switchboard.Manager

open World Conduct

variable {σ α β : Type}

/-! ## Reactions -/

theorem World.read_stored (w : World σ) (key : Scalar) (value : Value) :
    (w.stored key value).store.read key = value := by
  change (((w.store.state.put key value).get? key).getD .null) = value
  rw [Dict.get?_put, if_pos BEq.rfl]
  rfl

/-- A change that is followed up, with the manager when the value has been stored. -/
structure Reaction (σ : Type) where
  change : Change
  world : World σ
  stored : world.store.read change.key = change.new

/-- How many changes are being followed up then, with this one. -/
def Reaction.nesting (m : Reaction σ) : Nat := m.world.depth + 1

/-- The reactions that a computation makes of a manager. -/
abbrev Trace (σ : Type) := World σ → List (Reaction σ)

/-- The reactions of what follows a computation, if it succeeds. -/
def afterwards (act : Run (World σ) α) (next : α → Trace σ) : Trace σ := fun w =>
  match act w with
  | .ok a w' => next a w'
  | .error _ _ => []

/-- The reactions of computations, one after the other. -/
def traceAll (act : α → Run (World σ) Unit) (trace : α → Trace σ) : List α → Trace σ
  | [] => fun _ => []
  | a :: rest => fun w => trace a w ++ afterwards (act a) (fun _ => traceAll act trace rest) w

section

variable (functions : Functions σ) (below : Level σ) (nested : Scalar → Value → Trace σ)

/-- The reactions that applying an assignment makes, given those of the write. -/
def reactionsToAssignment (a : Assignment) : Trace σ :=
  afterwards (conditionHolds functions below a) fun holds =>
    if holds then afterwards (evaluateNow functions below a.expression) (nested a.storage)
    else fun _ => []

/-- The reactions nested in that to a change. -/
def reactionsWithin (change : Change) : Trace σ := fun w =>
  traceAll (applyAssignment functions below) (reactionsToAssignment functions below nested)
    ((w.listeningTo change.key).filter (!·.isDeferred))
    { w with changes := w.changes.record change }

/-- The reactions to a write: that to the change, if there is one and the manager listens, and those
nested in it. -/
def reactionsToWrite (key : Scalar) (value : Value) : Trace σ := fun w =>
  let change : Change := ⟨key, w.store.read key, value⟩
  let stored := w.stored key value
  if change.old.strictEquals value then []
  else if w.isLive then
    ⟨change, stored, w.read_stored key value⟩ ::
      reactionsWithin functions below nested change { stored with depth := w.depth + 1 }
  else []

end

/-- The reactions to a nested write. -/
def reactions (functions : Functions σ) : Nat → Scalar → Value → Trace σ
  | 0 => fun _ _ _ => []
  | n + 1 => reactionsToWrite functions (level functions n) (reactions functions n)

/-- The reactions to the writes of a transaction. -/
def Opening.reactions (functions : Functions σ) (n : Nat) : Opening → Trace σ
  | patch p =>
    match Store.patchOf p with
    | .ok entries =>
      traceAll (fun e => writeKey functions (level functions n) e.1 e.2)
        (fun e => reactionsToWrite functions (level functions n) (Manager.reactions functions n)
          e.1 e.2) entries
    | .error _ => fun _ => []
  | slot control value =>
    match control.storage.asKey with
    | .ok key =>
      reactionsToWrite functions (level functions n) (Manager.reactions functions n) key value
    | .error _ => fun _ => []
  | deferral d =>
    reactionsToAssignment functions (level functions n) (Manager.reactions functions n)
      d.assignment

theorem afterwards_ok {act : Run (World σ) α} {next : α → Trace σ} {w w' : World σ} {a : α}
    (h : act w = .ok a w') : afterwards act next w = next a w' := by
  unfold afterwards
  rw [h]

theorem afterwards_error {act : Run (World σ) α} {next : α → Trace σ} {w w' : World σ} {f : Fault}
    (h : act w = .error f w') : afterwards act next w = [] := by
  unfold afterwards
  rw [h]

theorem afterwards_nil (act : Run (World σ) α) (w : World σ) :
    afterwards act (fun _ _ => []) w = [] := by
  unfold afterwards
  split <;> rfl

/-! ## What a cascade without a limit does -/

/-- A manager without a limit, where others only look on. It listens to its state or was disposed
of. -/
structure Unlimited (w : World σ) : Prop where
  limit : w.config.maxDepth = none
  onlookers : w.Onlookers
  heard : w.store.listeners = [] ∨ w.store.listeners = [(.null, [(1, ())])]

/-- Has a manager come to another state by these reactions? Their changes are the entries of its
history since, unless it was disposed of, and each of them was the last when its reaction began. -/
structure Tracks (w : World σ) (ms : List (Reaction σ)) (w' : World σ) : Prop where
  limit : w'.config.maxDepth = w.config.maxDepth
  depth : w'.depth = w.depth
  onlookers : w.Onlookers → w'.Onlookers
  heard : w'.store.listeners = [] ∨ w'.store.listeners = w.store.listeners
  events : w'.events = w.events
  history : w'.isLive = true → w'.store.history = w.store.history ++ ms.map (·.change)
  recorded : ∀ before m after, ms = before ++ m :: after → w.isLive = true ∧
    m.world.store.history = w.store.history ++ (before ++ [m]).map (·.change) ∧
    m.world.events = w.events

theorem Tracks.unlimited {w w' : World σ} {ms : List (Reaction σ)} (h : Tracks w ms w')
    (hw : Unlimited w) : Unlimited w' :=
  ⟨h.limit.trans hw.limit, h.onlookers hw.onlookers,
    h.heard.elim .inl fun hl => by rw [hl]; exact hw.heard⟩

/-- What was disposed of stays so. -/
theorem Tracks.live {w w' : World σ} {ms : List (Reaction σ)} (h : Tracks w ms w')
    (hw : w'.isLive = true) : w.isLive = true := by
  unfold isLive at *
  rcases h.heard with hl | hl
  · rw [hl] at hw
    cases hw
  · rwa [hl] at hw

theorem Tracks.trans {w u w' : World σ} {ms ms' : List (Reaction σ)} (h : Tracks w ms u)
    (h' : Tracks u ms' w') : Tracks w (ms ++ ms') w' := by
  refine ⟨h'.limit.trans h.limit, h'.depth.trans h.depth, h'.onlookers ∘ h.onlookers,
    h'.heard.elim .inl fun hl => by rw [hl]; exact h.heard, h'.events.trans h.events,
    fun hw => ?_, fun before m after hsplit => ?_⟩
  · rw [h'.history hw, h.history (h'.live hw), List.map_append, List.append_assoc]
  · rcases List.append_eq_append_iff.mp hsplit with ⟨middle, rfl, hrest⟩ | ⟨middle, rfl, hrest⟩
    · obtain ⟨hu, hhistory, hevents⟩ := h'.recorded middle m after hrest
      refine ⟨h.live hu, ?_, hevents.trans h.events⟩
      rw [hhistory, h.history hu, List.append_assoc, ← List.map_append, List.append_assoc]
    · cases middle with
      | nil =>
        obtain ⟨hu, hhistory, hevents⟩ := h'.recorded [] m after hrest.symm
        refine ⟨h.live hu, ?_, hevents.trans h.events⟩
        rw [hhistory, h.history hu, List.append_assoc, ← List.map_append, List.append_nil]
        rfl
      | cons x middle =>
        cases hrest
        exact h.recorded before m middle rfl

/-- There are no reactions where the state stays, though the manager may stop listening. -/
theorem tracks_nil {w w' : World σ} (hlimit : w'.config.maxDepth = w.config.maxDepth)
    (hdepth : w'.depth = w.depth) (honlookers : w.Onlookers → w'.Onlookers)
    (hspared : Spared w w') : Tracks w [] w' := by
  have hheard : w'.store.listeners = [] ∨ w'.store.listeners = w.store.listeners := by
    rcases hspared.store with hs | hs <;> rw [hs]
    · exact .inr rfl
    · exact .inl rfl
  refine ⟨hlimit, hdepth, honlookers, hheard, hspared.events, fun _ => ?_,
    fun before m after hsplit => absurd hsplit.symm (by simp)⟩
  rcases hspared.store with hs | hs <;> rw [hs] <;> exact (List.append_nil _).symm

theorem tracks_refl (w : World σ) : Tracks w [] w := tracks_nil rfl rfl id ⟨.inl rfl, rfl⟩

theorem tracks_noted {w w' : World σ} (h : w.Noted w') : Tracks w [] w' := by
  obtain ⟨_, rfl⟩ := h
  exact tracks_nil rfl rfl (fun h => ⟨h.listeners, h.effects⟩) ⟨.inl rfl, rfl⟩

theorem tracks_spent {w w' : World σ} (h : w.Spent w') : Tracks w [] w' := by
  have honlookers := Onlookers.spent h
  obtain ⟨_, _, _, _, _, _, rfl, -⟩ := h
  exact tracks_nil rfl rfl honlookers ⟨.inl rfl, rfl⟩

/-! ## What it does under a limit -/

/-- All reactions are allowed, and the cascade goes the same way. -/
structure Within (limit : Nat) (act : Run (World σ) α) (ms : List (Reaction σ)) (w : World σ) :
    Prop where
  shallow : ∀ m ∈ ms, m.nesting ≤ limit
  same : act (w.limited (some limit)) = Run.mapEnd (World.limited (some limit)) (act w)

/-- There is a first reaction that is one deeper than allowed, and the cascade goes the same way up
to its change. This has been stored. -/
def Stopped (limit : Nat) (act : Run (World σ) α) (ms : List (Reaction σ)) (w : World σ) : Prop :=
  ∃ before m after, ms = before ++ m :: after ∧ (∀ b ∈ before, b.nesting ≤ limit) ∧
    m.nesting = limit + 1 ∧
    act (w.limited (some limit)) = .error (.cascade m.change.key limit)
      { m.world.limited (some limit) with depth := w.depth }

/-- A computation makes these reactions here, and under a limit it goes by them. -/
def ExactAt (limit : Nat) (act : Run (World σ) α) (trace : Trace σ) (w : World σ) : Prop :=
  Tracks w (trace w) (Run.ending (act w)) ∧
    (w.depth ≤ limit → Within limit act (trace w) w ∨ Stopped limit act (trace w) w)

def Exact (limit : Nat) (act : Run (World σ) α) (trace : Trace σ) : Prop :=
  ∀ w, Unlimited w → ExactAt limit act trace w

section

variable {limit : Nat}

theorem Exact.congr {act : Run (World σ) α} {trace trace' : Trace σ}
    (h : Exact limit act trace) (heq : ∀ w, trace w = trace' w) :
    Exact limit act trace' := by
  have htrace : trace = trace' := funext heq
  rwa [← htrace]

theorem exact_bind {act : Run (World σ) α} {next : α → Run (World σ) β} {trace : Trace σ}
    {trace' : α → Trace σ} (h : Exact limit act trace)
    (hn : ∀ a, Exact limit (next a) (trace' a)) :
    Exact limit (act >>= next) fun w => trace w ++ afterwards act trace' w := by
  intro w hw
  obtain ⟨htracks, hguard⟩ := h w hw
  unfold ExactAt
  dsimp only
  cases hr : act w with
  | error f v =>
    rw [hr] at htracks
    rw [afterwards_error hr, bind_error hr, List.append_nil]
    refine ⟨htracks, fun hdepth => ?_⟩
    rcases hguard hdepth with hwithin | ⟨before, m, after, hsplit, hbefore, hnesting, hstop⟩
    · have hsame := hwithin.same
      rw [hr] at hsame
      exact .inl ⟨hwithin.shallow, (bind_error hsame).trans (by rw [bind_error hr]; rfl)⟩
    · exact .inr ⟨before, m, after, hsplit, hbefore, hnesting, bind_error hstop⟩
  | ok a v =>
    rw [hr] at htracks
    obtain ⟨htracks', hguard'⟩ := hn a v (htracks.unlimited hw)
    rw [afterwards_ok hr, bind_ok hr]
    refine ⟨htracks.trans htracks', fun hdepth => ?_⟩
    have hv : v.depth = w.depth := htracks.depth
    rcases hguard hdepth with hwithin | ⟨before, m, after, hsplit, hbefore, hnesting, hstop⟩
    · have hsame := hwithin.same
      rw [hr] at hsame
      rcases hguard' (by rw [hv]; exact hdepth) with hwithin' |
        ⟨before, m, after, hsplit, hbefore, hnesting, hstop⟩
      · refine .inl ⟨fun m hm => ?_, ?_⟩
        · exact (List.mem_append.mp hm).elim (hwithin.shallow m) (hwithin'.shallow m)
        · rw [bind_ok hr]
          exact (bind_ok hsame).trans hwithin'.same
      · refine .inr ⟨trace w ++ before, m, after, ?_, fun b hb => ?_, hnesting, ?_⟩
        · rw [hsplit, List.append_assoc]
        · exact (List.mem_append.mp hb).elim (hwithin.shallow b) (hbefore b)
        · rw [hv] at hstop
          exact (bind_ok hsame).trans hstop
    · refine .inr ⟨before, m, after ++ trace' a v, ?_, hbefore, hnesting, bind_error hstop⟩
      rw [hsplit, List.append_assoc]
      rfl

/-- A computation that makes no reactions need only go the same way under every limit. -/
theorem exact_nil {act : Run (World σ) α}
    (htracks : ∀ w, Unlimited w → Tracks w [] (Run.ending (act w)))
    (hsame : ∀ w, Unlimited w →
      act (w.limited (some limit)) = Run.mapEnd (World.limited (some limit)) (act w)) :
    Exact limit act fun _ => [] :=
  fun w hw => ⟨htracks w hw, fun _ => .inl ⟨fun _ hm => (List.not_mem_nil hm).elim, hsame w hw⟩⟩

theorem exact_after_quiet {act : Run (World σ) α} {next : α → Run (World σ) β}
    {trace : α → Trace σ} (h : Exact limit act fun _ => [])
    (hn : ∀ a, Exact limit (next a) (trace a)) :
    Exact limit (act >>= next) (afterwards act trace) :=
  (exact_bind h hn).congr fun _ => List.nil_append _

theorem exact_before_quiet {act : Run (World σ) α} {next : α → Run (World σ) β} {trace : Trace σ}
    (h : Exact limit act trace) (hn : ∀ a, Exact limit (next a) fun _ => []) :
    Exact limit (act >>= next) trace :=
  (exact_bind h hn).congr fun w => by rw [afterwards_nil, List.append_nil]

theorem exact_forM {act : α → Run (World σ) Unit} {trace : α → Trace σ}
    (h : ∀ a, Exact limit (act a) (trace a)) (items : List α) :
    Exact limit (items.forM act) (traceAll act trace items) := by
  induction items with
  | nil => exact exact_nil (fun _ _ => tracks_refl _) fun _ _ => rfl
  | cons a rest ih => exact exact_bind (h a) fun _ => ih

/-- Making no reactions, whether or not there is a limit, is a law of single computations. -/
def quiet (limit : Nat) : Law Unit (World σ) where
  holds act := Exact limit (act ()) fun _ => []
  answer _ := exact_nil (fun _ _ => tracks_refl _) fun _ _ => rfl
  fault _ := exact_nil (fun _ _ => tracks_refl _) fun _ _ => rfl
  bind := exact_before_quiet

/-! ## Cascades -/

variable {functions : Functions σ} {below : Level σ} {nested : Scalar → Value → Trace σ}

theorem quiet_moves {related : World σ → World σ → Prop} {act : Run (World σ) α}
    (hr : ∀ {w w' : World σ}, related w w' → Tracks w [] w') (h : Moves related act) :
    (quiet limit).holds fun _ => act :=
  exact_nil (fun w _ => hr (h.related w)) fun w _ => h.same _ w

theorem quiet_function (hf : Harmless functions) (n : Nat) (name : String) (identity : Nat)
    (args : List Value) :
    (quiet limit).holds fun _ => (level functions n).act (functions name identity args) := by
  have htame := hf.tame name identity args
  refine exact_nil (fun w hw => ?_) fun w hw => htame.same n _ w hw.onlookers
  have hbalanced : Balanced w _ := ((balanced_level functions n).act
    (functions name identity args) (.inl trivial)).ending id w
  exact tracks_nil (by rw [hbalanced.config]) hbalanced.depth (htame.onlookers n w)
    (hf.spares n name identity args w hw.onlookers)

theorem exact_applyAssignment {n : Nat} (hf : Harmless functions)
    (hw : ∀ key value,
      Exact limit ((level functions n).write key value) (nested key value)) (a : Assignment) :
    Exact limit (applyAssignment functions (level functions n) a)
      (reactionsToAssignment functions (level functions n) nested a) := by
  have hserves : Serves (quiet limit) functions fun _ => level functions n :=
    serves_of_moves (quiet_moves tracks_spent) (quiet_function hf n)
  refine exact_after_quiet (hserves.conditionHolds a) fun holds => ?_
  cases holds with
  | false => exact (quiet limit).answer ()
  | true => exact exact_after_quiet (hserves.evaluateNow a.expression) fun v => hw a.storage v

theorem exact_followOn
    (ha : ∀ a, Exact limit (applyAssignment functions below a)
      (reactionsToAssignment functions below nested a)) (change : Change) :
    Exact limit (followOn functions below change)
      (reactionsWithin functions below nested change) := by
  have hfollows : Follows (quiet limit : Law Unit (World σ)) :=
    follows_of_moves (quiet_moves tracks_spent) (quiet_moves tracks_noted)
  have hrest : ∀ assignments : List Assignment, Exact limit (do
      (assignments.filter (!·.isDeferred)).forM (applyAssignment functions below)
      (do addTargets ((← get).affected change.key assignments))
      (assignments.filter (·.isDeferred)).forM defer)
      (traceAll (applyAssignment functions below) (reactionsToAssignment functions below nested)
        (assignments.filter (!·.isDeferred))) := fun assignments =>
    exact_before_quiet (exact_forM ha _) fun _ =>
      (quiet limit).bind (hfollows.addTargets change.key assignments) fun _ =>
        (quiet limit).forM _ fun a _ => hfollows.defer a
  exact (exact_after_quiet (hfollows.record change) fun _ =>
    exact_after_quiet (hfollows.listening change.key) hrest).congr fun _ => rfl

/-- A world with a value stored, in which the change is being followed up. -/
def World.entered (w : World σ) (key : Scalar) (value : Value) : World σ :=
  { w.stored key value with depth := w.depth + 1 }

/-- One level less deep again. -/
def World.left (w : World σ) : World σ := { w with depth := w.depth - 1 }

section

variable {w : World σ} {key : Scalar} {value : Value}

theorem writeKey_unlimited (hw : w.config.maxDepth = none)
    (hl : w.store.listeners = [(.null, [(1, ())])])
    (hs : (w.store.read key).strictEquals value = false) :
    writeKey functions below key value w = Run.mapEnd World.left
      (followOn functions below ⟨key, w.store.read key, value⟩ (w.entered key value)) := by
  have hentered : (w.entered key value).config.maxDepth = none := hw
  rw [writeKey_eq hl, hs, ← followUp_unlimited hentered]
  exact onChange_eq _ _

/-- Under a limit the value is stored before the guard is asked. -/
theorem writeKey_limited (hl : w.store.listeners = [(.null, [(1, ())])])
    (hs : (w.store.read key).strictEquals value = false) (limit : Nat) :
    writeKey functions below key value (w.limited (some limit)) =
      if limit < w.depth + 1 then
        .error (.cascade key limit) ((w.stored key value).limited (some limit))
      else Run.mapEnd World.left (followOn functions below ⟨key, w.store.read key, value⟩
        ((w.entered key value).limited (some limit))) := by
  have hentered : ((w.entered key value).limited (some limit)).config.maxDepth =
      some (limit : Int) := rfl
  have hlimited : (w.limited (some limit)).store.listeners = [(.null, [(1, ())])] := hl
  have hwrite : writeKey functions below key value (w.limited (some limit)) =
      Run.mapEnd World.left (followUp functions below ⟨key, w.store.read key, value⟩
        ((w.entered key value).limited (some limit))) := by
    rw [writeKey_eq hlimited, if_neg]
    · exact onChange_eq _ _
    · exact Bool.eq_false_iff.mp hs
  have hdepth : ((w.entered key value).limited (some limit)).depth = w.depth + 1 := rfl
  rw [hwrite, followUp_limited hentered, hdepth]
  split <;> split <;> first | rfl | omega

end

/-- The reaction to a change comes before all that nest in it. -/
theorem tracks_entered {w v : World σ} {key : Scalar} {value : Value} {ms : List (Reaction σ)}
    (hw : w.isLive = true) (h : Tracks (w.entered key value) ms v) :
    Tracks w (⟨⟨key, w.store.read key, value⟩, w.stored key value, w.read_stored key value⟩ :: ms)
      v.left := by
  refine ⟨h.limit, ?_, fun ho => ?_, h.heard, h.events, fun hv => ?_,
    fun before m after hsplit => ⟨hw, ?_⟩⟩
  · change v.depth - 1 = w.depth
    rw [h.depth]
    rfl
  · have hv := h.onlookers ⟨ho.listeners, ho.effects⟩
    exact ⟨hv.listeners, hv.effects⟩
  · exact (h.history hv).trans (List.append_assoc ..)
  · cases before with
    | nil =>
      cases hsplit
      exact ⟨rfl, rfl⟩
    | cons b before =>
      cases hsplit
      obtain ⟨-, hhistory, hevents⟩ := h.recorded before m after rfl
      exact ⟨hhistory.trans (List.append_assoc ..), hevents⟩

section

variable {w : World σ} {key : Scalar} {value : Value}

/-- A write that no one follows up only has to leave the manager alike. -/
theorem exact_unheard {v : World σ}
    (hwrite : writeKey functions below key value w = .ok () v)
    (hlimited : writeKey functions below key value (w.limited (some limit)) =
      .ok () (v.limited (some limit)))
    (htrace : reactionsToWrite functions below nested key value w = []) (htracks : Tracks w [] v) :
    ExactAt limit (writeKey functions below key value)
      (reactionsToWrite functions below nested key value) w := by
  unfold ExactAt
  rw [htrace, hwrite]
  refine ⟨htracks, fun _ => .inl ⟨fun _ hm => (List.not_mem_nil hm).elim, ?_⟩⟩
  rw [hlimited, hwrite]
  rfl

/-- One that is followed up is stopped before anything else if it is too deep. If it is not, what
nests in it decides. -/
theorem exact_heard (hlimit : w.config.maxDepth = none)
    (hl : w.store.listeners = [(.null, [(1, ())])])
    (hs : (w.store.read key).strictEquals value = false)
    (hfollow : ExactAt limit (followOn functions below ⟨key, w.store.read key, value⟩)
      (reactionsWithin functions below nested ⟨key, w.store.read key, value⟩)
      (w.entered key value)) :
    ExactAt limit (writeKey functions below key value)
      (reactionsToWrite functions below nested key value) w := by
  have hlive : w.isLive = true := by
    unfold isLive
    rw [hl]
    rfl
  have htrace : reactionsToWrite functions below nested key value w =
      ⟨⟨key, w.store.read key, value⟩, w.stored key value, w.read_stored key value⟩ ::
        reactionsWithin functions below nested ⟨key, w.store.read key, value⟩
          (w.entered key value) := by
    unfold reactionsToWrite
    dsimp only
    rw [if_neg (Bool.eq_false_iff.mp hs), if_pos hlive]
    rfl
  have hwrite : writeKey functions below key value w = _ := writeKey_unlimited hlimit hl hs
  have hlimited : writeKey functions below key value (w.limited (some limit)) = _ :=
    writeKey_limited hl hs limit
  obtain ⟨htracks, hguard⟩ := hfollow
  unfold ExactAt
  rw [htrace]
  refine ⟨?_, fun hdepth => ?_⟩
  · rw [hwrite, Run.ending_mapEnd]
    exact tracks_entered hlive htracks
  · by_cases hdeep : limit < w.depth + 1
    · rw [if_pos hdeep] at hlimited
      refine .inr ⟨[], _, _, rfl, fun _ hm => (List.not_mem_nil hm).elim, ?_, hlimited⟩
      change w.depth + 1 = limit + 1
      omega
    · rw [if_neg hdeep] at hlimited
      have hentered : (w.entered key value).depth ≤ limit := Nat.le_of_not_lt hdeep
      rcases hguard hentered with hwithin | ⟨before, m, after, hsplit, hbefore, hnesting, hstop⟩
      · refine .inl ⟨fun m hm => ?_, ?_⟩
        · rcases List.mem_cons.mp hm with rfl | hm
          · exact hentered
          · exact hwithin.shallow m hm
        · rw [hlimited, hwithin.same, hwrite, Run.mapEnd_mapEnd, Run.mapEnd_mapEnd]
          rfl
      · refine .inr ⟨_ :: before, m, after, by rw [hsplit]; rfl, fun b hb => ?_, hnesting, ?_⟩
        · rcases List.mem_cons.mp hb with rfl | hb
          · exact hentered
          · exact hbefore b hb
        · rw [hlimited, hstop]
          rfl

end

/-- A write makes its own reaction, if the manager listens, and those of what is applied then. -/
theorem exact_writeKey
    (hfollow : ∀ change, Exact limit (followOn functions below change)
      (reactionsWithin functions below nested change)) (key : Scalar) (value : Value) :
    Exact limit (writeKey functions below key value)
      (reactionsToWrite functions below nested key value) := by
  intro w hw
  cases hs : (w.store.read key).strictEquals value with
  | true =>
    have hwrite : ∀ u : World σ, u.store = w.store →
        writeKey functions below key value u = .ok () u := fun u hu => by
      rw [writeKey_eq_forM, hu, if_pos hs]
    refine exact_unheard (hwrite w rfl) (hwrite _ rfl) ?_ (tracks_refl w)
    exact if_pos hs
  | false =>
    rcases hw.heard with hl | hl
    · have hdead : w.isLive = false := by
        unfold isLive
        rw [hl]
        rfl
      have hwrite : ∀ u : World σ, u.store = w.store →
          writeKey functions below key value u = .ok () (u.stored key value) := fun u hu => by
        rw [writeKey_unheard (hu ▸ hl), hu, if_neg (Bool.eq_false_iff.mp hs)]
      refine exact_unheard (hwrite w rfl) (hwrite _ rfl) ?_ ?_
      · unfold reactionsToWrite
        rw [hdead]
        exact ite_self _
      · exact ⟨rfl, rfl, fun h => ⟨h.listeners, h.effects⟩, .inr rfl, rfl,
          fun hlive => absurd (hdead.symm.trans hlive) Bool.false_ne_true,
          fun before m after hsplit => absurd hsplit.symm (by simp)⟩
    · exact exact_heard hw.limit hl hs (hfollow _ _
        ⟨hw.limit, ⟨hw.onlookers.listeners, hw.onlookers.effects⟩, hw.heard⟩)

/-! ## Transactions -/

theorem exact_write (hf : Harmless functions) (n : Nat) (key : Scalar) (value : Value) :
    Exact limit ((level functions n).write key value) (reactions functions n key value) := by
  induction n generalizing key value with
  | zero => exact exact_nil (fun w _ => tracks_refl w) fun _ _ => rfl
  | succ n ih =>
    exact exact_writeKey (exact_followOn (exact_applyAssignment hf ih)) key value

theorem exact_writes (hf : Harmless functions) (n : Nat) (o : Opening) :
    Exact limit (o.writes functions (level functions n)) (o.reactions functions n) := by
  have happly : ∀ a, Exact limit (applyAssignment functions (level functions n) a) _ :=
    exact_applyAssignment hf (exact_write hf n)
  have hwrite := exact_writeKey (exact_followOn happly)
  cases o with
  | patch p =>
    have hpatch : ∀ r, Exact limit (Run.ofExcept r >>= writePatch functions (level functions n))
        (match r with
          | .ok entries => traceAll (fun e => writeKey functions (level functions n) e.1 e.2)
            (fun e => reactionsToWrite functions (level functions n) (reactions functions n)
              e.1 e.2) entries
          | .error _ => fun _ => []) := by
      intro r
      cases r with
      | ok entries => exact exact_forM (fun e => hwrite e.1 e.2) entries
      | error f => exact exact_nil (fun w _ => tracks_refl w) fun _ _ => rfl
    exact hpatch _
  | slot control value =>
    have hslot : ∀ r, Exact limit
        (Run.ofExcept r >>= fun key => writeKey functions (level functions n) key value)
        (match r with
          | .ok key =>
            reactionsToWrite functions (level functions n) (reactions functions n) key value
          | .error _ => fun _ => []) := by
      intro r
      cases r with
      | ok key => exact hwrite key value
      | error f => exact exact_nil (fun w _ => tracks_refl w) fun _ _ => rfl
    exact hslot _
  | deferral d => exact happly d.assignment

end

end Switchboard.Manager
