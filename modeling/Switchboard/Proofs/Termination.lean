-- Cascades end. Under a limit of depth every level of a cascade is one less deep than the limit
-- allows, and on each level there are only so many assignments to apply. So a transaction comes to
-- its end under all bounds that are large enough, however the assignments hang together.
import Switchboard.Proofs.Aborted
namespace Switchboard

/-! ## Computations under growing bounds -/

section

variable {ω α β : Type}

/-- Does a computation come to this end, whatever the bound, if it is large enough? -/
def Settles (act : Nat → Run ω α) (w : ω) (r : EStateM.Result Fault ω α) : Prop :=
  Finishes r ∧ ∃ least, ∀ n, least ≤ n → act n w = r

/-- Does a computation come to some end, and then to one of these states? -/
def SettlesIn (inv : ω → Prop) (act : Nat → Run ω α) (w : ω) : Prop :=
  ∃ r, Settles act w r ∧ inv (Run.ending r)

variable {inv : ω → Prop}

/-- What no bound matters for need only finish. -/
theorem settlesIn_of_finishes {act : Run ω α} {w : ω} (h : Finishes (act w))
    (hend : inv (Run.ending (act w))) : SettlesIn inv (fun _ => act) w :=
  ⟨act w, ⟨h, 0, fun _ _ => rfl⟩, hend⟩

/-- Where a computation goes on as another does, if the bound is large, it settles with it. -/
theorem settlesIn_after {act : Nat → Run ω α} {rest : Nat → Run ω α} {w w' : ω} (least : Nat)
    (h : ∀ n, least ≤ n → act n w = rest n w') (hs : SettlesIn inv rest w') :
    SettlesIn inv act w := by
  obtain ⟨r, ⟨hfinishes, least', hr⟩, hend⟩ := hs
  refine ⟨r, ⟨hfinishes, max least least', fun n hn => ?_⟩, hend⟩
  exact (h n (Nat.le_trans (Nat.le_max_left _ _) hn)).trans
    (hr n (Nat.le_trans (Nat.le_max_right _ _) hn))

theorem settlesIn_congr {act act' : Nat → Run ω α} {w w' : ω} (h : ∀ n, act n w = act' n w')
    (hs : SettlesIn inv act' w') : SettlesIn inv act w := settlesIn_after 0 (fun n _ => h n) hs

theorem settlesIn_bind {act : Nat → Run ω α} {next : Nat → α → Run ω β} {w : ω}
    (h : SettlesIn inv act w)
    (hn : ∀ a w', inv w' → SettlesIn inv (fun n => next n a) w') :
    SettlesIn inv (fun n => act n >>= next n) w := by
  obtain ⟨r, ⟨hfinishes, least, hr⟩, hend⟩ := h
  cases r with
  | error f w' =>
    exact ⟨.error f w', ⟨hfinishes, least, fun n hn => Conduct.bind_error (hr n hn)⟩, hend⟩
  | ok a w' =>
    exact settlesIn_after least (fun n hle => Conduct.bind_ok (hr n hle)) (hn a w' hend)

/-- What settles one level deeper settles. -/
theorem settlesIn_succ {act : Nat → Run ω α} {w : ω} (h : SettlesIn inv (fun n => act (n + 1)) w) :
    SettlesIn inv act w := by
  obtain ⟨r, ⟨hfinishes, least, hr⟩, hend⟩ := h
  refine ⟨r, ⟨hfinishes, least + 1, fun n hn => ?_⟩, hend⟩
  cases n with
  | zero => omega
  | succ n => exact hr n (by omega)

/-- What follows a look at the state is known to start in it. -/
theorem settlesIn_get {next : Nat → ω → Run ω β} {w : ω}
    (h : SettlesIn inv (fun n => next n w) w) : SettlesIn inv (fun n => get >>= next n) w := h

theorem settlesIn_mapEnd {inv' : ω → Prop} {act : Nat → Run ω α} {w : ω} {change : ω → ω}
    (h : SettlesIn inv act w) (hchange : ∀ v, inv v → inv' (change v)) :
    SettlesIn inv' (fun n v => Run.mapEnd change (act n v)) w := by
  obtain ⟨r, ⟨hfinishes, least, hr⟩, hend⟩ := h
  refine ⟨Run.mapEnd change r, ⟨?_, least, fun n hn => congrArg _ (hr n hn)⟩, ?_⟩
  · cases r <;> exact hfinishes
  · cases r <;> exact hchange _ hend

/-- Coming to an end is a law of computations under growing bounds. -/
def settling (inv : ω → Prop) : Law Nat ω where
  holds act := ∀ w, inv w → SettlesIn inv act w
  answer _ _ hw := settlesIn_of_finishes trivial hw
  fault hf _ hw := settlesIn_of_finishes hf hw
  bind h hn w hw := settlesIn_bind (h w hw) fun a w' hw' => hn a w' hw'

theorem settling_modify {change : ω → ω} (h : ∀ w, inv w → inv (change w)) :
    (settling inv).holds fun _ => (modify change : Run ω Unit) :=
  fun w hw => settlesIn_of_finishes trivial (h w hw)

end

namespace Manager

open World Conduct

variable {σ : Type} {functions : Functions σ} {inv : World σ → Prop}

/-! ## Evaluations and what follows a change -/

theorem settling_moves {related : World σ → World σ → Prop} {α : Type} {act : Run (World σ) α}
    (hr : ∀ {w w' : World σ}, related w w' → inv w → inv w') (h : Moves related act) :
    (settling inv).holds fun _ => act :=
  fun w hw => settlesIn_of_finishes (h.finishes w) (hr (h.related w) hw)

/-! ## Those who only look on -/

/-- Does a program give no command that writes, nor one with a call-back that does? It may register,
subscribe and read. -/
def WritesNothing : Act σ → Prop
  | .done _ => True
  | .fail f => f ≠ .exhausted
  | .note _ next => ∀ s, WritesNothing (next s)
  | .perform command callback next =>
    command.isWrite = false ∧ (∀ a, WritesNothing (callback a)) ∧
      ∀ r, Ordinary r → WritesNothing (next r)

def Listener.WritesNothing : Listener σ → Prop
  | .host program => ∀ event, Manager.WritesNothing (program event)
  | .bridge _ => True

def EffectsWriteNothing (s : Signals (Value → Act σ)) : Prop :=
  ∀ e ∈ s.effects, ∀ v, WritesNothing (e.callback v)

/-- Do all whom a manager calls when a transaction is over only look on? -/
structure World.Onlookers (w : World σ) : Prop where
  listeners : ∀ l ∈ w.listeners.values, l.WritesNothing
  effects : EffectsWriteNothing w.signals

theorem World.Onlookers.spent {w w' : World σ} (h : w.Spent w') (hw : w.Onlookers) :
    w'.Onlookers := by
  obtain ⟨_, _, _, _, _, _, rfl, -⟩ := h
  exact ⟨hw.listeners, hw.effects⟩

/-- Does a computation come to an end where others only look on, which they still do then, and does
no limit matter for it? -/
structure Tame {α : Type} (act : Nat → Run (World σ) α) : Prop where
  ends : ∀ w : World σ, w.Onlookers → ∃ r, Settles act w r
  same : ∀ n limit (w : World σ), w.Onlookers →
    act n (w.limited limit) = Run.mapEnd (World.limited limit) (act n w)
  onlookers : ∀ n (w : World σ), w.Onlookers → (Run.ending (act n w)).Onlookers

/-- Is the state as it was, or at most without its listener, and has no event been told? -/
structure Spared (w w' : World σ) : Prop where
  store : w'.store = w.store ∨ w'.store = w.store.dispose
  events : w'.events = w.events

theorem Spared.trans {w u w' : World σ} (h : Spared w u) (h' : Spared u w') : Spared w w' := by
  refine ⟨?_, h'.events.trans h.events⟩
  rcases h.store with hu | hu <;> rcases h'.store with hw | hw <;> rw [hw, hu]
  · exact .inl rfl
  · exact .inr rfl
  · exact .inr rfl
  · exact .inr rfl

theorem World.Spent.spared {w w' : World σ} (h : w.Spent w') : Spared w w' := by
  obtain ⟨_, _, _, _, _, _, rfl, -⟩ := h
  exact ⟨.inl rfl, rfl⟩

/-- Do the functions of a host no more than compute and look on? -/
structure Harmless (functions : Functions σ) : Prop where
  tame : ∀ name identity args, Tame fun n => (level functions n).act (functions name identity args)
  spares : ∀ n name identity args (w : World σ), w.Onlookers →
    Spared w (Run.ending ((level functions n).act (functions name identity args) w))

/-- A manager with this limit, where changes are followed up at this depth and others look on. -/
structure Placed (limit depth : Nat) (w : World σ) : Prop where
  limit : w.config.maxDepth = some (limit : Int)
  depth : w.depth = depth
  onlookers : w.Onlookers

theorem Placed.spent {limit depth : Nat} {w w' : World σ} (h : w.Spent w')
    (hw : Placed limit depth w) : Placed limit depth w' := by
  have honlookers := hw.onlookers.spent h
  obtain ⟨_, _, _, _, _, _, rfl, -⟩ := h
  exact ⟨hw.limit, hw.depth, honlookers⟩

theorem Placed.noted {limit depth : Nat} {w w' : World σ} (h : w.Noted w')
    (hw : Placed limit depth w) : Placed limit depth w' := by
  obtain ⟨_, rfl⟩ := h
  exact ⟨hw.limit, hw.depth, hw.onlookers.listeners, hw.onlookers.effects⟩

theorem settling_tame {α : Type} {act : Nat → Run (World σ) α} (h : Tame act) :
    (settling World.Onlookers).holds act := by
  intro w hw
  obtain ⟨r, hfinishes, least, hr⟩ := h.ends w hw
  refine ⟨r, ⟨hfinishes, least, hr⟩, ?_⟩
  rw [← hr least (Nat.le_refl least)]
  exact h.onlookers least w hw

theorem settling_function (hf : Harmless functions) {limit depth : Nat} (name : String)
    (identity : Nat) (args : List Value) :
    (settling (Placed limit depth)).holds fun n =>
      (level functions n).act (functions name identity args) := by
  intro w hw
  obtain ⟨r, ⟨hfinishes, least, hr⟩, honlookers⟩ :=
    settling_tame (hf.tame name identity args) w hw.onlookers
  refine ⟨r, ⟨hfinishes, least, hr⟩, ?_⟩
  have hbalanced : Balanced w (Run.ending r) := by
    rw [← hr least (Nat.le_refl least)]
    exact ((balanced_level functions least).act _ (.inl trivial)).ending id w
  exact ⟨by rw [hbalanced.config, hw.limit], hbalanced.depth.trans hw.depth, honlookers⟩

/-! ## Cascades -/

section

variable {limit : Nat}

/-- A change settles if it is too deep, or if all does that is applied one level deeper. -/
theorem settles_onChange {below : Nat → Level σ} {depth : Nat}
    (ha : depth + 1 ≤ limit → ∀ a, (settling (Placed limit (depth + 1))).holds fun n =>
      applyAssignment functions (below n) a) (change : Change) :
    (settling (Placed limit depth)).holds fun n => onChange functions (below n) change := by
  intro w hw
  have hdeeper : Placed limit (depth + 1) { w with depth := w.depth + 1 } :=
    ⟨hw.limit, by rw [hw.depth], hw.onlookers.listeners, hw.onlookers.effects⟩
  have hfollow : SettlesIn (Placed limit (depth + 1))
      (fun n => followUp functions (below n) change) { w with depth := w.depth + 1 } := by
    by_cases hle : depth + 1 ≤ limit
    · have hfollows := (follows_of_moves (settling_moves Placed.spent)
        (settling_moves Placed.noted)).followOn (ha hle) change
      refine settlesIn_congr (fun n => ?_) (hfollows _ hdeeper)
      rw [followUp_limited hdeeper.limit, if_neg]
      rw [hdeeper.depth]
      omega
    · have hfault : SettlesIn (Placed limit (depth + 1))
          (fun _ => (throw (.cascade change.key limit) : Run (World σ) Unit))
          { w with depth := w.depth + 1 } :=
        settlesIn_of_finishes (ordinary_cascade change.key limit) hdeeper
      refine settlesIn_congr (fun n => ?_) hfault
      rw [followUp_limited hdeeper.limit, if_pos]
      · rfl
      · rw [hdeeper.depth]
        omega
  refine settlesIn_congr (fun n => onChange_eq change w) (settlesIn_mapEnd hfollow fun v hv => ?_)
  refine ⟨hv.limit, ?_, hv.onlookers.listeners, hv.onlookers.effects⟩
  rw [hv.depth]
  rfl

theorem settles_writeKey {below : Nat → Level σ} {depth : Nat}
    (ha : depth + 1 ≤ limit → ∀ a, (settling (Placed limit (depth + 1))).holds fun n =>
      applyAssignment functions (below n) a) (key : Scalar) (value : Value) :
    (settling (Placed limit depth)).holds fun n => writeKey functions (below n) key value := by
  intro w hw
  cases hs : (w.store.read key).strictEquals value with
  | true =>
    refine settlesIn_congr (fun n => ?_) ((settling _).answer () w hw)
    rw [writeKey_eq_forM, hs]
    rfl
  | false =>
    have htold : (settling (Placed limit depth)).holds fun n => (w.store.hearers key).forM fun _ =>
        onChange functions (below n) ⟨key, w.store.read key, value⟩ :=
      (settling _).forM _ fun _ _ => settles_onChange ha _
    have hstored : Placed limit depth (w.stored key value) :=
      ⟨hw.limit, hw.depth, hw.onlookers.listeners, hw.onlookers.effects⟩
    refine settlesIn_congr (fun n => ?_) (htold _ hstored)
    rw [writeKey_eq_forM, hs]
    rfl

theorem settles_applyAssignment (hf : Harmless functions) {depth : Nat}
    (hw : ∀ key value, (settling (Placed limit depth)).holds fun n =>
      writeKey functions (level functions n) key value) (a : Assignment) :
    (settling (Placed limit depth)).holds fun n =>
      applyAssignment functions (level functions n) a := by
  have hserves : Serves (settling (Placed limit depth)) functions
      (level functions) := serves_of_moves (settling_moves Placed.spent) (settling_function hf)
  exact hserves.applyAssignment (fun key value w hp => settlesIn_succ (hw key value w hp)) a

/-- Every write settles, whatever nests in it. The induction is on how much deeper changes may nest:
at the limit there is nothing to follow up. -/
theorem settles_write (hf : Harmless functions) (room : Nat) :
    ∀ depth, limit - depth = room → ∀ key value,
      (settling (Placed limit depth)).holds fun n =>
        writeKey functions (level functions n) key value := by
  induction room with
  | zero =>
    intro depth hroom
    exact settles_writeKey fun hle => absurd hle (by omega)
  | succ room ih =>
    intro depth hroom
    exact settles_writeKey fun _ => settles_applyAssignment hf (ih (depth + 1) (by omega))

theorem settles_writes (hf : Harmless functions) (o : Opening) {depth : Nat} :
    (settling (Placed limit depth)).holds fun n =>
      o.writes functions (level functions n) := by
  have hwrite : ∀ key value, (settling (Placed limit depth)).holds fun n =>
      writeKey functions (level functions n) key value := settles_write hf _ depth rfl
  cases o with
  | patch p =>
    exact (settling _).bind ((settling _).ofExcept (Store.ordinary_patchOf p)) fun entries =>
      (settling _).forM entries fun e _ => hwrite e.1 e.2
  | slot control value =>
    exact (settling _).bind ((settling _).ofExcept control.storage.ordinary_asKey) fun key =>
      hwrite key value
  | deferral d => exact settles_applyAssignment hf hwrite d.assignment

/-- So does a transaction that is opened from outside, with the telling of its event. -/
theorem settles_opening (hf : Harmless functions) {o : Opening} (ho : o.isAllowed = true)
    {w : World σ} {depth : Nat} (hw : Placed limit depth w)
    (hopen : w.inTransaction = false)
    (hl : ∀ l : Listener σ, l.WritesNothing → ∀ event,
      Tame fun n => deliver functions (level functions n) l event) (bound : Nat) :
    ∃ r, Settles (fun n => o.run functions (level functions n) bound) w r := by
  have hbegun : Placed limit depth (o.begun w) := by
    cases o <;> exact ⟨hw.limit, hw.depth, ⟨hw.onlookers.listeners, hw.onlookers.effects⟩⟩
  obtain ⟨r, ⟨hfinishes, least, hr⟩, hend⟩ := settles_writes hf o _ hbegun
  cases r with
  | error f v =>
    refine ⟨.error f { v with inTransaction := false }, hfinishes, least, fun n hn => ?_⟩
    have hwritten : o.writes functions (level functions n) (o.begun w) = .error f v := hr n hn
    exact (Opening.run_begun ho bound hopen).trans (by rw [hwritten])
  | ok a v =>
    have htold : (settling World.Onlookers).holds fun n =>
        v.listeners.values.forM fun l => deliver functions (level functions n) l
          (v.changes.toEvent o.isDelayed) :=
      (settling _).forM _ fun l hm => settling_tame (hl l (hend.onlookers.listeners l hm) _)
    obtain ⟨r', ⟨hfinishes', least', hr'⟩, -⟩ := htold { v with
      inTransaction := false
      events := v.events ++ [v.changes.toEvent o.isDelayed] }
      ⟨hend.onlookers.listeners, hend.onlookers.effects⟩
    refine ⟨if v.changes.isEmpty then .ok () { v with inTransaction := false } else r', ?_,
      max least least', fun n hn => ?_⟩
    · split
      · trivial
      · exact hfinishes'
    · have hwritten : o.writes functions (level functions n) (o.begun w) = .ok a v :=
        hr n (Nat.le_trans (Nat.le_max_left _ _) hn)
      have hdispatched : dispatch functions (level functions n) (v.changes.toEvent o.isDelayed)
        { v with inTransaction := false } = r' := hr' n (Nat.le_trans (Nat.le_max_right _ _) hn)
      exact (Opening.run_begun ho bound hopen).trans (by rw [hwritten, ← hdispatched])

end

end Manager
end Switchboard
