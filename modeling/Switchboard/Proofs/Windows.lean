-- Windows of time side by side. The loop of an advance runs what is due up to a deadline. Where the
-- clock stands when it begins is of no matter, and a larger bound changes nothing, so that to go up
-- to one deadline and then on to a later one is to go up to the later one at once.
import Mathlib.Algebra.Order.Group.Defs
import Switchboard.Proofs.Queue
namespace Switchboard

/-! ## Parts and bounds -/

/-- What is written is what is read, and of two writes the second counts. -/
structure Part.Lawful {ω α : Type} (part : Part ω α) : Prop where
  view_replace : ∀ a w, part.view (part.replace a w) = a
  replace_view : ∀ w, part.replace (part.view w) w = w
  replace_replace : ∀ a b w, part.replace a (part.replace b w) = part.replace a w

namespace Run

variable {ω α β : Type}

/-- Two computations that come to the same are followed by the same. -/
theorem bind_eq {act act' : Run ω α} {next : α → Run ω β} {w w' : ω} (h : act w = act' w') :
    (act >>= next) w = (act' >>= next) w' := by
  change EStateM.bind act next w = EStateM.bind act' next w'
  unfold EStateM.bind
  rw [h]

/-- Is a result the other one, unless a bound was used up short of it? -/
def ShortOf (r r' : EStateM.Result Fault ω α) : Prop := r = r' ∨ ∃ w, r = .error .exhausted w

theorem ShortOf.trans {r r' r'' : EStateM.Result Fault ω α} (h : ShortOf r r')
    (h' : ShortOf r' r'') : ShortOf r r'' := by
  rcases h with rfl | h
  · exact h'
  · exact .inr h

theorem ShortOf.ok {r r' : EStateM.Result Fault ω α} (h : ShortOf r r') {a : α} {w : ω}
    (hr : r = .ok a w) : r' = .ok a w := by
  subst hr
  rcases h with h | ⟨w', h⟩
  · exact h.symm
  · cases h

end Run

namespace Scheduler

open Conduct Run

/-! ## Where the clock stands -/

section

variable {τ ψ ω : Type}

/-- The state with the clock set. -/
def clockAt (part : Part ω (Scheduler τ ψ)) (now : τ) (w : ω) : ω :=
  part.replace { part.view w with now } w

variable {part : Part ω (Scheduler τ ψ)} (hp : part.Lawful)

include hp

theorem view_clockAt (now : τ) (w : ω) :
    part.view (clockAt part now w) = { part.view w with now } := hp.view_replace ..

/-- Where the clock stood before does not show in what is written with a new time. -/
theorem replace_clockAt (s : Scheduler τ ψ) (now : τ) (w : ω) :
    part.replace s (clockAt part now w) = part.replace s w := hp.replace_replace ..

theorem clockAt_now (w : ω) : clockAt part (part.view w).now w = w := hp.replace_view w

end

variable {τ ψ ω : Type} [Preorder τ] [DecidableLE τ] [DecidableLT τ]
  {part : Part ω (Scheduler τ ψ)} {fire : ψ → Run ω Unit} {deadline : τ}

/-- To start a live task and to arrive set the clock, and to let a cancelled task go leaves it. -/
theorem advanceTo_clockAt (hp : part.Lawful) (n : Nat) (a b : τ) (w : ω) :
    ShortOf (advanceTo part fire deadline n (clockAt part a w))
      (advanceTo part fire deadline n (clockAt part b w)) := by
  induction n generalizing w with
  | zero => exact .inr ⟨_, rfl⟩
  | succ n ih =>
    have htop : ∀ now, (part.view (clockAt part now w)).queue = (part.view w).queue :=
      fun now => by rw [view_clockAt hp]
    rcases turn_cases (part.view w) deadline with ⟨t, ht, hd, hc⟩ | ⟨t, ht, hd, hc⟩ | hidle
    · have hdropped : ∀ now, advanceTo part fire deadline (n + 1) (clockAt part now w) =
          advanceTo part fire deadline n (clockAt part now
            (part.replace { part.view w with queue := (part.view w).rest } w)) := by
        intro now
        rw [advanceTo_dropped n ((congrArg _ (htop now)).trans ht) hd hc, replace_clockAt hp,
          view_clockAt hp]
        unfold clockAt
        rw [hp.view_replace, hp.replace_replace]
        rfl
      rw [hdropped, hdropped]
      exact ih _
    · have hstarted : ∀ now, advanceTo part fire deadline (n + 1) (clockAt part now w) =
          advanceTo part fire deadline (n + 1) w := by
        intro now
        rw [advanceTo_started n ((congrArg _ (htop now)).trans ht) hd hc, replace_clockAt hp,
          view_clockAt hp, advanceTo_started n ht hd hc]
        rfl
      exact .inl ((hstarted a).trans (hstarted b).symm)
    · have harrived : ∀ now, advanceTo part fire deadline (n + 1) (clockAt part now w) =
          advanceTo part fire deadline (n + 1) w := by
        intro now
        rw [advanceTo_arrived n fun t ht => hidle t ((congrArg _ (htop now)).symm.trans ht),
          replace_clockAt hp, view_clockAt hp, advanceTo_arrived n hidle]
      exact .inl ((harrived a).trans (harrived b).symm)

/-- The loop ends where what comes next is not due, and sets the clock to the deadline. -/
theorem advanceTo_ok (n : Nat) {w v : ω} {ran : Nat}
    (h : advanceTo part fire deadline n w = .ok ran v) :
    ∃ u, (∀ t, (part.view u).queue.top? = some t → ¬ t.due ≤ deadline) ∧
      v = clockAt part deadline u := by
  induction n generalizing w ran with
  | zero => cases h
  | succ n ih =>
    rcases turn_cases (part.view w) deadline with ⟨t, ht, hd, hc⟩ | ⟨t, ht, hd, hc⟩ | hidle
    · rw [advanceTo_dropped n ht hd hc] at h
      exact ih h
    · rw [advanceTo_started n ht hd hc] at h
      obtain ⟨_, u, -, h⟩ := bind_ok_inv h
      obtain ⟨_, u', hrest, h⟩ := bind_ok_inv h
      cases h
      exact ih hrest
    · rw [advanceTo_arrived n hidle] at h
      cases h
      exact ⟨w, hidle, rfl⟩

/-- The clock stands at the deadline in the end. -/
theorem now_of_advanceTo (hp : part.Lawful) (n : Nat) {w v : ω} {ran : Nat}
    (h : advanceTo part fire deadline n w = .ok ran v) : (part.view v).now = deadline := by
  obtain ⟨u, -, rfl⟩ := advanceTo_ok n h
  rw [view_clockAt hp]

/-- What comes next then is not due. -/
theorem idle_of_advanceTo (hp : part.Lawful) (n : Nat) {w v : ω} {ran : Nat}
    (h : advanceTo part fire deadline n w = .ok ran v) :
    ∀ t, (part.view v).queue.top? = some t → ¬ t.due ≤ deadline := by
  obtain ⟨u, hidle, rfl⟩ := advanceTo_ok n h
  rw [view_clockAt hp]
  exact hidle

/-! ## Larger bounds -/

theorem guarded_advanceTo_le {n k : Nat} (h : n ≤ k) :
    Guarded (advanceTo part fire deadline n) (advanceTo part fire deadline k) := by
  induction n generalizing k with
  | zero => exact fun w => .inr ⟨w, rfl⟩
  | succ n ih =>
    obtain ⟨k, rfl⟩ : ∃ j, k = j + 1 := ⟨k - 1, by omega⟩
    have hrest := ih (Nat.le_of_succ_le_succ h)
    unfold advanceTo
    refine guarded_bind (guarded_refl _) fun s => ?_
    cases s.queue.top? with
    | none => exact guarded_refl _
    | some t =>
      dsimp only
      split
      · split
        · exact guarded_bind (guarded_refl _) fun _ => hrest
        · exact guarded_bind (guarded_refl _) fun _ => guarded_bind (guarded_refl _) fun _ =>
            guarded_bind hrest fun _ => guarded_refl _
      · exact guarded_refl _

/-! ## From one window to the next -/

/-- Go up to one deadline, and then on to another. -/
def onward (part : Part ω (Scheduler τ ψ)) (fire : ψ → Run ω Unit) (deadline later : τ)
    (n k : Nat) : Run ω Nat := do
  let ran ← advanceTo part fire deadline n
  return ran + (← advanceTo part fire later k)

variable {later : τ}

section

variable {w : ω} {t : Task τ ψ} (n k : Nat)

theorem onward_arrived (h : ∀ t, (part.view w).queue.top? = some t → ¬ t.due ≤ deadline) :
    onward part fire deadline later (n + 1) k w =
      advanceTo part fire later k (clockAt part deadline w) := by
  unfold onward
  rw [bind_ok (advanceTo_arrived n h)]
  simp only [Nat.zero_add, bind_pure]
  rfl

theorem onward_dropped (ht : (part.view w).queue.top? = some t) (hd : t.due ≤ deadline)
    (hc : t.cancelled = true) :
    onward part fire deadline later (n + 1) k w = onward part fire deadline later n k
      (part.replace { part.view w with queue := (part.view w).rest } w) := by
  unfold onward
  exact bind_eq (advanceTo_dropped n ht hd hc)

theorem onward_started (ht : (part.view w).queue.top? = some t) (hd : t.due ≤ deadline)
    (hc : t.cancelled = false) :
    onward part fire deadline later (n + 1) k w = (do
      fire t.payload
      return (← onward part fire deadline later n k) + 1)
      (part.replace { part.view w with now := t.due, queue := (part.view w).rest } w) := by
  unfold onward
  rw [bind_eq (advanceTo_started n ht hd hc)]
  simp only [bind_assoc, pure_bind, Nat.add_right_comm]

end

/-- What comes to an end in one window comes to the same in two. -/
theorem advanceTo_onward (hp : part.Lawful) (hle : deadline ≤ later) {n k : Nat} (hn : n ≤ k)
    (w : ω) :
    ShortOf (advanceTo part fire later n w) (onward part fire deadline later n k w) := by
  -- Both take the same turns up to the first deadline. There the second window opens in a state
  -- that differs by the clock, and with a bound that is larger than what is left of the other.
  induction n generalizing w with
  | zero => exact .inr ⟨_, rfl⟩
  | succ n ih =>
    have hrest := ih (Nat.le_of_succ_le hn)
    rcases turn_cases (part.view w) deadline with ⟨t, ht, hd, hc⟩ | ⟨t, ht, hd, hc⟩ | hidle
    · rw [advanceTo_dropped n ht (le_trans hd hle) hc, onward_dropped n k ht hd hc]
      exact hrest _
    · rw [advanceTo_started n ht (le_trans hd hle) hc, onward_started n k ht hd hc]
      exact guarded_bind (guarded_refl _) (fun _ => guarded_bind hrest fun _ => guarded_refl _) _
    · rw [onward_arrived n k hidle]
      have hclock : ShortOf (advanceTo part fire later k w)
          (advanceTo part fire later k (clockAt part deadline w)) := by
        rw [← congrArg (advanceTo part fire later k) (clockAt_now hp w)]
        exact advanceTo_clockAt hp k _ deadline w
      exact .trans (guarded_advanceTo_le hn w) hclock

/-- What comes to an end in two windows comes to the same in one. -/
theorem onward_advanceTo (hp : part.Lawful) (hle : deadline ≤ later) (n k : Nat) (w : ω) :
    ShortOf (onward part fire deadline later n k w) (advanceTo part fire later (n + k) w) := by
  induction n generalizing w with
  | zero => exact .inr ⟨w, rfl⟩
  | succ n ih =>
    rw [Nat.add_right_comm]
    rcases turn_cases (part.view w) deadline with ⟨t, ht, hd, hc⟩ | ⟨t, ht, hd, hc⟩ | hidle
    · rw [advanceTo_dropped _ ht (le_trans hd hle) hc, onward_dropped n k ht hd hc]
      exact ih _
    · rw [advanceTo_started _ ht (le_trans hd hle) hc, onward_started n k ht hd hc]
      exact guarded_bind (guarded_refl _) (fun _ => guarded_bind ih fun _ => guarded_refl _) _
    · rw [onward_arrived n k hidle]
      have hclock : ShortOf (advanceTo part fire later k (clockAt part deadline w))
          (advanceTo part fire later k w) := by
        rw [← congrArg (advanceTo part fire later k) (clockAt_now hp w)]
        exact advanceTo_clockAt hp k deadline _ w
      exact .trans hclock (guarded_advanceTo_le (by omega) w)

/-! ## Two advances -/

section

variable {G : Type} [AddCommGroup G] [LinearOrder G]

/-- Move the clock forward twice. -/
def inTwo (part : Part ω (Scheduler G ψ)) (fire : ψ → Run ω Unit) (bound : Nat) (a b : G) :
    Run ω Nat := do
  let ran ← advance part fire bound a
  return ran + (← advance part fire bound b)

variable {part : Part ω (Scheduler G ψ)} {fire : ψ → Run ω Unit}

/-- The second advance begins where the first one ends. -/
theorem inTwo_eq (hp : part.Lawful) (bound : Nat) (a b : G) (w : ω) :
    inTwo part fire bound a b w = onward part fire ((part.view w).now + a)
      ((part.view w).now + a + b) bound bound w := by
  have hfirst : advance part fire bound a w =
      advanceTo part fire ((part.view w).now + a) bound w := rfl
  unfold inTwo onward
  rw [bind_eq hfirst]
  cases hr : advanceTo part fire ((part.view w).now + a) bound w with
  | error f v => rw [bind_error hr, bind_error hr]
  | ok ran v =>
    have hsecond : advance part fire bound b v =
        advanceTo part fire ((part.view w).now + a + b) bound v := by
      rw [← now_of_advanceTo hp bound hr]
      rfl
    rw [bind_ok hr, bind_ok hr]
    exact bind_eq hsecond

theorem advance_add (bound : Nat) (a b : G) (w : ω) :
    advance part fire bound (a + b) w =
      advanceTo part fire ((part.view w).now + a + b) bound w := by
  rw [add_assoc]
  rfl

variable [IsOrderedAddMonoid G] {a b : G}

theorem advance_inTwo (hp : part.Lawful) (hb : 0 ≤ b) (bound : Nat) (w : ω) :
    ShortOf (advance part fire bound (a + b) w) (inTwo part fire bound a b w) := by
  rw [advance_add, inTwo_eq hp]
  exact advanceTo_onward hp (le_add_of_nonneg_right hb) le_rfl w

theorem inTwo_advance (hp : part.Lawful) (hb : 0 ≤ b) (bound : Nat) (w : ω) :
    ShortOf (inTwo part fire bound a b w) (advance part fire (bound + bound) (a + b) w) := by
  rw [advance_add, inTwo_eq hp]
  exact onward_advanceTo hp (le_add_of_nonneg_right hb) bound bound w

end

end Scheduler
end Switchboard
