-- Two runs in lockstep, of which the second lacks a task of the first. The task may wait in the
-- first queue, cancelled or not, as long as it does not start: a loop of the clock passes over it,
-- and takes one step where the other run takes none. All other steps are taken by both.
import Switchboard.Proofs.Idle
import Switchboard.Proofs.Omission
namespace Switchboard.Scheduler

open Conduct Chronicle

/-! ## Two runs side by side -/

section

variable {τ σ α β : Type} [LinearOrder τ] {k : Nat}

/-- Has the second run come as far as the first one, from which only the task of number `k` is
missing? The clocks may differ. -/
structure Along (k : Nat) (w : Chronicle τ σ) (w' : Chronicle τ (Omitting σ)) : Prop where
  lacks : Lacks k w.session.scheduler w'.session.scheduler
  host : w'.session.host.host = w.session.host
  submissions : w'.session.host.submissions = w.session.scheduler.nextSerial
  withdrawn : w'.session.host.withdrawn = true → k < w'.session.host.submissions
  waits : w'.session.host.waits k = holds k w.session.scheduler
  starts : startsOf w.log = (startsOf w'.log).map fun e => (raised k e.1, e.2)

structure Beside (k : Nat) (w : Chronicle τ σ) (w' : Chronicle τ (Omitting σ)) : Prop
    extends Along k w w' where
  now : w'.session.scheduler.now = w.session.scheduler.now

namespace Along

variable {w u : Chronicle τ σ} {w' u' : Chronicle τ (Omitting σ)}

/-- Where neither a host nor what has started changes, the queues decide. -/
theorem moved (h : Along k w w') (hl : Lacks k u.session.scheduler u'.session.scheduler)
    (hhost : u.session.host = w.session.host) (hhost' : u'.session.host = w'.session.host)
    (hnext : u.session.scheduler.nextSerial = w.session.scheduler.nextSerial)
    (hholds : holds k u.session.scheduler = holds k w.session.scheduler)
    (hstarts : startsOf u.log = startsOf w.log) (hstarts' : startsOf u'.log = startsOf w'.log) :
    Along k u u' := by
  refine ⟨hl, ?_, ?_, ?_, ?_, ?_⟩
  · rw [hhost, hhost', h.host]
  · rw [hhost', hnext, h.submissions]
  · rw [hhost']
    exact h.withdrawn
  · rw [hhost', hholds, h.waits]
  · rw [hstarts, hstarts', h.starts]

/-- Entering what starts no task changes nothing. -/
theorem entered (h : Along k w w') {what what' : Happening τ} {running running' : List τ}
    (hs : Entry.start? ⟨what, ⟨w.session.scheduler, running⟩⟩ = none)
    (hs' : Entry.start? ⟨what', ⟨w'.session.scheduler, running'⟩⟩ = none) :
    Along k (w.entered what ⟨w.session.scheduler, running⟩)
      (w'.entered what' ⟨w'.session.scheduler, running'⟩) :=
  h.moved h.lacks rfl rfl rfl rfl (startsOf_silent hs) (startsOf_silent hs')

variable {t : Task τ (Program (interface τ) σ)}

/-- A cancelled task `k` is let go where it waits. -/
theorem passed (h : Along k w w') (ht : w.session.scheduler.queue.top? = some t)
    (hk : t.serial = k) (hc : t.cancelled = true) :
    Along k (w.entered (.dropped t.serial)
      ⟨{ w.session.scheduler with queue := w.session.scheduler.rest }, w.running⟩) w' := by
  have hpop : (t :: w.session.scheduler.rest.toList).Perm w.session.scheduler.queue.toList :=
    Heap.toList_pop Task.before ht
  have hlacks := h.lacks.passed ht hk
    fun u hu => h.lacks.sane.due u (hpop.subset (List.mem_cons_of_mem t hu))
  exact h.moved hlacks rfl rfl rfl (holds_rest ht (.inr hc) _) (startsOf_silent rfl) rfl

/-- Another cancelled task is let go in both. -/
theorem dropped (h : Along k w w') (ht : w.session.scheduler.queue.top? = some t)
    (hk : t.serial ≠ k) (hc : t.cancelled = true) :
    Along k (w.entered (.dropped t.serial)
        ⟨{ w.session.scheduler with queue := w.session.scheduler.rest }, w.running⟩)
      (w'.entered (.dropped (t.without k).serial)
        ⟨{ w'.session.scheduler with queue := w'.session.scheduler.rest }, w'.running⟩) := by
  have hpop : (t :: w.session.scheduler.rest.toList).Perm w.session.scheduler.queue.toList :=
    Heap.toList_pop Task.before ht
  have hpop' : (t.without k :: w'.session.scheduler.rest.toList).Perm
      w'.session.scheduler.queue.toList := Heap.toList_pop Task.before (h.lacks.top ht hk)
  have hlacks := h.lacks.popped ht hk
    (fun u hu => h.lacks.sane.due u (hpop.subset (List.mem_cons_of_mem _ hu)))
    fun u hu => h.lacks.sane'.due u (hpop'.subset (List.mem_cons_of_mem _ hu))
  exact h.moved hlacks rfl rfl rfl (holds_rest ht (.inr hc) _) (startsOf_silent rfl)
    (startsOf_silent rfl)

/-- Another task starts in both, at its due time. -/
theorem started (h : Along k w w') (ht : w.session.scheduler.queue.top? = some t)
    (hk : t.serial ≠ k) :
    Beside k (w.entered (.started t.serial t.due)
        ⟨{ w.session.scheduler with now := t.due, queue := w.session.scheduler.rest }, w.running⟩)
      (w'.entered (.started (t.without k).serial (t.without k).due)
        ⟨{ w'.session.scheduler with
            now := (t.without k).due, queue := w'.session.scheduler.rest }, w'.running⟩) := by
  have hlacks := h.lacks.popped ht hk
    (fun u hu => Sane.due_of_rank (h.lacks.sane.rest_after ht u hu).le)
    fun u hu => Sane.due_of_rank (h.lacks.sane'.rest_after (h.lacks.top ht hk) u hu).le
  refine ⟨⟨hlacks, h.host, h.submissions, h.withdrawn,
    h.waits.trans (holds_rest ht (.inl hk) _).symm, ?_⟩, rfl⟩
  rw [startsOf_started, startsOf_started, h.starts, List.map_append]
  simp [Task.without, raised_lowered hk]

/-- An advance reaches its deadline in both. -/
theorem arrived (h : Along k w w') {deadline : τ}
    (hnext : ∀ t, w.session.scheduler.queue.top? = some t → ¬ t.due ≤ deadline) :
    Beside k (w.entered (.arrived deadline)
        ⟨{ w.session.scheduler with now := deadline }, w.running.tail⟩)
      (w'.entered (.arrived deadline)
        ⟨{ w'.session.scheduler with now := deadline }, w'.running.tail⟩) :=
  ⟨h.moved (h.lacks.arrived hnext) rfl rfl rfl rfl (startsOf_silent rfl) (startsOf_silent rfl),
    rfl⟩

end Along

end

section

variable {τ σ : Type} [AddCommGroup τ] [LinearOrder τ] [IsOrderedAddMonoid τ] {k : Nat}
  {w : Chronicle τ σ} {w' : Chronicle τ (Omitting σ)}

namespace Beside

omit [AddCommGroup τ] [IsOrderedAddMonoid τ] in
/-- The host makes a note. -/
theorem noted (h : Beside k w w') (change : σ → σ) :
    Beside k (hostPart.replace (change w.session.host) w)
      (hostPart.replace { w'.session.host with host := change w'.session.host.host } w') :=
  ⟨⟨h.lacks, congrArg change h.host, h.submissions, h.withdrawn, h.waits, h.starts⟩, h.now⟩

/-- Another task is submitted to both. -/
theorem later (h : Beside k w w') (hk : w.session.scheduler.nextSerial ≠ k) (delay : τ)
    (task : Program (interface τ) σ) {what what' : Happening τ}
    (hs : Entry.start? ⟨what, ⟨(w.session.scheduler.later delay task).2, w.running⟩⟩ = none)
    (hs' : Entry.start?
      ⟨what', ⟨(w'.session.scheduler.later delay (without k task)).2, w'.running⟩⟩ = none) :
    Beside k (w.entered what ⟨(w.session.scheduler.later delay task).2, w.running⟩)
      ((hostPart.replace w'.session.host.submit w').entered what'
        ⟨(w'.session.scheduler.later delay (without k task)).2, w'.running⟩) := by
  refine ⟨⟨h.lacks.later h.now hk delay task, h.host, congrArg (· + 1) h.submissions,
    fun hw => Nat.lt_succ_of_lt (h.withdrawn hw), ?_, ?_⟩, h.now⟩
  · change (decide (k < w'.session.host.submissions + 1) && !w'.session.host.withdrawn) =
      holds k (w.session.scheduler.later delay task).2
    rw [holds_later, ← h.waits, h.submissions, decide_eq_false hk, Bool.false_or]
    have hlast : k < w.session.scheduler.nextSerial + 1 ↔ k < w.session.scheduler.nextSerial := by
      omega
    simp [Omitting.waits, h.submissions, hlast]
  · rw [startsOf_silent hs, startsOf_silent hs']
    exact h.starts

/-- Task `k` is submitted where it is not left out. -/
theorem submitted (h : Beside k w w') (hk : w.session.scheduler.nextSerial = k) (delay : τ)
    (task : Program (interface τ) σ) {what : Happening τ}
    (hs : Entry.start? ⟨what, ⟨(w.session.scheduler.later delay task).2, w.running⟩⟩ = none) :
    Beside k (w.entered what ⟨(w.session.scheduler.later delay task).2, w.running⟩)
      (hostPart.replace w'.session.host.submit w') := by
  refine ⟨⟨h.lacks.submitted hk delay task, h.host, congrArg (· + 1) h.submissions,
    fun hw => Nat.lt_succ_of_lt (h.withdrawn hw), ?_, ?_⟩, h.now⟩
  · have hlive : w'.session.host.withdrawn = false := by
      rw [Bool.eq_false_iff]
      intro hw
      have hlt := h.withdrawn hw
      rw [h.submissions, hk] at hlt
      exact absurd hlt (Nat.lt_irrefl k)
    change (decide (k < w'.session.host.submissions + 1) && !w'.session.host.withdrawn) =
      holds k (w.session.scheduler.later delay task).2
    rw [holds_later, h.submissions, hlive, hk]
    simp
  · rw [startsOf_silent hs]
    exact h.starts

omit [AddCommGroup τ] [IsOrderedAddMonoid τ] in
/-- Another task is cancelled in both. -/
theorem cancel (h : Beside k w w') {i : Nat} (hi : i ≠ k) {what what' : Happening τ}
    (hs : Entry.start? ⟨what, ⟨w.session.scheduler.cancel i, w.running⟩⟩ = none)
    (hs' : Entry.start?
      ⟨what', ⟨w'.session.scheduler.cancel (lowered k i), w'.running⟩⟩ = none) :
    Beside k (w.entered what ⟨w.session.scheduler.cancel i, w.running⟩)
      (w'.entered what' ⟨w'.session.scheduler.cancel (lowered k i), w'.running⟩) := by
  have hholds : holds k (w.session.scheduler.cancel i) = holds k w.session.scheduler := by
    rw [holds_cancel, decide_eq_true hi, Bool.true_and]
  exact ⟨h.moved (h.lacks.cancel hi) rfl rfl rfl hholds (startsOf_silent hs)
    (startsOf_silent hs'), h.now⟩

omit [AddCommGroup τ] [IsOrderedAddMonoid τ] in
/-- Task `k` is cancelled where it is not left out. -/
theorem cancelled (h : Beside k w w') {what : Happening τ}
    (hs : Entry.start? ⟨what, ⟨w.session.scheduler.cancel k, w.running⟩⟩ = none) :
    Beside k (w.entered what ⟨w.session.scheduler.cancel k, w.running⟩)
      (hostPart.replace (w'.session.host.withdraw k) w') := by
  refine ⟨⟨h.lacks.cancelled, h.host, h.submissions, fun hw => ?_, ?_, ?_⟩, h.now⟩
  · rcases Bool.or_eq_true_iff.mp hw with hw | hw
    · exact h.withdrawn hw
    · exact of_decide_eq_true hw
  · change (decide (k < w'.session.host.submissions) &&
      !(w'.session.host.withdrawn || decide (k < w'.session.host.submissions))) =
        holds k (w.session.scheduler.cancel k)
    rw [holds_cancel]
    by_cases hlt : k < w'.session.host.submissions <;> simp [hlt]
  · rw [startsOf_silent hs]
    exact h.starts

end Beside

end

/-! ## Computations that end alike -/

section

variable {τ σ α β : Type} [LinearOrder τ] {k : Nat}

/-- Do two computations end alike, unless the first one breaks off? -/
def Follows (k : Nat) (r : EStateM.Result Fault (Chronicle τ σ) α)
    (r' : EStateM.Result Fault (Chronicle τ (Omitting σ)) α) : Prop :=
  match r with
  | .ok a w => ∃ w', r' = .ok a w' ∧ Beside k w w'
  | .error f w => f = .exhausted ∨ ∃ w', r' = .error f w' ∧ Beside k w w'

end

/-! ## Loops of the clock -/

section

variable {τ σ : Type} [AddCommGroup τ] [LinearOrder τ] [IsOrderedAddMonoid τ] {k : Nat}
  {w : Chronicle τ σ} {w' : Chronicle τ (Omitting σ)}

section

variable {fire : Program (interface τ) σ → Run (Chronicle τ σ) Unit}
  {fire' : Program (interface τ) (Omitting σ) → Run (Chronicle τ (Omitting σ)) Unit}

section

variable (hf : ∀ p {w w'}, Beside k w w' → Follows k (fire p w) (fire' (without k p) w'))

include hf

end
end

end

end Switchboard.Scheduler
