-- Why a queue runs dry. A program is a finite tree, and what it submits is a part of it. A task
-- that has run leaves its place in the queue to parts of itself, if to anything, and this cannot go
-- on forever. So the loops of the clock come to an end when all tasks are modest.
import Mathlib.Logic.Hydra
import Switchboard.Proofs.Draining
namespace Switchboard

/-! ## Parts of programs -/

namespace Program

variable {I : Interface} {σ : Type}

/-- Is a program what the other one goes on with, or what it hands to a command? -/
inductive PartOf : Program I σ → Program I σ → Prop
  | noted (change : σ → σ) (next : σ → Program I σ) (s : σ) : PartOf (next s) (.note change next)
  | handed (command : I.Command) (callback : I.Input command → Program I σ)
    (next : Except Fault (I.Answer command) → Program I σ) (i : I.Input command) :
    PartOf (callback i) (.perform command callback next)
  | answered (command : I.Command) (callback : I.Input command → Program I σ)
    (next : Except Fault (I.Answer command) → Program I σ) (r : Except Fault (I.Answer command)) :
    PartOf (next r) (.perform command callback next)

theorem wellFounded_partOf : WellFounded (PartOf : Program I σ → Program I σ → Prop) := by
  refine ⟨fun p => ?_⟩
  induction p with
  | done result => exact ⟨_, fun q h => nomatch h⟩
  | fail f => exact ⟨_, fun q h => nomatch h⟩
  | note change next ih =>
    refine ⟨_, fun q h => ?_⟩
    cases h with
    | noted _ _ s => exact ih s
  | perform command callback next ihcallback ihnext =>
    refine ⟨_, fun q h => ?_⟩
    cases h with
    | handed _ _ _ i => exact ihcallback i
    | answered _ _ _ r => exact ihnext r

/-- Is a program a part of the other one, at whatever depth? -/
abbrev Inside : Program I σ → Program I σ → Prop := Relation.TransGen PartOf

end Program

namespace Scheduler

open Conduct Chronicle Relation

/-! ## What is in the queue -/

section

variable {τ ψ : Type}

/-- What the tasks of the queue are to do, cancelled ones included. -/
def payloads (s : Scheduler τ ψ) : Multiset ψ := (s.queue.toList.map (·.payload) : List ψ)

variable {s s' : Scheduler τ ψ}

theorem payloads_cancel (s : Scheduler τ ψ) (serial : Nat) :
    (s.cancel serial).payloads = s.payloads := by
  unfold payloads cancel
  rw [Heap.toList_map, List.map_map]
  refine congrArg _ (List.map_congr_left fun t _ => ?_)
  dsimp only [Function.comp_apply]
  split <;> rfl

variable [LE τ] [LT τ] [DecidableLE τ] [DecidableLT τ]

theorem payloads_later [Add τ] [Zero τ] [Max τ] (s : Scheduler τ ψ) (delay : τ) (payload : ψ) :
    (s.later delay payload).2.payloads = s.payloads + {payload} := by
  have hpush : (s.later delay payload).2.queue.toList.Perm
      (⟨s.now + max delay 0, s.nextSerial, payload, false⟩ :: s.queue.toList) :=
    Heap.toList_push Task.before _ s.queue
  have hmap := hpush.map fun t : Task τ ψ => t.payload
  rw [add_comm, Multiset.singleton_add]
  exact Multiset.coe_eq_coe.mpr hmap

theorem payloads_rest {t : Task τ ψ} (ht : s.queue.top? = some t) (hq : s'.queue = s.rest) :
    s'.payloads + {t.payload} = s.payloads := by
  have hpop : (t :: s'.queue.toList).Perm s.queue.toList := hq ▸ Heap.toList_pop Task.before ht
  have hmap := hpop.map fun t : Task τ ψ => t.payload
  rw [add_comm, Multiset.singleton_add]
  exact Multiset.coe_eq_coe.mpr hmap

end

/-! ## Tasks -/

section

variable {τ σ : Type}

/-- Does the queue have what it had and parts of a program besides? -/
def Bears (p : Program (interface τ) σ) (s s' : Scheduler τ (Program (interface τ) σ)) : Prop :=
  ∃ more, s'.payloads = s.payloads + more ∧ ∀ q ∈ more, Program.Inside q p

theorem Bears.refl (p : Program (interface τ) σ) (s : Scheduler τ (Program (interface τ) σ)) :
    Bears p s s := ⟨0, (add_zero _).symm, fun _ hq => (Multiset.notMem_zero _ hq).elim⟩

variable {p q : Program (interface τ) σ} {s u s' : Scheduler τ (Program (interface τ) σ)}

theorem Bears.trans (h : Bears p s u) (h' : Bears p u s') : Bears p s s' := by
  obtain ⟨more, hmore, hinside⟩ := h
  obtain ⟨rest, hrest, hinside'⟩ := h'
  refine ⟨more + rest, by rw [hrest, hmore, add_assoc], fun q hq => ?_⟩
  exact (Multiset.mem_add.mp hq).elim (hinside q) (hinside' q)

/-- Parts of a part are parts. -/
theorem Bears.part (h : Bears q s s') (hq : Program.PartOf q p) : Bears p s s' := by
  obtain ⟨more, hmore, hinside⟩ := h
  exact ⟨more, hmore, fun r hr => (hinside r hr).tail hq⟩

theorem Bears.of_eq (h : s'.payloads = s.payloads) : Bears p s s' :=
  ⟨0, h.trans (add_zero _).symm, fun _ hq => (Multiset.notMem_zero _ hq).elim⟩

/-- What is left when a task is taken and has run is less than what there was. -/
theorem cutExpand_of_bears (h : Bears p u s') (hu : u.payloads + {p} = s.payloads) :
    CutExpand Program.Inside s'.payloads s.payloads := by
  obtain ⟨more, hmore, hinside⟩ := h
  exact ⟨more, p, hinside, by rw [hmore, add_right_comm, hu]⟩

theorem wellFounded_cutExpand (τ σ : Type) :
    WellFounded (CutExpand (Program.Inside : Program (interface τ) σ → _ → Prop)) :=
  Program.wellFounded_partOf.transGen.cutExpand

end

section

variable {τ σ : Type} [AddCommGroup τ] [LinearOrder τ]

/-- How an advance runs a task. -/
def runTask (m : Nat) (task : Program (interface τ) σ) : Run (Chronicle τ σ) Unit := do
  let _ ← Chronicle.run (m + 1) task

/-- A modest task comes to its end, and submits parts of itself. -/
theorem bears_run (m : Nat) {p : Program (interface τ) σ} (hp : Modest p) (w : Chronicle τ σ) :
    ∃ a w', Chronicle.run (m + 1) p w = .ok a w' ∧
      Bears p w.session.scheduler w'.session.scheduler := by
  change ∃ a w', p.run hostPart (Chronicle.exec (Chronicle.run m) m) w = .ok a w' ∧ _
  induction p generalizing w with
  | done result => exact ⟨result, w, rfl, .refl _ _⟩
  | fail f => exact hp.elim
  | note change next ih =>
    obtain ⟨a, w', hr, hb⟩ := ih _ (hp _) (hostPart.replace (change w.session.host) w)
    exact ⟨a, w', hr, hb.part (.noted change next _)⟩
  | perform command task next _ ih =>
    cases command with
    | later delay =>
      let s := w.session.scheduler
      obtain ⟨a, w', hr, hb⟩ := ih (.ok s.nextSerial) (hp.2 _)
        (w.entered (.submitted s.nextSerial (s.now + max delay 0))
          ⟨(s.later delay (task ())).2, w.running⟩)
      have hborn : Bears (.perform (.later delay) task next) s (s.later delay (task ())).2 := by
        refine ⟨{task ()}, payloads_later s delay (task ()), fun q hq => ?_⟩
        rw [Multiset.mem_singleton.mp hq]
        exact .single (.handed _ task next ())
      exact ⟨a, w', hr, hborn.trans (hb.part (.answered _ task next _))⟩
    | cancel serial =>
      obtain ⟨a, w', hr, hb⟩ := ih (.ok ()) (hp ())
        (w.entered (.cancelled serial) ⟨w.session.scheduler.cancel serial, w.running⟩)
      have hsame : Bears (.perform (.cancel serial) task next) w.session.scheduler
          (w.session.scheduler.cancel serial) := .of_eq (payloads_cancel _ serial)
      exact ⟨a, w', hr, hsame.trans (hb.part (.answered _ task next _))⟩
    | look =>
      obtain ⟨a, w', hr, hb⟩ := ih (.ok (w.session.scheduler.now, w.session.scheduler.pending))
        (hp _) (w.entered .looked w.stage)
      exact ⟨a, w', hr, hb.part (.answered _ task next _)⟩
    | advance ms => exact hp.elim
    | runAll => exact hp.elim

theorem bears_task (m : Nat) {p : Program (interface τ) σ} (hp : Modest p) (w : Chronicle τ σ) :
    ∃ w', runTask m p w = .ok () w' ∧ Meek w w' ∧
      Bears p w.session.scheduler w'.session.scheduler := by
  obtain ⟨a, w', hr, hb⟩ := bears_run m hp w
  have hcalm := calm_run (m + 1) hp w
  unfold Calm at hcalm
  rw [hr] at hcalm
  exact ⟨w', bind_ok hr, hcalm, hb⟩

/-! ## The loops -/

/-- An advance whose bound is large enough leaves modest tasks only, and fewer of them if anything
was due. -/
structure Ending (deadline : τ) (outer : List τ) (w w' : Chronicle τ σ) : Prop where
  running : w'.running = outer
  modest : AllModest w'.session.scheduler
  fewer : (∀ t, w.session.scheduler.queue.top? = some t → ¬ t.due ≤ deadline) ∧
      w'.session.scheduler.payloads = w.session.scheduler.payloads ∨
    TransGen (CutExpand Program.Inside) w'.session.scheduler.payloads
      w.session.scheduler.payloads

omit [AddCommGroup τ] in
theorem Ending.after {deadline : τ} {outer : List τ} {w u w' : Chronicle τ σ}
    (h : Ending deadline outer u w') (hu : CutExpand Program.Inside
      u.session.scheduler.payloads w.session.scheduler.payloads) :
    Ending deadline outer w w' := by
  refine ⟨h.running, h.modest, .inr ?_⟩
  rcases h.fewer with ⟨-, hsame⟩ | hfewer
  · exact hsame ▸ .single hu
  · exact hfewer.tail hu

omit [AddCommGroup τ] in
theorem AllModest.top {s : Scheduler τ (Program (interface τ) σ)}
    {t : Task τ (Program (interface τ) σ)} (hm : AllModest s) (ht : s.queue.top? = some t)
    (hc : t.cancelled = false) : Modest t.payload := by
  let left : Scheduler τ (Program (interface τ) σ) := { s with queue := s.rest }
  have hleft : left.queue = s.rest := rfl
  exact hm t ((waiting_rest_of_live ht hc hleft).subset List.mem_cons_self)

/-- The loop of an advance ends: by induction on what is in the queue. -/
theorem advanceTo_ends (m : Nat) {deadline : τ} {outer : List τ} {w : Chronicle τ σ}
    (hw : w.running = deadline :: outer) (hm : AllModest w.session.scheduler) :
    ∃ enough ran w', Ending deadline outer w w' ∧
      ∀ n ≥ enough, Chronicle.advanceTo (runTask m) deadline n w = .ok ran w' := by
  induction hs : w.session.scheduler.payloads using (wellFounded_cutExpand τ σ).induction
    generalizing w with
  | _ s ih =>
    subst hs
    rcases turn_cases w.session.scheduler deadline with
      ⟨t, ht, hd, hc⟩ | ⟨t, ht, hd, hc⟩ | hidle
    · let u := w.entered (.dropped t.serial)
        ⟨{ w.session.scheduler with queue := w.session.scheduler.rest }, w.running⟩
      have hless : CutExpand Program.Inside u.session.scheduler.payloads
          w.session.scheduler.payloads :=
        cutExpand_of_bears (.refl t.payload _) (payloads_rest ht rfl)
      obtain ⟨enough, ran, w', hend, hrest⟩ := ih _ hless (w := u) hw (allModest_rest hm ht rfl) rfl
      refine ⟨enough + 1, ran, w', hend.after hless, fun n hn => ?_⟩
      obtain ⟨n, rfl⟩ : ∃ k, n = k + 1 := ⟨n - 1, by omega⟩
      exact (Chronicle.advanceTo_dropped n ht hd hc).trans (hrest n (by omega))
    · let u := w.entered (.started t.serial t.due)
        ⟨{ w.session.scheduler with now := t.due, queue := w.session.scheduler.rest }, w.running⟩
      have hmodest := hm.top ht hc
      obtain ⟨v, hran, hmeek, hbears⟩ := bears_task m hmodest u
      have hless : CutExpand Program.Inside v.session.scheduler.payloads
          w.session.scheduler.payloads := cutExpand_of_bears hbears (payloads_rest ht rfl)
      obtain ⟨enough, ran, w', hend, hrest⟩ := ih _ hless (w := v) (hmeek.running.trans hw)
        (hmeek.modest (allModest_rest hm ht rfl)) rfl
      refine ⟨enough + 1, ran + 1, w', hend.after hless, fun n hn => ?_⟩
      obtain ⟨n, rfl⟩ : ∃ k, n = k + 1 := ⟨n - 1, by omega⟩
      rw [Chronicle.advanceTo_started n ht hd hc, bind_ok hran]
      exact bind_ok (hrest n (by omega))
    · let v := w.entered (.arrived deadline)
        ⟨{ w.session.scheduler with now := deadline }, w.running.tail⟩
      have hend : Ending deadline outer w v :=
        ⟨congrArg List.tail hw, hm, .inl ⟨hidle, rfl⟩⟩
      refine ⟨1, 0, v, hend, fun n hn => ?_⟩
      obtain ⟨n, rfl⟩ : ∃ k, n = k + 1 := ⟨n - 1, by omega⟩
      exact Chronicle.advanceTo_arrived n hidle

end
end Scheduler
end Switchboard
