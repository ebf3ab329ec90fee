-- What is registered with a manager. The two tables in which a change is looked up are filled
-- registration by registration, and each is a function of the list of all registrations: the
-- controls that read a variable, and the last assignment for each variable and storage.
import Mathlib.Data.List.Induction
import Switchboard.Proofs.Reachable
namespace Switchboard.Manager

open World

variable {σ : Type}

/-! ## Registrations -/

inductive Registration
  | control (control : Control) (reads : List Scalar)
  | assignment (a : Assignment) (names : List Scalar)

/-- Everything that depends on what is registered. -/
def World.registry (w : World σ) :
    List Control × Dict Scalar (List Control) × Dict Scalar (Dict Scalar Assignment) :=
  (w.controls, w.readLinks, w.assignments)

/-- The registrations that a manager has taken since it was made or disposed of, in order. -/
inductive Registered : List Registration → World σ → Prop
  | new (setup : Setup) (generator : Generator) (host : σ) :
    Registered [] (setup.world generator host)
  | control {regs w serial id runtime control reads} : Registered regs w →
    Control.make serial id runtime = .ok control → control.reads = .ok reads →
    Registered (regs ++ [.control control reads]) (w.linkControl control reads)
  | assignment {regs w} (a : Assignment) (names : List Scalar) : Registered regs w →
    Registered (regs ++ [.assignment a names]) (w.linkAssignment a names)
  | dispose {regs w} : Registered regs w → Registered [] w.dispose
  | other {regs w w'} : Registered regs w → w'.registry = w.registry → Registered regs w'

theorem registry_aside {w w' : World σ} (h : w.Aside w') : w'.registry = w.registry := by
  have hcontrols : w'.controls = w.controls := congrArg Core.controls h.1
  have hlinks : w'.readLinks = w.readLinks := congrArg Core.readLinks h.1
  have hassignments : w'.assignments = w.assignments := congrArg Core.assignments h.1
  unfold registry
  rw [hcontrols, hlinks, hassignments]

/-- A single change either disposes of a manager or lets its registrations go on. -/
theorem Registered.step {regs : List Registration} {w w' : World σ} (h : Registered regs w)
    (hs : Step w w') : w' = w.dispose ∨ ∃ more, Registered (regs ++ more) w' := by
  have hsame : ∀ {u : World σ}, u.registry = w.registry → ∃ more, Registered (regs ++ more) u :=
    fun hu => ⟨[], by rw [List.append_nil]; exact h.other hu⟩
  cases hs with
  | aside ha => exact .inr (hsame (registry_aside ha))
  | control hm hr => exact .inr ⟨_, h.control hm hr⟩
  | assignment a names => exact .inr ⟨_, h.assignment a names⟩
  | write ha => exact .inr (hsame rfl)
  | account changes inTransaction depth => exact .inr (hsame rfl)
  | event e => exact .inr (hsame rfl)
  | dispose => exact .inl rfl

theorem Reachable.registered {w : World σ} (h : Reachable w) : ∃ regs, Registered regs w := by
  obtain ⟨setup, generator, host, h⟩ := h
  induction h with
  | refl => exact ⟨[], .new setup generator host⟩
  | tail _ hs ih =>
    obtain ⟨regs, hregs⟩ := ih
    rcases hregs.step hs with rfl | ⟨more, hmore⟩
    · exact ⟨[], hregs.dispose⟩
    · exact ⟨_, hmore⟩

/-- A manager that was disposed of stays so. -/
theorem Step.isLive {w w' : World σ} (hs : Step w w') (hl : w'.isLive = true) :
    w.isLive = true := by
  cases hs with
  | aside ha =>
    have hstore : w'.store = w.store := congrArg Core.store ha.1
    unfold World.isLive at hl ⊢
    rwa [hstore] at hl
  | write ha =>
    unfold World.isLive at hl ⊢
    rwa [(assign_some ha).1] at hl
  | dispose => cases hl
  | _ => exact hl

theorem Steps.isLive {w w' : World σ} (hs : Steps w w') (hl : w'.isLive = true) :
    w.isLive = true := by
  induction hs with
  | refl => exact hl
  | tail _ hs ih => exact ih (hs.isLive hl)

/-- As long as a manager is not disposed of, registrations only come in. -/
theorem Registered.steps {regs : List Registration} {w w' : World σ} (h : Registered regs w)
    (hs : Steps w w') (hl : w'.isLive = true) : ∃ more, Registered (regs ++ more) w' := by
  induction hs with
  | refl => exact ⟨[], by rwa [List.append_nil]⟩
  | tail _ hs ih =>
    obtain ⟨more, hmore⟩ := ih (hs.isLive hl)
    rcases hmore.step hs with rfl | ⟨rest, hrest⟩
    · cases hl
    · exact ⟨more ++ rest, by rwa [← List.append_assoc]⟩

/-! ## The table of readers -/

namespace Registration

/-- What a registration adds to the controls that read a key. -/
def readers (key : Scalar) : Registration → List Control
  | control c reads => (reads.filter (· == key)).map fun _ => c
  | assignment .. => []

end Registration

theorem get?_linked (control : Control) (reads : List Scalar) (links : Dict Scalar (List Control))
    (key : Scalar) :
    ((reads.foldl
      (fun links v => Dict.put links v (((links.get? v).getD []) ++ [control])) links).get?
        key).getD [] =
      (links.get? key).getD [] ++ (Registration.control control reads).readers key := by
  induction reads generalizing links with
  | nil => exact (List.append_nil _).symm
  | cons v rest ih =>
    rw [List.foldl_cons, ih, Dict.get?_put]
    unfold Registration.readers
    cases hk : v == key with
    | true => simp [hk, Dict.get?_congr links hk]
    | false => simp [hk]

/-- The controls that read a variable are those registered with it, in order. -/
theorem Registered.readers_eq {regs : List Registration} {w : World σ} (h : Registered regs w)
    (key : Scalar) : (w.readLinks.get? key).getD [] = regs.flatMap (·.readers key) := by
  induction h with
  | new setup generator host => rfl
  | control _ hm hr ih =>
    rw [List.flatMap_append, ← ih, List.flatMap_singleton]
    exact get?_linked _ _ _ key
  | assignment a names _ ih =>
    rw [List.flatMap_append, ← ih, List.flatMap_singleton]
    exact (List.append_nil _).symm
  | dispose _ _ => rfl
  | @other regs w w' _ hw ih =>
    have hlinks : w'.readLinks = w.readLinks := congrArg (·.2.1) hw
    rw [hlinks]
    exact ih

namespace Registration

/-- What a registration makes of the assignments that listen to a key, by their storage. -/
def retain (key : Scalar) (table : Dict Scalar Assignment) : Registration → Dict Scalar Assignment
  | control .. => table
  | assignment a names => if names.contains key then table.put a.storage a else table

end Registration

theorem get?_assigned (a : Assignment) (names : List Scalar)
    (table : Dict Scalar (Dict Scalar Assignment)) (key : Scalar) :
    ((names.foldl
      (fun (table : Dict Scalar (Dict Scalar Assignment)) v =>
        table.put v (((table.get? v).getD []).put a.storage a)) table).get? key).getD [] =
      (Registration.assignment a names).retain key ((table.get? key).getD []) := by
  induction names generalizing table with
  | nil => rfl
  | cons v rest ih =>
    rw [List.foldl_cons, ih, Dict.get?_put]
    simp only [Registration.retain, List.contains_cons, BEq.comm (a := key)]
    cases hk : v == key with
    | true =>
      rw [Dict.get?_congr table hk]
      cases hr : rest.contains key with
      | true => exact Dict.put_put _ _ _ BEq.rfl
      | false => rfl
    | false => rfl

/-- The assignments that listen to a variable are what the registrations made of them, one after
the other. -/
theorem Registered.assignments_eq {regs : List Registration} {w : World σ}
    (h : Registered regs w) (key : Scalar) :
    (w.assignments.get? key).getD [] = regs.foldl (Registration.retain key) [] := by
  induction h with
  | new setup generator host => rfl
  | control _ hm hr ih =>
    rw [List.foldl_append, ← ih]
    rfl
  | assignment a names _ ih =>
    rw [List.foldl_append, ← ih]
    exact get?_assigned a names _ key
  | dispose _ _ => rfl
  | @other regs w w' _ hw ih =>
    have hassignments : w'.assignments = w.assignments := congrArg (·.2.2) hw
    rw [hassignments]
    exact ih

/-- Is this the last assignment registered for a variable and its storage? -/
def Retained (regs : List Registration) (key : Scalar) (a : Assignment) : Prop :=
  ∃ before names after, regs = before ++ .assignment a names :: after ∧
    names.contains key = true ∧
    ∀ b names', .assignment b names' ∈ after → names'.contains key = true →
      (b.storage == a.storage) = false

namespace Retained

/-- The last registration either is of this assignment or leaves it in its place. -/
theorem append_iff {regs : List Registration} {r : Registration} {key : Scalar} {a : Assignment} :
    Retained (regs ++ [r]) key a ↔
      (∃ names, r = .assignment a names ∧ names.contains key = true) ∨
      Retained regs key a ∧ ∀ b names, r = .assignment b names → names.contains key = true →
        (b.storage == a.storage) = false := by
  constructor
  · rintro ⟨before, names, after, hregs, hk, hlast⟩
    induction after using List.reverseRecOn with
    | nil =>
      obtain ⟨-, hr⟩ := List.append_inj' hregs rfl
      cases hr
      exact .inl ⟨names, rfl, hk⟩
    | append_singleton after r' =>
      have hsplit : regs ++ [r] = (before ++ .assignment a names :: after) ++ [r'] := by
        rw [hregs, List.append_assoc, List.cons_append]
      obtain ⟨rfl, hr⟩ := List.append_inj' hsplit rfl
      cases hr
      refine .inr ⟨⟨before, names, after, rfl, hk, fun b names' hb => ?_⟩, fun b names' hb => ?_⟩
      · exact hlast b names' (List.mem_append_left _ hb)
      · exact hlast b names' (List.mem_append_right _ (List.mem_singleton.mpr hb.symm))
  · rintro (⟨names, rfl, hk⟩ | ⟨⟨before, names, after, rfl, hk, hlast⟩, hr⟩)
    · exact ⟨regs, names, [], rfl, hk, fun _ _ h => by cases h⟩
    · refine ⟨before, names, after ++ [r], by simp, hk, fun b names' hb => ?_⟩
      rcases List.mem_append.mp hb with hb | hb
      · exact hlast b names' hb
      · exact hr b names' (List.mem_singleton.mp hb).symm

end Retained

namespace Retained

theorem registered {regs : List Registration} {key : Scalar} {a : Assignment}
    (h : Retained regs key a) :
    ∃ names, Registration.assignment a names ∈ regs ∧ names.contains key = true := by
  obtain ⟨before, names, after, rfl, hk, -⟩ := h
  exact ⟨names, List.mem_append_right _ List.mem_cons_self, hk⟩

/-- For every assignment that was registered, one with its storage is retained. -/
theorem exists_of_mem {regs : List Registration} {key : Scalar} {a : Assignment}
    {names : List Scalar} (ha : Registration.assignment a names ∈ regs)
    (hk : names.contains key = true) :
    ∃ b, Retained regs key b ∧ (b.storage == a.storage) = true := by
  induction regs using List.reverseRecOn with
  | nil => cases ha
  | append_singleton regs r ih =>
    rcases List.mem_append.mp ha with ha | ha
    · obtain ⟨b, hb, hs⟩ := ih ha
      by_cases hr : ∃ c names', r = .assignment c names' ∧ names'.contains key = true ∧
          (c.storage == b.storage) = true
      · obtain ⟨c, names', rfl, hk', hc⟩ := hr
        exact ⟨c, append_iff.mpr (.inl ⟨names', rfl, hk'⟩), BEq.trans hc hs⟩
      · refine ⟨b, append_iff.mpr (.inr ⟨hb, fun c names' hc hk' => ?_⟩), hs⟩
        rw [Bool.eq_false_iff]
        exact fun hbad => hr ⟨c, names', hc, hk', hbad⟩
    · exact ⟨a, append_iff.mpr (.inl ⟨names, (List.mem_singleton.mp ha).symm, hk⟩), BEq.rfl⟩

/-- Further registrations may replace an assignment, but only by one with the same storage. -/
theorem later {regs : List Registration} {key : Scalar} {a : Assignment}
    (h : Retained regs key a) (more : List Registration) :
    ∃ b, Retained (regs ++ more) key b ∧ (b.storage == a.storage) = true := by
  obtain ⟨names, ha, hk⟩ := h.registered
  exact exists_of_mem (List.mem_append_left more ha) hk

end Retained

end Switchboard.Manager
