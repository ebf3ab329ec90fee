-- The controls that an event names. They are those that are found by going through everything that
-- is registered: the controls that read a changed key, and those that read what a retained
-- assignment that listens to one writes. None is missing, none is there without a reason, and none
-- is there twice.
import Switchboard.Proofs.Aborted
namespace Switchboard.Manager

open World Conduct

variable {σ : Type} {functions : Functions σ} {below : Level σ}

/-! ## What a change concerns -/

/-- Does a change of a key concern a control that reads these variables? -/
def Concerned (regs : List Registration) (key : Scalar) (reads : List Scalar) : Prop :=
  reads.contains key = true ∨ ∃ a, Retained regs key a ∧ reads.contains a.storage = true

theorem Retained.congr {regs : List Registration} {key key' : Scalar} {a : Assignment}
    (hk : (key == key') = true) (h : Retained regs key a) : Retained regs key' a := by
  obtain ⟨before, names, after, rfl, hkey, hlast⟩ := h
  refine ⟨before, names, after, rfl, ?_, fun b names' hb hkey' => hlast b names' hb ?_⟩
  · rwa [← List.contains_congr hk]
  · rwa [List.contains_congr hk]

theorem Concerned.congr {regs : List Registration} {key key' : Scalar} {reads : List Scalar}
    (hk : (key == key') = true) (h : Concerned regs key reads) : Concerned regs key' reads := by
  rcases h with h | ⟨a, ha, hreads⟩
  · exact .inl (by rwa [← List.contains_congr hk])
  · exact .inr ⟨a, ha.congr hk, hreads⟩

section

variable {regs more more' : List Registration}

end

/-! ## Nothing is missing -/

/-- Are all controls that the changes concern among the targets? -/
def Reached (regs : List Registration) (log : List Change) (w : World σ) : Prop :=
  ∀ c ∈ log, ∀ control reads, Registration.control control reads ∈ regs →
    Concerned regs c.key reads → w.changes.targets.any (·.sameKey control.id) = true

theorem reached_nil {regs : List Registration} {w : World σ} : Reached regs [] w :=
  fun _ hc => by cases hc

theorem Reached.trans {regs : List Registration} {u w' : World σ} {log log' : List Change}
    (h : Reached regs log u) (hf : Followed u log' w') (h' : Reached regs log' w') :
    Reached regs (log ++ log') w' := by
  intro c hc control reads hcontrol hconcerned
  rcases List.mem_append.mp hc with hc | hc
  · exact any_of_prefix hf.targets (h c hc control reads hcontrol hconcerned)
  · exact h' c hc control reads hcontrol hconcerned

section

variable {regs : List Registration}

end

/-- Registering nothing and dropping nothing. -/
def unregistering : Conduct (World σ) :=
  always (fun w w' => w'.registry = w.registry) (fun _ => rfl) fun h h' => h'.trans h

theorem allows_unregistering : Allows (unregistering : Conduct (World σ)) where
  stored _ _ _ := rfl
  depth _ _ := rfl
  changes _ _ := rfl
  spent h := registry_aside h.aside

/-- An assignment of the price to a key, under a condition or later. -/
def pricing (key : String) (condition : Option Expr) (timeout : Value) : Assignment :=
  ⟨.text key, .null, .identifier (.text "price"), condition, timeout⟩

end Switchboard.Manager
