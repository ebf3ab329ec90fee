-- Computations on a part of a state. A run that keeps a log does to the rest of its state what the
-- plain run does: to forget the log gives the plain run back. It does if its parts do.
import Switchboard.Proofs.Conduct
namespace Switchboard

/-- A result with a part of the state only. -/
def Run.project {ω ω' α : Type} (view : ω → ω') :
    EStateM.Result Fault ω α → EStateM.Result Fault ω' α
  | .ok a w => .ok a (view w)
  | .error f w => .error f (view w)

namespace Conduct

variable {ω ω' α β : Type} {view : ω → ω'}

theorem ending_project (r : EStateM.Result Fault ω α) :
    Run.ending (Run.project view r) = view (Run.ending r) := by
  cases r <;> rfl

/-- Does a computation do to a part of the state what the other one does? -/
def Projects (view : ω → ω') (act : Run ω α) (act' : Run ω' α) : Prop :=
  ∀ w, Run.project view (act w) = act' (view w)

theorem projects_pure (a : α) : Projects view (pure a : Run ω α) (pure a) := fun _ => rfl

theorem projects_throw (f : Fault) : Projects view (throw f : Run ω α) (throw f) := fun _ => rfl

theorem projects_ofExcept (r : Except Fault α) :
    Projects view (Run.ofExcept r : Run ω α) (Run.ofExcept r) := by
  cases r with
  | ok a => exact projects_pure a
  | error f => exact projects_throw f

theorem projects_bind {act : Run ω α} {act' : Run ω' α} {next : α → Run ω β}
    {next' : α → Run ω' β} (h : Projects view act act')
    (hn : ∀ a, Projects view (next a) (next' a)) :
    Projects view (act >>= next) (act' >>= next') := by
  intro w
  have hw := h w
  cases hr : act w with
  | ok a v =>
    rw [hr] at hw
    rw [bind_ok hr, bind_ok hw.symm]
    exact hn a v
  | error f v =>
    rw [hr] at hw
    rw [bind_error hr, bind_error hw.symm]
    rfl

/-- Where one looks at the whole state, the other may look at a part of its own. -/
theorem projects_read {κ : Type} (part : Part ω' κ) {next : ω → Run ω β} {next' : κ → Run ω' β}
    (h : ∀ w, Projects view (next w) (next' (part.view (view w)))) :
    Projects view (get >>= next) (part.read >>= next') := fun w => h w w

theorem projects_outcome {act : Run ω α} {act' : Run ω' α} (h : Projects view act act') :
    Projects view act.outcome act'.outcome := by
  intro w
  have hw := h w
  unfold Run.outcome
  cases hr : act w with
  | ok a v =>
    rw [hr] at hw
    rw [← hw]
    rfl
  | error f v =>
    rw [hr] at hw
    rw [← hw]
    cases f <;> rfl

theorem projects_forM (items : List α) {act : α → Run ω Unit} {act' : α → Run ω' Unit}
    (h : ∀ a, Projects view (act a) (act' a)) :
    Projects view (items.forM act) (items.forM act') := by
  induction items with
  | nil => exact projects_pure ()
  | cons a rest ih => exact projects_bind (h a) fun _ => ih

/-- A program does to a part of the state what it does elsewhere if all its commands do. -/
theorem projects_program {I : Interface} {σ : Type} {host : Part ω σ} {host' : Part ω' σ}
    {exec : (command : I.Command) → (I.Input command → Program I σ) → Run ω (I.Answer command)}
    {exec' : (command : I.Command) → (I.Input command → Program I σ) → Run ω' (I.Answer command)}
    (hexec : ∀ command callback, Projects view (exec command callback) (exec' command callback))
    (hread : Projects view host.read host'.read)
    (hnote : ∀ change, Projects view (host.update change) (host'.update change))
    (p : Program I σ) : Projects view (p.run host exec) (p.run host' exec') := by
  induction p with
  | done result => exact projects_pure _
  | fail f => exact projects_throw f
  | note change next ih =>
    exact projects_bind (hnote change) fun _ => projects_bind hread fun s => ih s
  | perform command callback next _ ih =>
    exact projects_bind (projects_outcome (hexec command callback)) ih

end Conduct
end Switchboard
