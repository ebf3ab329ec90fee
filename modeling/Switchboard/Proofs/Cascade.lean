-- What a write does while the manager listens to its state: one equation for the write, and one
-- inversion for each of the parts of what follows a change.
import Switchboard.Proofs.Activity
namespace Switchboard

theorem Value.sameKey_refl (v : Value) : v.sameKey v = true := by
  cases v with
  | scalar s => exact BEq.rfl
  | list a items => exact BEq.rfl
  | map a entries => exact BEq.rfl
  | object a attributes => exact BEq.rfl
  | function f => exact decide_eq_true rfl

namespace Manager

open World Conduct

variable {σ : Type} {functions : Functions σ} {below : Level σ}

/-! ## Writes -/

theorem hearers_of_listening {store : Store Unit}
    (h : store.listeners = [(.null, [(1, ())])]) (key : Scalar) : store.hearers key = [()] := by
  unfold Store.hearers Store.under
  rw [h]
  by_cases hk : key == .null
  · have hn : (Scalar.null == key) = true := BEq.symm hk
    simp [hk, hn, Dict.get?, Dict.values]
  · have hn : (Scalar.null == key) = false := by
      rw [Bool.eq_false_iff]
      exact fun hn => hk (BEq.symm hn)
    simp [hk, hn, Dict.get?, Dict.values]

/-- A world with a value stored and the change noted in the history. -/
def World.stored (w : World σ) (key : Scalar) (value : Value) : World σ :=
  { w with
    store := { w.store with
      state := w.store.state.put key value
      history := w.store.history ++ [⟨key, w.store.read key, value⟩] } }

/-- What is stored is what the state assigns to a value that is new. -/
theorem World.assign_stored {w : World σ} {key : Scalar} {value : Value}
    (h : (w.store.read key).strictEquals value = false) :
    w.store.assign key value = some ((w.stored key value).store,
      ⟨key, w.store.read key, value⟩, w.store.hearers key) := by
  unfold Store.assign
  dsimp only
  rw [h]
  rfl

/-- A write that brings nothing new does nothing. Any other is told to all who hear of it. -/
theorem writeKey_eq_forM (w : World σ) (key : Scalar) (value : Value) :
    writeKey functions below key value w =
      if (w.store.read key).strictEquals value then .ok () w
      else (w.store.hearers key).forM
        (fun _ => onChange functions below ⟨key, w.store.read key, value⟩)
        (w.stored key value) := by
  have hread : storePart.read w = .ok w.store w := rfl
  unfold writeKey Store.write
  rw [bind_ok hread]
  unfold Store.assign
  dsimp only
  split <;> rfl

/-- Where the manager listens, a write that brings something new is followed up. -/
theorem writeKey_eq {w : World σ} (h : w.store.listeners = [(.null, [(1, ())])]) (key : Scalar)
    (value : Value) :
    writeKey functions below key value w =
      if (w.store.read key).strictEquals value then .ok () w
      else onChange functions below ⟨key, w.store.read key, value⟩ (w.stored key value) := by
  rw [writeKey_eq_forM, hearers_of_listening h]
  simp only [List.forM_eq_forM, List.forM_cons, List.forM_nil, bind_pure_unit]

theorem hearers_of_none {store : Store Unit} (h : store.listeners = []) (key : Scalar) :
    store.hearers key = [] := by
  unfold Store.hearers Store.under
  rw [h]
  simp [Dict.get?, Dict.values]

/-- A manager that was disposed of still stores, but it follows nothing up. -/
theorem writeKey_unheard {w : World σ} (h : w.store.listeners = []) (key : Scalar)
    (value : Value) :
    writeKey functions below key value w =
      if (w.store.read key).strictEquals value then .ok () w
      else .ok () (w.stored key value) := by
  rw [writeKey_eq_forM, hearers_of_none h]
  rfl

theorem writeKey_deaf {w w' : World σ} (h : w.store.listeners = []) {key : Scalar} {value : Value}
    (hr : writeKey functions below key value w = .ok () w') :
    w'.store.listeners = [] ∧ w'.changes = w.changes := by
  rw [writeKey_unheard h] at hr
  split at hr <;> cases hr <;> exact ⟨h, rfl⟩

/-- A write keeps to a conduct if storing a new value does and if following up the change does. -/
theorem keeps_writeKey_of {c : Conduct (World σ)} {key : Scalar} {value : Value}
    (hstored : ∀ w : World σ, (w.store.read key).strictEquals value = false →
      c.good w (w.stored key value))
    (hchange : ∀ change, c.Keeps (onChange functions below change)) :
    c.Keeps (writeKey functions below key value) := by
  intro w
  cases hs : (w.store.read key).strictEquals value with
  | true =>
    refine keepsAt_after (pure ()) ?_ (c.refl w) (keeps_pure () w)
    rw [writeKey_eq_forM, hs]
    rfl
  | false =>
    refine keepsAt_after ((w.store.hearers key).forM fun _ =>
      onChange functions below ⟨key, w.store.read key, value⟩) ?_ (hstored w hs) ?_
    · rw [writeKey_eq_forM, hs]
      rfl
    · exact keeps_forM _ (fun _ _ => hchange _) _

/-- Does a conduct allow all that cascades do to a manager by themselves? -/
structure Allows (c : Conduct (World σ)) : Prop where
  stored : ∀ (w : World σ) key value, c.good w (w.stored key value)
  depth : ∀ (w : World σ) depth, c.good w { w with depth := depth }
  changes : ∀ (w : World σ) changes, c.good w { w with changes := changes }
  spent : ∀ {w w' : World σ}, w.Spent w' → c.good w w'

namespace Allows

variable {c : Conduct (World σ)}

theorem keeps_writeKey (h : Allows c) (ha : ∀ a, c.Keeps (applyAssignment functions below a))
    (key : Scalar) (value : Value) : c.Keeps (writeKey functions below key value) := by
  refine keeps_writeKey_of (fun w _ => h.stored w key value) fun change => ?_
  refine keeps_bind (fun w => h.depth w _) fun _ => fun w => ?_
  exact keepsAt_ensuring (keeps_followUp h.changes h.spent ha _ w) fun w => h.depth w _

theorem keeps_applyAssignment (h : Allows c)
    (hact : ∀ n name identity args,
      c.Keeps ((level functions n).act (functions name identity args))) (n : Nat) (a : Assignment) :
    c.Keeps (applyAssignment functions (level functions n) a) :=
  keeps_applyAssignment_level h.spent hact h.keeps_writeKey n a

end Allows

/-! ## What follows a change -/

theorem onChange_eq (change : Change) (w : World σ) :
    onChange functions below change w =
      Run.mapEnd (fun v => { v with depth := v.depth - 1 })
        (followUp functions below change { w with depth := w.depth + 1 }) := by
  have hdeeper : (modify fun w => { w with depth := w.depth + 1 } : Run (World σ) Unit) w =
      .ok () { w with depth := w.depth + 1 } := rfl
  unfold onChange
  rw [bind_ok hdeeper, Run.ensuring_eq]

theorem onChange_ok {change : Change} {w w' : World σ}
    (h : onChange functions below change w = .ok () w') :
    ∃ v, followUp functions below change { w with depth := w.depth + 1 } = .ok () v ∧
      w' = { v with depth := v.depth - 1 } := by
  rw [onChange_eq] at h
  cases hr : followUp functions below change { w with depth := w.depth + 1 } with
  | ok a v =>
    rw [hr] at h
    cases h
    exact ⟨v, rfl, rfl⟩
  | error f v =>
    rw [hr] at h
    cases h

/-- Without a limit every change is followed up. -/
theorem followUp_unlimited {w : World σ} (h : w.config.maxDepth = none) (change : Change) :
    followUp functions below change w = followOn functions below change w := by
  have hcheck : checkDepth change.key w = .ok () w := by
    have hget : (get : Run (World σ) (World σ)) w = .ok w w := rfl
    unfold checkDepth
    rw [bind_ok hget, h]
    rfl
  rw [followUp_eq, bind_ok hcheck]

/-- With a limit those are that do not nest deeper. -/
theorem followUp_limited {w : World σ} {limit : Int} (h : w.config.maxDepth = some limit)
    (change : Change) :
    followUp functions below change w =
      if limit < w.depth then .error (.cascade change.key limit) w
      else followOn functions below change w := by
  have hcheck : checkDepth change.key w =
      (if limit < w.depth then throw (.cascade change.key limit) else pure () :
        Run (World σ) Unit) w := by
    have hget : (get : Run (World σ) (World σ)) w = .ok w w := rfl
    unfold checkDepth
    rw [bind_ok hget, h]
  rw [followUp_eq]
  split
  · rename_i hdeep
    rw [if_pos hdeep] at hcheck
    exact bind_error hcheck
  · rename_i hdeep
    rw [if_neg hdeep] at hcheck
    exact bind_ok hcheck

theorem checkDepth_ok {key : Scalar} {w w' : World σ} (h : checkDepth key w = .ok () w') :
    w' = w := by
  unfold checkDepth at h
  obtain ⟨u, v, hu, hv⟩ := bind_ok_inv h
  cases hu
  cases hm : w.config.maxDepth with
  | none =>
    rw [hm] at hv
    cases hv
    rfl
  | some limit =>
    rw [hm] at hv
    dsimp only at hv
    split at hv
    · cases hv
    · cases hv
      rfl

theorem addTarget_ok {changes changes' : ChangeSet} {id : Value}
    (h : changes.addTarget id = .ok changes') :
    ∃ targets, changes' = { changes with targets := targets } ∧ changes.targets <+: targets ∧
      targets.any (·.sameKey id) = true := by
  unfold ChangeSet.addTarget at h
  split at h
  · cases h
  · rename_i hid
    split at h
    · rename_i hany
      cases h
      exact ⟨changes.targets, rfl, List.prefix_refl _, hany⟩
    · cases h
      refine ⟨_, rfl, List.prefix_append _ _, ?_⟩
      simp [id.sameKey_refl]

theorem any_of_prefix {α : Type} {p : α → Bool} {l l' : List α} (h : l <+: l')
    (ha : l.any p = true) : l'.any p = true := by
  obtain ⟨rest, rfl⟩ := h
  rw [List.any_append, ha, Bool.true_or]

theorem changeSet_addTargets_ok {ids : List Value} {changes changes' : ChangeSet}
    (h : changes.addTargets ids = (changes', .ok ())) :
    ∃ targets, changes' = { changes with targets := targets } ∧ changes.targets <+: targets ∧
      ∀ id ∈ ids, targets.any (·.sameKey id) = true := by
  induction ids generalizing changes with
  | nil =>
    cases h
    exact ⟨_, rfl, List.prefix_refl _, fun _ hm => by cases hm⟩
  | cons id rest ih =>
    unfold ChangeSet.addTargets at h
    cases ha : changes.addTarget id with
    | error f => rw [ha] at h; cases h
    | ok changes₁ =>
      rw [ha] at h
      obtain ⟨targets₁, rfl, hp₁, hid⟩ := addTarget_ok ha
      obtain ⟨targets, rfl, hp, hrest⟩ := ih h
      refine ⟨targets, rfl, hp₁.trans hp, fun i hi => ?_⟩
      rcases List.mem_cons.mp hi with rfl | hi
      · exact any_of_prefix hp hid
      · exact hrest i hi

/-- Is each control named once? -/
def NamedOnce (ids : List Value) : Prop := ids.Pairwise fun a b => a.sameKey b = false

theorem addTarget_from {changes changes' : ChangeSet} {id : Value}
    (h : changes.addTarget id = .ok changes') :
    ∃ targets, changes' = { changes with targets := targets } ∧
      (NamedOnce changes.targets → NamedOnce targets) ∧
      ∀ i ∈ targets, i ∈ changes.targets ∨ i = id := by
  unfold ChangeSet.addTarget at h
  split at h
  · cases h
  · split at h
    · cases h
      exact ⟨_, rfl, fun honce => honce, fun _ hi => .inl hi⟩
    · rename_i hnew
      cases h
      refine ⟨_, rfl, fun honce => ?_, fun i hi => ?_⟩
      · refine List.pairwise_append.mpr ⟨honce, List.pairwise_singleton _ _, fun i hi j hj => ?_⟩
        cases List.mem_singleton.mp hj
        rw [Bool.eq_false_iff]
        exact fun hsame => hnew (List.any_eq_true.mpr ⟨i, hi, hsame⟩)
      · rcases List.mem_append.mp hi with hi | hi
        · exact .inl hi
        · exact .inr (List.mem_singleton.mp hi)

/-- However naming controls ends, it adds none but them to the targets, and none twice. -/
theorem changeSet_addTargets_from (changes : ChangeSet) (ids : List Value) :
    ∃ targets, (changes.addTargets ids).1 = { changes with targets := targets } ∧
      (NamedOnce changes.targets → NamedOnce targets) ∧
      ∀ i ∈ targets, i ∈ changes.targets ∨ i ∈ ids := by
  induction ids generalizing changes with
  | nil => exact ⟨_, rfl, fun honce => honce, fun _ h => .inl h⟩
  | cons id rest ih =>
    unfold ChangeSet.addTargets
    cases hadd : changes.addTarget id with
    | error f => exact ⟨_, rfl, fun honce => honce, fun _ h => .inl h⟩
    | ok changes₁ =>
      obtain ⟨targets₁, rfl, honce₁, hfirst⟩ := addTarget_from hadd
      obtain ⟨targets, ht, honce, hrest⟩ := ih { changes with targets := targets₁ }
      refine ⟨targets, ht, fun h => honce (honce₁ h), fun i hi => ?_⟩
      rcases hrest i hi with hi | hi
      · rcases hfirst i hi with hi | rfl
        · exact .inl hi
        · exact .inr List.mem_cons_self
      · exact .inr (List.mem_cons_of_mem id hi)

/-- Naming controls only adds to the targets, and in the end has all that it was given. -/
theorem addTargets_ok {ids : List Value} {w w' : World σ} (h : addTargets ids w = .ok () w') :
    ∃ targets, w' = { w with changes := { w.changes with targets := targets } } ∧
      w.changes.targets <+: targets ∧ ∀ id ∈ ids, targets.any (·.sameKey id) = true := by
  cases hr : w.changes.addTargets ids with
  | mk changes r =>
    rw [addTargets_eq, hr] at h
    obtain ⟨rfl, rfl⟩ := ofExcept_ok h
    obtain ⟨targets, rfl, hp, hids⟩ := changeSet_addTargets_ok hr
    exact ⟨targets, rfl, hp, hids⟩

/-- Handing an assignment to the clock leaves all else as it is. -/
theorem defer_aside {a : Assignment} {w w' : World σ} (h : defer a w = .ok () w') :
    w.Aside w' := by
  rw [defer_eq] at h
  split at h
  · cases h
    exact ⟨rfl, Nat.le_refl _⟩
  · cases h

theorem deferAll_aside {assignments : List Assignment} {w w' : World σ}
    (h : assignments.forM defer w = .ok () w') : w.Aside w' := by
  induction assignments generalizing w with
  | nil =>
    cases h
    exact ⟨rfl, Nat.le_refl _⟩
  | cons a rest ih =>
    obtain ⟨_, v, hv, hrest⟩ := bind_ok_inv h
    have hfirst := defer_aside hv
    have hlast := ih hrest
    exact ⟨hlast.1.trans hfirst.1, Nat.le_trans hfirst.2 hlast.2⟩

/-- A change is followed up by noting it, applying the assignments that listen and do not wait,
naming the controls it concerns, and leaving the rest to the clock. -/
theorem followUp_ok {change : Change} {w w' : World σ}
    (h : followUp functions below change w = .ok () w') :
    ∃ v x, ((w.listeningTo change.key).filter (!·.isDeferred)).forM
        (applyAssignment functions below)
        { w with changes := w.changes.record change } = .ok () v ∧
      addTargets (v.affected change.key (w.listeningTo change.key)) v = .ok () x ∧
      x.Aside w' := by
  unfold followUp at h
  obtain ⟨_, _, hd, h⟩ := bind_ok_inv h
  cases checkDepth_ok hd
  obtain ⟨_, _, hm, h⟩ := bind_ok_inv h
  cases hm
  obtain ⟨_, _, hg, h⟩ := bind_ok_inv h
  cases hg
  obtain ⟨_, v, hv, h⟩ := bind_ok_inv h
  obtain ⟨_, _, hg, h⟩ := bind_ok_inv h
  cases hg
  obtain ⟨_, x, hx, h⟩ := bind_ok_inv h
  exact ⟨v, x, hv, hx, deferAll_aside h⟩

end Manager
end Switchboard
