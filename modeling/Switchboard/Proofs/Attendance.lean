-- Who listens to a store. What the log of a run says of those who come and leave is what stands in
-- the table of listeners, no number is given twice, and who listens to a key stands in its audience
-- once.
import Mathlib.Data.List.Nodup
import Switchboard.Proofs.Ledger
namespace Switchboard.Store

open Conduct

variable {σ : Type}

/-! ## Reading the log -/

theorem attending_append (log more : List (Deed σ)) (key : Scalar) :
    attending (log ++ more) key = more.foldl (Deed.attend key) (attending log key) :=
  List.foldl_append

theorem attending_subscribed (log : List (Deed σ)) (id : Nat) (k key : Scalar)
    (listener : Listener σ) :
    attending (log ++ [.subscribed id k listener]) key =
      if k == key then attending log key ++ [(id, listener)] else attending log key :=
  attending_append _ _ _

theorem attending_unsubscribed (log : List (Deed σ)) (id : Value) (k key : Scalar) :
    attending (log ++ [.unsubscribed id k]) key =
      if k == key then (attending log key).filter fun e => !isId id e.1
      else attending log key := attending_append _ _ _

theorem attending_disposed (log : List (Deed σ)) (key : Scalar) :
    attending (log ++ [.disposed]) key = [] := attending_append _ _ _

theorem mem_attending_subscribed {log : List (Deed σ)} {id : Nat} {k key : Scalar}
    {listener : Listener σ} {e : Nat × Listener σ}
    (h : e ∈ attending (log ++ [.subscribed id k listener]) key) :
    e ∈ attending log key ∨ (k == key) = true ∧ e = (id, listener) := by
  rw [attending_subscribed] at h
  by_cases hk : (k == key) = true
  · simp only [hk, if_true, List.mem_append, List.mem_singleton] at h
    exact h.imp_right fun he => ⟨hk, he⟩
  · rw [if_neg hk] at h
    exact .inl h

theorem changesOf_append (log more : List (Deed σ)) :
    changesOf (log ++ more) = changesOf log ++ changesOf more := List.filterMap_append

theorem toldOf_append (number : Nat) (log more : List (Deed σ)) :
    toldOf number (log ++ more) = toldOf number log ++ toldOf number more := List.filterMap_append

/-! ## The table of listeners -/

theorem under_congr (store : Store (Listener σ)) {k key : Scalar} (h : (k == key) = true) :
    store.under k = store.under key := by
  unfold under
  rw [Dict.get?_congr _ h]

theorem under_put (store : Store (Listener σ)) (k key : Scalar) (d : Dict Nat (Listener σ))
    (next : Nat) :
    under { store with listeners := store.listeners.put k d, nextId := next } key =
      if k == key then d else store.under key := by
  unfold under
  rw [Dict.get?_put]
  split <;> rfl

theorem subscribe_ok {store : Store (Listener σ)} {key : Value} {k : Scalar}
    (hk : key.asKey = .ok k) (listener : Listener σ) :
    store.subscribe listener key = (.ok ⟨store.nextId, k⟩, { store with
      listeners := store.listeners.put k ((store.under k).put store.nextId listener)
      nextId := store.nextId + 1 }) := by
  unfold subscribe
  rw [hk]

theorem subscribe_error {store : Store (Listener σ)} {key : Value} {f : Fault}
    (hk : key.asKey = .error f) (listener : Listener σ) :
    store.subscribe listener key =
      (.error f, { store with nextId := store.nextId + 1 }) := by
  unfold subscribe
  rw [hk]

/-- Nothing is done, or a listener is removed. -/
theorem unsubscribe_cases {store store' : Store (Listener σ)} {id key : Value} {there : Bool}
    (h : store.unsubscribe id key = .ok (there, store')) :
    there = false ∧ store' = store ∨
      there = true ∧ ∃ k, key.asKey = .ok k ∧ store' = { store with
        listeners := store.listeners.put k ((store.under k).filter fun e => !isId id e.1) } := by
  unfold unsubscribe at h
  obtain ⟨k, hk, h⟩ := ok_of_bind_ok h
  dsimp only at h
  split at h
  · cases h
    exact .inl ⟨rfl, rfl⟩
  · split at h
    · cases h
    · split at h
      · cases h
        exact .inr ⟨rfl, k, hk, rfl⟩
      · cases h
        exact .inl ⟨rfl, rfl⟩

namespace Ledger

/-- Does the table of listeners say what the log says, and are their numbers different? -/
structure Kept (w : Ledger σ) : Prop where
  under : ∀ key, w.session.store.under key = attending w.log key
  fresh : ∀ key, ∀ e ∈ attending w.log key, e.1 < w.session.store.nextId
  once : ∀ key, ((attending w.log key).map (·.1)).Nodup
  apart : ∀ key other, (key == other) = false →
    ∀ e ∈ attending w.log key, ∀ e' ∈ attending w.log other, e.1 ≠ e'.1

namespace Kept

variable {w u : Ledger σ}

theorem audience (h : Kept w) (key : Scalar) :
    w.session.store.audience key = audienceOf w.log key := by
  unfold Store.audience audienceOf
  rw [h.under, h.under]

theorem audience_nodup (h : Kept w) (key : Scalar) :
    ((audienceOf w.log key).map (·.1)).Nodup := by
  unfold audienceOf
  by_cases hnull : (key == Scalar.null) = true
  · rw [if_pos hnull, List.append_nil]
    exact h.once key
  · rw [if_neg hnull, List.map_append, List.nodup_append]
    refine ⟨h.once key, h.once .null, fun a ha b hb => ?_⟩
    obtain ⟨e, he, rfl⟩ := List.mem_map.mp ha
    obtain ⟨e', he', rfl⟩ := List.mem_map.mp hb
    exact h.apart key .null (Bool.eq_false_iff.mpr hnull) e he e' he'

/-- What takes listeners away or leaves them. -/
theorem fewer (h : Kept w) (hunder : ∀ key, u.session.store.under key = attending u.log key)
    (hn : w.session.store.nextId ≤ u.session.store.nextId)
    (hsub : ∀ key, (attending u.log key).Sublist (attending w.log key)) : Kept u := by
  refine ⟨hunder, fun key e he => ?_, fun key => ?_, fun key other hne e he e' he' => ?_⟩
  · exact Nat.lt_of_lt_of_le (h.fresh key e ((hsub key).subset he)) hn
  · exact (h.once key).sublist ((hsub key).map _)
  · exact h.apart key other hne e ((hsub key).subset he) e' ((hsub other).subset he')

/-- Nothing is done to the table. -/
theorem aside (h : Kept w) (hl : u.session.store.listeners = w.session.store.listeners)
    (hn : w.session.store.nextId ≤ u.session.store.nextId)
    (ha : ∀ key, attending u.log key = attending w.log key) : Kept u := by
  refine h.fewer (fun key => ?_) hn fun key => (ha key).symm ▸ List.Sublist.refl _
  rw [ha, ← h.under]
  unfold Store.under
  rw [hl]

/-- A listener comes. -/
theorem subscribed (h : Kept w) (k : Scalar) (listener : Listener σ) :
    Kept (w.carried { w.session.store with
        listeners := w.session.store.listeners.put k
          ((w.session.store.under k).put w.session.store.nextId listener)
        nextId := w.session.store.nextId + 1 }
      [.subscribed w.session.store.nextId k listener]) := by
  have hnew : (w.session.store.under k).contains w.session.store.nextId = false := by
    unfold Dict.contains
    rw [h.under, List.any_eq_false]
    intro e he
    have hlt := h.fresh k e he
    simp only [beq_iff_eq]
    omega
  refine ⟨fun key => ?_, fun key e he => ?_, fun key => ?_, fun key other hne e he e' he' => ?_⟩
  · refine (under_put w.session.store k key _ _).trans ?_
    refine Eq.trans ?_ (attending_subscribed _ _ _ _ _).symm
    rw [Dict.put_of_not_contains _ _ _ hnew]
    by_cases hk : (k == key) = true
    · rw [if_pos hk, if_pos hk, under_congr _ hk, h.under]
    · rw [if_neg hk, if_neg hk, h.under]
  · change e.1 < w.session.store.nextId + 1
    rcases mem_attending_subscribed he with he | ⟨-, rfl⟩
    · exact Nat.lt_succ_of_lt (h.fresh key e he)
    · exact Nat.lt_succ_self _
  · change ((attending (w.log ++ _) key).map (·.1)).Nodup
    rw [attending_subscribed]
    split
    · rw [List.map_append, List.nodup_append]
      refine ⟨h.once key, List.nodup_singleton _, fun a ha b hb => ?_⟩
      obtain ⟨e, he, rfl⟩ := List.mem_map.mp ha
      cases List.mem_singleton.mp hb
      exact Nat.ne_of_lt (h.fresh key e he)
    · exact h.once key
  · rcases mem_attending_subscribed he with he | ⟨hk, rfl⟩ <;>
      rcases mem_attending_subscribed he' with he' | ⟨hk', rfl⟩
    · exact h.apart key other hne e he e' he'
    · exact Nat.ne_of_lt (h.fresh key e he)
    · exact (Nat.ne_of_lt (h.fresh other e' he')).symm
    · rw [BEq.trans (BEq.symm hk) hk'] at hne
      cases hne

/-- A listener leaves. -/
theorem unsubscribed (h : Kept w) (id : Value) (k : Scalar) :
    Kept (w.carried { w.session.store with
        listeners := w.session.store.listeners.put k
          ((w.session.store.under k).filter fun e => !isId id e.1) }
      [.unsubscribed id k]) := by
  refine h.fewer (fun key => ?_) (Nat.le_refl _) fun key => ?_
  · refine (under_put w.session.store k key _ _).trans ?_
    refine Eq.trans ?_ (attending_unsubscribed _ _ _ _).symm
    by_cases hk : (k == key) = true
    · rw [if_pos hk, if_pos hk, under_congr _ hk, h.under]
    · rw [if_neg hk, if_neg hk, h.under]
  · change (attending (w.log ++ _) key).Sublist _
    rw [attending_unsubscribed]
    split
    · exact List.filter_sublist
    · exact List.Sublist.refl _

/-- All listeners leave. -/
theorem disposed (h : Kept w) : Kept (w.carried w.session.store.dispose [.disposed]) := by
  refine h.fewer (fun key => (attending_disposed _ key).symm) (Nat.le_refl _) fun key => ?_
  change (attending (w.log ++ _) key).Sublist _
  rw [attending_disposed]
  exact List.nil_sublist _

end Kept
end Ledger

end Switchboard.Store
