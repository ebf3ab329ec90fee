-- Handles of listeners. Each listener that subscribes is given a handle, by which it can be
-- removed. Handles may be made up, used twice, or kept when all listeners were dropped: still a
-- handle removes the listener that it was given to and no other, and no number is ever given twice.
import Mathlib.Data.List.Induction
import Switchboard.Proofs.Requests
namespace Switchboard.Store

variable {σ : Type}

/-! ## Who should be there -/

/-- Does it remove the listener of a number under a key? -/
def Request.Removes (id : Nat) (key : Scalar) : Request σ → Prop
  | asked given k answer =>
    answer = .ok true ∧ isId given id = true ∧ ∃ k', k.asKey = .ok k' ∧ (k' == key) = true
  | disposed => True
  | _ => False

/-- Has a listener come under a number and a key, and not been removed since? -/
def Remains (log : List (Visit σ)) (id : Nat) (key : Scalar) (listener : Listener σ) : Prop :=
  ∃ front v back k, log = front ++ v :: back ∧ v.request = .came ⟨id, k⟩ listener ∧
    (k == key) = true ∧ ∀ v' ∈ back, ¬ v'.request.Removes id key

def Request.issued? : Request σ → Option Nat
  | came handle _ => some handle.id
  | _ => none

/-- The numbers of all handles that were given. -/
def issued (log : List (Visit σ)) : List Nat := log.filterMap (·.request.issued?)

/-- Has a listener come under a number, and been removed since? -/
def Spent (log : List (Visit σ)) (id : Nat) : Prop :=
  ∃ front v back k listener, log = front ++ v :: back ∧ v.request = .came ⟨id, k⟩ listener ∧
    ∃ v' ∈ back, v'.request.Removes id k

/-- Does a request do to the table of listeners what it should? -/
def Visit.Fair (v : Visit σ) : Prop :=
  match v.request with
  | .came handle listener => ∀ key, v.after.under key =
    if handle.key == key then v.before.under key ++ [(handle.id, listener)] else v.before.under key
  | .refused _ => v.after.listeners = v.before.listeners
  | .asked id key (.ok true) => ∃ k front e back, key.asKey = .ok k ∧ isId id e.1 = true ∧
    v.before.under k = front ++ e :: back ∧
    ∀ other, v.after.under other = if k == other then front ++ back else v.before.under other
  | .asked _ _ (.ok false) => v.after = v.before
  | .asked id key (.error f) => v.after = v.before ∧ f = .wrongType ∧
    (key.asKey = .error f ∨ id.isHashable = false)
  | .disposed => ∀ key, v.after.under key = []

/-! ## Who remains -/

/-- What is done when a request is made. -/
def Request.deeds : Request σ → List (Deed σ)
  | came handle listener => [.subscribed handle.id handle.key listener]
  | refused _ => []
  | asked id key (.ok there) => Deed.departure id key.asKey there
  | asked _ _ (.error _) => []
  | disposed => [.disposed]

def deedsOf (log : List (Visit σ)) : List (Deed σ) := log.flatMap (·.request.deeds)

theorem deedsOf_concat (log : List (Visit σ)) (v : Visit σ) :
    deedsOf (log ++ [v]) = deedsOf log ++ v.request.deeds := by
  unfold deedsOf
  rw [List.flatMap_append, List.flatMap_singleton]

theorem remains_concat {log : List (Visit σ)} {v : Visit σ} {id : Nat} {key : Scalar}
    {listener : Listener σ} : Remains (log ++ [v]) id key listener ↔
      Remains log id key listener ∧ ¬ v.request.Removes id key ∨
        ∃ k, v.request = .came ⟨id, k⟩ listener ∧ (k == key) = true := by
  constructor
  · rintro ⟨front, u, back, k, hlog, hu, hk, hback⟩
    rcases List.eq_nil_or_concat back with rfl | ⟨back, v', rfl⟩
    · obtain ⟨rfl, hv⟩ := List.append_inj' hlog rfl
      cases hv
      exact .inr ⟨k, hu, hk⟩
    · rw [List.concat_eq_append] at hlog hback
      rw [← List.cons_append, ← List.append_assoc] at hlog
      obtain ⟨rfl, hv⟩ := List.append_inj' hlog rfl
      cases hv
      have hstays : Remains (front ++ u :: back) id key listener :=
        ⟨front, u, back, k, rfl, hu, hk, fun v' hv' => hback v' (List.mem_append_left _ hv')⟩
      exact .inl ⟨hstays, hback v (List.mem_append_right _ List.mem_cons_self)⟩
  · rintro (⟨⟨front, u, back, k, rfl, hu, hk, hback⟩, hv⟩ | ⟨k, hv, hk⟩)
    · refine ⟨front, u, back ++ [v], k, by simp, hu, hk, fun v' hv' => ?_⟩
      rcases List.mem_append.mp hv' with hv' | hv'
      · exact hback v' hv'
      · cases List.mem_singleton.mp hv'
        exact hv
    · exact ⟨log, v, [], k, rfl, hv, hk, fun _ hv' => (List.not_mem_nil hv').elim⟩

theorem attending_nil (log : List (Deed σ)) (key : Scalar) :
    attending (log ++ []) key = attending log key := attending_append _ _ _

theorem departure_false (id : Value) (key : Except Fault Scalar) :
    (Deed.departure id key false : List (Deed σ)) = [] := by
  cases key <;> rfl

/-- Who is there after a request was there before and is not removed by it, or comes with it. -/
theorem mem_attending_deeds {log : List (Deed σ)} {request : Request σ} {id : Nat} {key : Scalar}
    {listener : Listener σ} : (id, listener) ∈ attending (log ++ request.deeds) key ↔
      (id, listener) ∈ attending log key ∧ ¬ request.Removes id key ∨
        ∃ k, request = .came ⟨id, k⟩ listener ∧ (k == key) = true := by
  cases request with
  | came handle other =>
    obtain ⟨number, k⟩ := handle
    simp only [Request.deeds, attending_subscribed, Request.Removes, not_false_eq_true, and_true]
    by_cases hk : (k == key) = true
    · rw [if_pos hk, List.mem_append, List.mem_singleton]
      grind
    · rw [if_neg hk]
      grind
  | refused k => simp [Request.deeds, Request.Removes]
  | asked given k answer =>
    rcases answer with f | _ | _
    · simp [Request.deeds, Request.Removes]
    · simp [Request.deeds, departure_false, Request.Removes]
    · cases hasked : k.asKey with
      | error f => simp [Request.deeds, hasked, Deed.departure, Request.Removes]
      | ok k' =>
        simp only [Request.deeds, hasked, Deed.departure, attending_unsubscribed]
        by_cases hk : (k' == key) = true <;> simp [Request.Removes, hasked, hk]
  | disposed => simp [Request.deeds, attending_disposed, Request.Removes]

/-- Those remain who came and have not left. -/
theorem remains_iff {log : List (Visit σ)} {id : Nat} {key : Scalar} {listener : Listener σ} :
    Remains log id key listener ↔ (id, listener) ∈ attending (deedsOf log) key := by
  induction log using List.reverseRecOn with
  | nil =>
    refine ⟨fun ⟨front, v, back, k, hlog, _⟩ => ?_, fun h => (List.not_mem_nil h).elim⟩
    exact absurd hlog.symm (List.append_ne_nil_of_right_ne_nil _ (List.cons_ne_nil _ _))
  | append_singleton log v ih => rw [remains_concat, deedsOf_concat, mem_attending_deeds, ih]

/-! ## What stands in the table -/

theorem isId_unique {id : Value} {a b : Nat} (ha : isId id a = true) (hb : isId id b = true) :
    a = b := by
  unfold isId at ha hb
  cases id with
  | scalar s =>
    have hs := ((Scalar.beq_iff _ _).mp ha).symm.trans ((Scalar.beq_iff _ _).mp hb)
    cases hs
    rfl
  | _ => cases ha

theorem isHashable_of_isId {id : Value} {a : Nat} (h : isId id a = true) :
    id.isHashable = true := by
  cases id with
  | scalar s => rfl
  | _ => cases h

theorem unsubscribe_eq {store : Store (Listener σ)} {id key : Value} {k : Scalar}
    (hk : key.asKey = .ok k) : store.unsubscribe id key =
      if (store.under k).isEmpty then .ok (false, store)
      else if !id.isHashable then .error .wrongType
      else if (store.under k).any (fun e => isId id e.1) then
        .ok (true, { store with
          listeners := store.listeners.put k ((store.under k).filter fun e => !isId id e.1) })
      else .ok (false, store) := by
  unfold unsubscribe
  rw [hk]
  rfl

theorem unsubscribe_of_mem {store : Store (Listener σ)} {id key : Value} {k : Scalar}
    {e : Nat × Listener σ} (hk : key.asKey = .ok k) (he : e ∈ store.under k)
    (hid : isId id e.1 = true) : store.unsubscribe id key = .ok (true, { store with
      listeners := store.listeners.put k ((store.under k).filter fun e => !isId id e.1) }) := by
  have hany : (store.under k).any (fun e => isId id e.1) = true := List.any_eq_true.mpr ⟨e, he, hid⟩
  have hempty : (store.under k).isEmpty = false :=
    List.isEmpty_eq_false_iff.mpr (List.ne_nil_of_mem he)
  rw [unsubscribe_eq hk, hempty, isHashable_of_isId hid, hany]
  rfl

/-- A listener that is removed was there. -/
theorem exists_of_unsubscribe {store store' : Store (Listener σ)} {id key : Value}
    (h : store.unsubscribe id key = .ok (true, store')) :
    ∃ k, key.asKey = .ok k ∧ ∃ e ∈ store.under k, isId id e.1 = true := by
  cases hk : key.asKey with
  | error f =>
    unfold unsubscribe at h
    rw [hk] at h
    cases h
  | ok k =>
    rw [unsubscribe_eq hk] at h
    split at h
    · cases h
    · split at h
      · cases h
      · split at h
        · exact ⟨k, rfl, List.any_eq_true.mp ‹_›⟩
        · cases h

/-- To be asked is refused if the key cannot be one, or if the number cannot be looked up. -/
theorem error_of_unsubscribe {store : Store (Listener σ)} {id key : Value} {f : Fault}
    (h : store.unsubscribe id key = .error f) :
    f = .wrongType ∧ (key.asKey = .error f ∨ id.isHashable = false) := by
  cases hk : key.asKey with
  | error f' =>
    unfold unsubscribe at h
    rw [hk] at h
    cases h
    refine ⟨?_, .inl rfl⟩
    cases key <;> cases hk <;> rfl
  | ok k =>
    rw [unsubscribe_eq hk] at h
    split at h
    · cases h
    · split at h
      · cases h
        exact ⟨rfl, .inr (by simpa using ‹(!id.isHashable) = true›)⟩
      · split at h <;> cases h

/-- Of those whose numbers are all different, a number that is there names one. -/
theorem filter_isId {there : Dict Nat (Listener σ)} (honce : (there.map (·.1)).Nodup) {id : Value}
    {e : Nat × Listener σ} (he : e ∈ there) (hid : isId id e.1 = true) :
    ∃ front back, there = front ++ e :: back ∧
      (there.filter fun e => !isId id e.1) = front ++ back := by
  obtain ⟨front, back, rfl⟩ := List.append_of_mem he
  rw [List.map_append, List.map_cons, List.nodup_middle, List.nodup_cons, ← List.map_append]
    at honce
  have hothers : ∀ e' ∈ front ++ back, (!isId id e'.1) = true := by
    intro e' he'
    rw [Bool.not_eq_true']
    by_contra hsame
    exact honce.1 (List.mem_map.mpr
      ⟨e', he', isId_unique (Bool.of_not_eq_false hsame) hid⟩)
  refine ⟨front, back, rfl, ?_⟩
  rw [List.filter_append, List.filter_cons_of_neg (by simp [hid]), ← List.filter_append]
  exact List.filter_eq_self.mpr hothers

namespace Path

variable {state : Dict Scalar Value} {s : Store (Listener σ)} {log : List (Visit σ)}

/-- What the requests say of the listeners is what stands in their table. -/
theorem kept (host : σ) (h : Path (.ofState state) log s) :
    Ledger.Kept { session := ⟨s, host⟩, log := deedsOf log } := by
  induction h with
  | nil =>
    exact ⟨fun _ => rfl, fun _ _ he => (List.not_mem_nil he).elim, fun _ => List.nodup_nil,
      fun _ _ _ _ he => (List.not_mem_nil he).elim⟩
  | stored _ hl hn ih => exact ih.aside hl (Nat.le_of_eq hn.symm) fun _ => rfl
  | visit _ hs ih =>
    rw [deedsOf_concat]
    cases hs with
    | subscribed key listener =>
      cases hk : key.asKey with
      | ok k =>
        rw [subscribe_ok hk]
        exact ih.subscribed k listener
      | error f =>
        rw [subscribe_error hk]
        exact ih.aside rfl (Nat.le_succ _) fun _ => attending_nil _ _
    | answered hu =>
      rcases unsubscribe_cases hu with ⟨rfl, rfl⟩ | ⟨rfl, k, hk, rfl⟩
      · simp only [Request.deeds, departure_false]
        exact ih.aside rfl (Nat.le_refl _) fun _ => attending_nil _ _
      · simp only [Request.deeds, hk]
        exact ih.unsubscribed _ k
    | failed hu => exact ih.aside rfl (Nat.le_refl _) fun _ => attending_nil _ _
    | disposed => exact ih.disposed

end Path

/-! ## What a request does -/

namespace Step

variable {s s' : Store (Listener σ)} {request : Request σ}

/-- A number that is given was not used up before, and is now. -/
theorem issues (h : Step s request s') :
    s.nextId ≤ s'.nextId ∧ ∀ id ∈ request.issued?, s.nextId ≤ id ∧ id < s'.nextId := by
  cases h with
  | subscribed key listener =>
    cases hk : key.asKey with
    | ok k =>
      rw [subscribe_ok hk]
      refine ⟨Nat.le_succ _, fun id hid => ?_⟩
      cases hid
      exact ⟨Nat.le_refl _, Nat.lt_succ_self _⟩
    | error f =>
      rw [subscribe_error hk]
      exact ⟨Nat.le_succ _, nofun⟩
  | answered hu =>
    rcases unsubscribe_cases hu with ⟨-, rfl⟩ | ⟨-, k, -, rfl⟩ <;> exact ⟨Nat.le_refl _, nofun⟩
  | failed hu => exact ⟨Nat.le_refl _, nofun⟩
  | disposed => exact ⟨Nat.le_refl _, nofun⟩

/-- A request does to the table what it should, if the table says what the requests say. -/
theorem fair (h : Step s request s') {host : σ} {log : List (Deed σ)}
    (hk : Ledger.Kept { session := ⟨s, host⟩, log })
    (hk' : Ledger.Kept { session := ⟨s', host⟩, log := log ++ request.deeds }) :
    Visit.Fair ⟨request, s, s'⟩ := by
  have hunder : ∀ key, s.under key = attending log key := hk.under
  have hunder' : ∀ key, s'.under key = attending (log ++ request.deeds) key := hk'.under
  cases h with
  | subscribed key listener =>
    cases hkey : key.asKey with
    | ok k =>
      rw [subscribe_ok hkey] at hunder' ⊢
      intro other
      exact (hunder' other).trans (hunder other ▸ attending_subscribed _ _ _ _ _)
    | error f =>
      rw [subscribe_error hkey]
      rfl
  | answered hu =>
    rcases unsubscribe_cases hu with ⟨rfl, rfl⟩ | ⟨rfl, k, hkey, rfl⟩
    · rfl
    · obtain ⟨k', hkey', e, he, hid⟩ := exists_of_unsubscribe hu
      cases hkey.symm.trans hkey'
      obtain ⟨front, back, hthere, hleft⟩ := filter_isId (hunder k ▸ hk.once k) he hid
      refine ⟨k, front, e, back, hkey, hid, hthere, fun other => ?_⟩
      rw [← hleft]
      exact under_put s k other _ _
  | failed hu => exact ⟨rfl, error_of_unsubscribe hu⟩
  | disposed => exact fun _ => rfl

end Step

theorem issued_concat (log : List (Visit σ)) (v : Visit σ) :
    issued (log ++ [v]) = issued log ++ v.request.issued?.toList := by
  unfold issued
  rw [List.filterMap_append]
  cases hv : v.request.issued? <;> simp [hv]

/-- The numbers that are given grow. -/
theorem Path.issued_lt {state : Dict Scalar Value} {s : Store (Listener σ)}
    {log : List (Visit σ)} (h : Path (.ofState state) log s) :
    (issued log).Pairwise (· < ·) ∧ ∀ id ∈ issued log, id < s.nextId := by
  induction h with
  | nil => exact ⟨.nil, nofun⟩
  | stored _ _ hn ih => exact ⟨ih.1, hn ▸ ih.2⟩
  | @visit log s s' request _ hs ih =>
    obtain ⟨hle, hnew⟩ := hs.issues
    have hlast : ∀ id ∈ request.issued?.toList, s.nextId ≤ id ∧ id < s'.nextId := fun id hid =>
      hnew id (Option.mem_toList.mp hid)
    rw [issued_concat]
    constructor
    · refine List.pairwise_append.mpr ⟨ih.1, ?_, fun id hid id' hid' => ?_⟩
      · change request.issued?.toList.Pairwise _
        cases request.issued? with
        | none => exact .nil
        | some id => exact List.pairwise_singleton _ _
      · exact Nat.lt_of_lt_of_le (ih.2 id hid) (hlast id' hid').1
    · intro id hid
      rcases List.mem_append.mp hid with hid | hid
      · exact Nat.lt_of_lt_of_le (ih.2 id hid) hle
      · exact (hlast id hid).2

/-- What came under a number is found by it. -/
theorem visit_unique {log front front' back back' : List (Visit σ)} {u u' : Visit σ} {id : Nat}
    (h : (issued log).Pairwise (· < ·)) (hlog : log = front ++ u :: back)
    (hlog' : log = front' ++ u' :: back') (hu : u.request.issued? = some id)
    (hu' : u'.request.issued? = some id) : front = front' ∧ u = u' ∧ back = back' := by
  -- Of two visits under one number the later would have had to be given a greater one.
  have hapart : ∀ {front mid back : List (Visit σ)} {u u' : Visit σ},
      log = front ++ u :: (mid ++ u' :: back) → u.request.issued? = some id →
        u'.request.issued? ≠ some id := by
    intro front mid back u u' hlog hu hu'
    rw [hlog] at h
    unfold issued at h
    simp only [List.filterMap_append, List.filterMap_cons, hu, hu'] at h
    have hlater := (List.pairwise_cons.mp (List.pairwise_append.mp h).2.1).1
    exact Nat.lt_irrefl id (hlater id (List.mem_append_right _ List.mem_cons_self))
  rcases List.append_eq_append_iff.mp (hlog.symm.trans hlog') with
    ⟨_ | ⟨w, mid⟩, hfront, hrest⟩ | ⟨_ | ⟨w, mid⟩, hfront, hrest⟩
  · rw [List.append_nil] at hfront
    obtain ⟨rfl, rfl⟩ := List.cons.inj hrest
    exact ⟨hfront.symm, rfl, rfl⟩
  · obtain ⟨rfl, rfl⟩ := List.cons.inj hrest
    exact absurd hu' (hapart hlog hu)
  · rw [List.append_nil] at hfront
    obtain ⟨rfl, rfl⟩ := List.cons.inj hrest
    exact ⟨hfront, rfl, rfl⟩
  · obtain ⟨rfl, rfl⟩ := List.cons.inj hrest
    exact absurd hu (hapart hlog' hu')

theorem Request.removes_congr {request : Request σ} {id : Nat} {key other : Scalar}
    (h : (key == other) = true) (hr : request.Removes id key) : request.Removes id other := by
  cases request with
  | asked given k answer =>
    obtain ⟨hyes, hid, k', hk', hsame⟩ := hr
    exact ⟨hyes, hid, k', hk', BEq.trans hsame h⟩
  | _ => exact hr

/-- Who remains has not been removed, and never comes again. -/
theorem Remains.not_spent {log : List (Visit σ)} {id : Nat} {key : Scalar}
    {listener : Listener σ} (h : (issued log).Pairwise (· < ·)) (hr : Remains log id key listener) :
    ¬ Spent log id := by
  rintro ⟨front, u, back, k, other, hlog, hu, v, hv, hremoves⟩
  obtain ⟨front', u', back', k', hlog', hu', hsame, hstays⟩ := hr
  have hissued : u.request.issued? = some id := by rw [hu]; rfl
  have hissued' : u'.request.issued? = some id := by rw [hu']; rfl
  obtain ⟨-, rfl, rfl⟩ := visit_unique h hlog hlog' hissued hissued'
  cases hu.symm.trans hu'
  exact hstays v hv (Request.removes_congr hsame hremoves)

/-- The answer is yes if a listener of the number stands under the key. -/
theorem Step.answer_true_iff {s s' : Store (Listener σ)} {id key : Value}
    {answer : Except Fault Bool} (h : Step s (.asked id key answer) s') :
    answer = .ok true ↔ ∃ k, key.asKey = .ok k ∧ ∃ e ∈ s.under k, isId id e.1 = true := by
  generalize hrequest : Request.asked id key answer = request at h
  cases h with
  | subscribed k listener =>
    cases hk : k.asKey <;> simp [subscribe, hk, Request.ofArrival] at hrequest
  | answered hu =>
    cases hrequest
    constructor
    · intro hyes
      cases hyes
      exact exists_of_unsubscribe hu
    · rintro ⟨k, hk, e, he, hid⟩
      cases (unsubscribe_of_mem hk he hid).symm.trans hu
      rfl
  | failed hu =>
    cases hrequest
    refine ⟨nofun, fun ⟨k, hk, e, he, hid⟩ => ?_⟩
    cases (unsubscribe_of_mem hk he hid).symm.trans hu
  | disposed => cases hrequest

/-! ## Handles -/

/-- In any run of a program that subscribes, asks with handles of any origin, disposes and stores,
at any moment and from within the delivery of a change, the listeners in the table are those that
came and were not removed since. To ask for the removal of a listener succeeds if and only if it is
such a one, takes it away and no other, and leaves the rest in order. No number is given twice, and
a handle whose listener was removed once removes nothing again. -/
theorem a_handle_removes_its_own_listener_and_only_once (n : Nat) (p : Program interface σ)
    (state : Dict Scalar Value) (host : σ) :
    let r := Journal.run n p { session := ⟨.ofState state, host⟩ }
    let log := (Run.ending r).log
    Run.project Journal.session r = Session.run n p ⟨.ofState state, host⟩ ∧
      (issued log).Pairwise (· < ·) ∧
      ∀ pre v, pre ++ [v] <+: log →
        (∀ id key listener, (id, listener) ∈ v.before.under key ↔ Remains pre id key listener) ∧
        (∀ id key answer, v.request = .asked id key answer →
          (answer = .ok true ↔ ∃ i k listener,
            isId id i = true ∧ key.asKey = .ok k ∧ Remains pre i k listener) ∧
          ∀ i, isId id i = true → Spent pre i → answer ≠ .ok true) ∧
        v.Fair := by
  intro r log
  obtain ⟨more, hlog, hpath⟩ : ∃ more, log = more ∧
      Path (.ofState state) more (Run.ending r).session.store :=
    (Journal.recording_run n p).ending id { session := ⟨.ofState state, host⟩ }
  subst hlog
  refine ⟨Journal.projects_run n p _, hpath.issued_lt.1, fun pre v hpre => ?_⟩
  obtain ⟨hbefore, hstep⟩ := hpath.upTo hpre
  have hkept := hbefore.kept host
  have hkept' := (hbefore.visit hstep).kept host
  rw [deedsOf_concat] at hkept'
  have htable : ∀ id key listener, (id, listener) ∈ v.before.under key ↔
      Remains pre id key listener := fun id key listener => by
    rw [remains_iff, ← hkept.under]
  have hanswer : ∀ {id key answer}, v.request = .asked id key answer →
      (answer = .ok true ↔ ∃ i k listener,
        isId id i = true ∧ key.asKey = .ok k ∧ Remains pre i k listener) := by
    intro id key answer hv
    rw [hv] at hstep
    rw [hstep.answer_true_iff]
    constructor
    · rintro ⟨k, hk, ⟨i, listener⟩, he, hid⟩
      exact ⟨i, k, listener, hid, hk, (htable _ _ _).mp he⟩
    · rintro ⟨i, k, listener, hid, hk, hr⟩
      exact ⟨k, hk, (i, listener), (htable _ _ _).mpr hr, hid⟩
  refine ⟨htable, fun id key answer hv => ⟨hanswer hv, fun i hid hspent hyes => ?_⟩,
    hstep.fair hkept hkept'⟩
  obtain ⟨i', k, listener, hid', -, hr⟩ := (hanswer hv).mp hyes
  cases isId_unique hid hid'
  exact hr.not_spent hbefore.issued_lt.1 hspent

def quiet : Program interface Unit := .done .null

/-- A listener comes, all are dropped, another comes, and the handle of the first is used. -/
def comings : Program interface Unit :=
  .perform (.subscribe .null) (fun _ => quiet) fun _ =>
    .perform .dispose nofun fun _ =>
      .perform (.subscribe .null) (fun _ => quiet) fun _ =>
        .perform (.unsubscribe (.int 1) .null) nofun fun _ => quiet

theorem an_old_handle_does_not_remove_a_newcomer :
    let log := (Run.ending (Journal.run 2 comings { session := ⟨.ofState [], ()⟩ })).log
    issued log = [1, 2] ∧ ∃ pre v, pre ++ [v] <+: log ∧
      v.request = .asked (.int 1) .null (.ok false) ∧ Spent pre 1 ∧
      Remains pre 2 .null (fun _ => quiet) ∧ v.after = v.before := by
  intro log
  have hlength : log.length = 4 := by decide +kernel
  refine ⟨by decide +kernel, log.take 3, log[3], ?_⟩
  obtain ⟨-, -, hlog⟩ := a_handle_removes_its_own_listener_and_only_once 2 comings [] ()
  obtain ⟨htable, hanswer, hfair⟩ := hlog (log.take 3) log[3] ⟨[], rfl⟩
  have hasked : (log[3]).request = .asked (.int 1) .null (.ok false) := rfl
  refine ⟨⟨[], rfl⟩, hasked, ?_, (htable 2 .null _).mp (.head _), ?_⟩
  · exact ⟨[], log[0], (log.take 3).drop 1, .null, _, rfl, rfl, log[1], .head _, trivial⟩
  · exact hfair

end Switchboard.Store
