-- What listeners hear is a faithful history. Listeners may store values, subscribe, unsubscribe and
-- dispose of all listeners while they are being told of a change. Still the changes of each key are
-- a chain, and each change is told once to each of those who listened when it was stored, in the
-- order in which they subscribed, those of its key first.
import Switchboard.Proofs.Attendance
namespace Switchboard.Store

open Conduct

variable {σ : Type}

/-! ## Stretches of a log -/

/-- What is due to be told of the change of one number. -/
def dueOf (number : Nat) (deliveries : List ((Nat × Listener σ) × Change)) (n : Nat) :
    List ((Nat × Listener σ) × Change) := if n = number then deliveries else []

def nothingDue : Nat → List ((Nat × Listener σ) × Change) := fun _ => []

/-- In a stretch of the log, of each change that is stored in it those are told who listened then,
and of the changes that were stored before those to whom it is due. -/
structure Stretch (due : Nat → List ((Nat × Listener σ) × Change)) (before more : List (Deed σ)) :
    Prop where
  own : ∀ n, n < (changesOf before).length → toldOf n more = due n
  stored : ∀ pre c post, more = pre ++ .stored c :: post →
    toldOf (changesOf (before ++ pre)).length more =
      (audienceOf (before ++ pre) c.key).map (·, c) ∧
    ((audienceOf (before ++ pre) c.key).map (·.1)).Nodup
  bounded : ∀ n, (changesOf (before ++ more)).length ≤ n → toldOf n more = []

namespace Stretch

variable {due due' : Nat → List ((Nat × Listener σ) × Change)} {before more rest : List (Deed σ)}

theorem length_le (before more : List (Deed σ)) :
    (changesOf before).length ≤ (changesOf (before ++ more)).length := by
  rw [changesOf_append, List.length_append]
  exact Nat.le_add_right _ _

theorem length_lt (before pre post : List (Deed σ)) (c : Change) :
    (changesOf (before ++ pre)).length <
      (changesOf (before ++ (pre ++ .stored c :: post))).length := by
  have hone : changesOf (.stored c :: post : List (Deed σ)) = c :: changesOf post := rfl
  rw [← List.append_assoc, changesOf_append (before ++ pre), hone]
  simp

/-- Nothing is stored, and no one is told. -/
theorem quiet (hc : ∀ d ∈ more, d.change? = none) (ht : ∀ d ∈ more, ∀ n, d.told? n = none) :
    Stretch nothingDue before more := by
  have hnone : ∀ n, toldOf n more = [] := fun n =>
    List.filterMap_eq_nil_iff.mpr fun d hd => ht d hd n
  refine ⟨fun n _ => hnone n, fun pre c post hmore => ?_, fun n _ => hnone n⟩
  have hstored := hc (.stored c) (hmore ▸ List.mem_append_right _ List.mem_cons_self)
  cases hstored

/-- A listener is told of a change that was stored before. -/
theorem told {k : Nat} (hk : k < (changesOf before).length) (e : Nat × Listener σ) (c : Change) :
    Stretch (dueOf k [(e, c)]) before [.told k e c] := by
  have htold : ∀ n, toldOf n [.told k e c] = dueOf k [(e, c)] n := by
    intro n
    by_cases hn : k = n
    · simp [toldOf, Deed.told?, dueOf, hn]
    · simp [toldOf, Deed.told?, dueOf, hn, Ne.symm hn]
  refine ⟨fun n _ => htold n, fun pre d post hmore => ?_, fun n hn => ?_⟩
  · have hmem : (.stored d : Deed σ) ∈ [.told k e c] :=
      hmore ▸ List.mem_append_right _ List.mem_cons_self
    cases List.mem_singleton.mp hmem
  · have hle := length_le before [.told k e c]
    rw [htold, dueOf, if_neg (by omega)]

theorem append (h : Stretch due before more) (h' : Stretch due' (before ++ more) rest)
    (hlate : ∀ n, (changesOf before).length ≤ n → due' n = []) :
    Stretch (fun n => due n ++ due' n) before (more ++ rest) := by
  have hle := length_le before more
  refine ⟨fun n hn => ?_, fun pre c post hsplit => ?_, fun n hn => ?_⟩
  · rw [toldOf_append, h.own n hn, h'.own n (Nat.lt_of_lt_of_le hn hle)]
  · rw [toldOf_append]
    rcases List.append_eq_append_iff.mp hsplit with ⟨pre', rfl, hrest⟩ | ⟨post', hmore, hpost⟩
    · rw [← List.append_assoc, h.bounded _ (length_le _ _), List.nil_append]
      exact h'.stored pre' c post hrest
    · cases post' with
      | nil =>
        rw [List.nil_append] at hpost
        rw [List.append_nil] at hmore
        subst hmore
        rw [h.bounded _ (Nat.le_refl _), List.nil_append]
        have hown := h'.stored [] c post hpost.symm
        rw [List.append_nil] at hown
        exact hown
      | cons d post' =>
        obtain ⟨rfl, rfl⟩ := List.cons.inj hpost
        have hlt := length_lt before pre post' c
        rw [← hmore] at hlt
        rw [h'.own _ hlt, hlate _ (length_le _ _), List.append_nil]
        exact h.stored pre c post' hmore
  · rw [← List.append_assoc] at hn
    rw [toldOf_append, h'.bounded n hn, List.append_nil]
    exact h.bounded n (Nat.le_trans (length_le _ _) hn)

/-- A change is stored, and those who listen are told. -/
theorem after_stored {c : Change} (h : Stretch
      (dueOf (changesOf before).length ((audienceOf before c.key).map (·, c)))
      (before ++ [.stored c]) more) (hd : ((audienceOf before c.key).map (·.1)).Nodup) :
    Stretch nothingDue before (.stored c :: more) := by
  have hskip : ∀ n, toldOf n (.stored c :: more) = toldOf n more := fun n => rfl
  have hlt : (changesOf before).length < (changesOf (before ++ [.stored c])).length := by
    simpa using length_lt before [] [] c
  refine ⟨fun n hn => ?_, fun pre d post hsplit => ?_, fun n hn => ?_⟩
  · rw [hskip, h.own n (Nat.lt_trans hn hlt), dueOf, if_neg (Nat.ne_of_lt hn)]
    rfl
  · rw [hskip]
    cases pre with
    | nil =>
      obtain ⟨hc, rfl⟩ := List.cons.inj hsplit
      cases hc
      rw [List.append_nil, h.own _ hlt, dueOf, if_pos rfl]
      exact ⟨rfl, hd⟩
    | cons d' pre =>
      obtain ⟨rfl, rfl⟩ := List.cons.inj hsplit
      rw [List.append_cons]
      exact h.stored pre d post rfl
  · rw [List.append_cons] at hn
    exact h.bounded n hn

end Stretch
namespace Ledger

variable {w u w' : Ledger σ} {due due' : Nat → List ((Nat × Listener σ) × Change)}

/-! ## What one run leads to -/

/-- From one ledger to another more is done: values are stored one after the other, and the table of
listeners follows. -/
structure Grows (w w' : Ledger σ) (more : List (Deed σ)) : Prop where
  log : w'.log = w.log ++ more
  leads : Leads w.session.store.state (changesOf more) w'.session.store.state
  kept : Kept w → Kept w'

theorem Grows.append {more rest : List (Deed σ)} (h : Grows w u more) (h' : Grows u w' rest) :
    Grows w w' (more ++ rest) := by
  refine ⟨by rw [h'.log, h.log, List.append_assoc], ?_, h'.kept ∘ h.kept⟩
  rw [changesOf_append]
  exact h.leads.append h'.leads

/-- Unless a listener raises, all that are told of a change are told, and only those. -/
def Onward (due : Nat → List ((Nat × Listener σ) × Change)) (w w' : Ledger σ) : Prop :=
  ∃ more, Grows w w' more ∧ (Kept w → more.any (·.isRaised) = false → Stretch due w.log more)

/-- A listener raises. -/
def Raises (w w' : Ledger σ) : Prop :=
  ∃ more, Grows w w' more ∧ more.any (·.isRaised) = true

theorem Onward.trans (h : Onward due w u) (h' : Onward due' u w')
    (hlate : ∀ n, (changesOf w.log).length ≤ n → due' n = []) :
    Onward (fun n => due n ++ due' n) w w' := by
  obtain ⟨more, hg, hs⟩ := h
  obtain ⟨rest, hg', hs'⟩ := h'
  refine ⟨more ++ rest, hg.append hg', fun hk hnone => ?_⟩
  rw [List.any_append, Bool.or_eq_false_iff] at hnone
  have hrest := hs' (hg.kept hk) hnone.2
  rw [hg.log] at hrest
  exact (hs hk hnone.1).append hrest hlate

theorem Raises.onward (h : Raises w w') : Onward due w w' := by
  obtain ⟨more, hg, hraised⟩ := h
  refine ⟨more, hg, fun _ hnone => ?_⟩
  rw [hraised] at hnone
  cases hnone

theorem Raises.after (h : Onward due w u) (h' : Raises u w') : Raises w w' := by
  obtain ⟨more, hg, -⟩ := h
  obtain ⟨rest, hg', hraised⟩ := h'
  exact ⟨more ++ rest, hg.append hg', by rw [List.any_append, hraised, Bool.or_true]⟩

/-- What stores nothing and tells no one. -/
theorem onward_quiet {more : List (Deed σ)} (hlog : w'.log = w.log ++ more)
    (hstate : w'.session.store.state = w.session.store.state) (hkept : Kept w → Kept w')
    (hc : ∀ d ∈ more, d.change? = none) (ht : ∀ d ∈ more, ∀ n, d.told? n = none) :
    Onward nothingDue w w' := by
  have hnone : changesOf more = [] := List.filterMap_eq_nil_iff.mpr hc
  refine ⟨more, ⟨hlog, ?_, hkept⟩, fun _ _ => .quiet hc ht⟩
  rw [hnone]
  exact hstate

theorem onward_refl (w : Ledger σ) : Onward nothingDue w w :=
  onward_quiet (List.append_nil _).symm rfl id nofun nofun

/-- To go on, and to owe nothing. -/
def faithful : Conduct (Ledger σ) :=
  always (Onward nothingDue) onward_refl fun h h' => h.trans h' fun _ _ => rfl

/-! ## Telling a change -/

/-- Does a computation tell what is due, unless a listener raises? -/
def Tells (due : Nat → List ((Nat × Listener σ) × Change)) (act : Run (Ledger σ) Unit)
    (w : Ledger σ) : Prop :=
  match act w with
  | .ok _ w' => Onward due w w'
  | .error _ w' => Raises w w'

/-- One thing after the other. -/
theorem Tells.andThen {act next : Run (Ledger σ) Unit} (h : Tells due act w)
    (hn : ∀ u more, u.log = w.log ++ more → Tells due' next u)
    (hlate : ∀ n, (changesOf w.log).length ≤ n → due' n = []) :
    Tells (fun n => due n ++ due' n) (act >>= fun _ => next) w := by
  unfold Tells at h
  cases hr : act w with
  | error f u =>
    rw [hr] at h
    unfold Tells
    rw [bind_error hr]
    exact h
  | ok a u =>
    rw [hr] at h
    obtain ⟨more, hg, -⟩ := id h
    have hnext := hn u more hg.log
    unfold Tells at hnext ⊢
    rw [bind_ok hr]
    cases hr' : next u with
    | error f w' =>
      rw [hr'] at hnext
      exact Raises.after h hnext
    | ok b w' =>
      rw [hr'] at hnext
      exact h.trans hnext hlate

section

variable {call : Program interface σ → Run (Ledger σ) Value}

theorem write_same {key : Scalar} {value : Value}
    (h : (w.session.store.read key).strictEquals value = true) :
    write call key value w = .ok () w := by
  refine (bind_ok rfl).trans ?_
  rw [assign_eq, if_pos h]
  rfl

theorem write_new {key : Scalar} {value : Value}
    (h : (w.session.store.read key).strictEquals value = false) :
    write call key value w = (w.session.store.audience key).forM
      (deliver call (changesOf w.log).length ⟨key, w.session.store.read key, value⟩)
      (w.carried (w.session.store.stored ⟨key, w.session.store.read key, value⟩)
        [.stored ⟨key, w.session.store.read key, value⟩]) := by
  refine (bind_ok rfl).trans ?_
  rw [assign_eq, h]
  rfl

theorem grows_stored {key : Scalar} {value : Value}
    (h : (w.session.store.read key).strictEquals value = false) :
    Grows w (w.carried (w.session.store.stored ⟨key, w.session.store.read key, value⟩)
      [.stored ⟨key, w.session.store.read key, value⟩])
      [.stored ⟨key, w.session.store.read key, value⟩] :=
  ⟨rfl, ⟨rfl, h, rfl⟩, fun hw => hw.aside rfl (Nat.le_refl _) fun key =>
    attending_append w.log [.stored _] key⟩

theorem length_stored (c : Change) : (changesOf w.log).length <
    (changesOf (w.carried (w.session.store.stored c) [.stored c]).log).length := by
  change _ < (changesOf (w.log ++ [.stored c])).length
  simpa using Stretch.length_lt w.log [] [] c

variable (hc : ∀ p, faithful.Keeps (call p))

include hc

theorem tells_deliver {k : Nat} (hk : k < (changesOf w.log).length) (e : Nat × Listener σ)
    (c : Change) : Tells (dueOf k [(e, c)]) (deliver call k c e) w := by
  have hattend : ∀ d : Deed σ, (∀ key l, d.attend key l = l) → ∀ v : Ledger σ, Kept v →
      Kept (v.carried v.session.store [d]) := by
    intro d hd v hv
    refine hv.aside rfl (Nat.le_refl _) fun key => ?_
    exact (attending_append v.log [d] key).trans (hd key _)
  have htold : Onward (dueOf k [(e, c)]) w (w.carried w.session.store [.told k e c]) :=
    ⟨[.told k e c], ⟨rfl, rfl, hattend _ (fun _ _ => rfl) w⟩, fun _ _ => .told hk e c⟩
  have hcall := hc (e.2 c) (w.carried w.session.store [.told k e c])
  unfold Tells deliver
  cases hr : call (e.2 c) (w.carried w.session.store [.told k e c]) with
  | ok v u =>
    have hall := htold.trans (hcall.good hr) fun _ _ => rfl
    simpa [nothingDue] using hall
  | error f u =>
    have hall := htold.trans (hcall.bad hr) fun _ _ => rfl
    refine Raises.after hall ⟨[.raised e.1], ⟨rfl, rfl, ?_⟩, rfl⟩
    exact hattend _ (fun _ _ => rfl) u

theorem tells_all {k : Nat} (c : Change) (es : List (Nat × Listener σ)) {w : Ledger σ}
    (hk : k < (changesOf w.log).length) :
    Tells (dueOf k (es.map (·, c))) (es.forM (deliver call k c)) w := by
  induction es generalizing w with
  | nil =>
    have hnone : (dueOf k ([] : List ((Nat × Listener σ) × Change))) = nothingDue := by
      funext n
      simp [dueOf, nothingDue]
    change Onward (dueOf k []) w w
    rw [hnone]
    exact onward_refl w
  | cons e es ih =>
    have hlate : ∀ n, (changesOf w.log).length ≤ n → dueOf k (es.map (·, c)) n = [] :=
      fun n hn => if_neg (by omega)
    have hsum : (fun n => dueOf k [(e, c)] n ++ dueOf k (es.map (·, c)) n) =
        dueOf k ((e :: es).map (·, c)) := by
      funext n
      by_cases hn : n = k <;> simp [dueOf, hn]
    rw [← hsum]
    refine (tells_deliver hc hk e c).andThen (fun u more hlog => ih ?_) hlate
    rw [hlog]
    exact Nat.lt_of_lt_of_le hk (Stretch.length_le _ _)

theorem faithful_write (key : Scalar) (value : Value) :
    faithful.Keeps (write call key value) := by
  intro w
  cases hs : (w.session.store.read key).strictEquals value with
  | true => exact keepsAt_after (pure ()) (write_same hs) (onward_refl w) (keeps_pure () w)
  | false =>
    let c : Change := ⟨key, w.session.store.read key, value⟩
    have htold := tells_all hc c (w.session.store.audience key)
      (w := w.carried (w.session.store.stored c) [.stored c]) (length_stored c)
    unfold Tells at htold
    unfold KeepsAt
    rw [write_new hs]
    cases hr : (w.session.store.audience key).forM (deliver call (changesOf w.log).length c)
        (w.carried (w.session.store.stored c) [.stored c]) with
    | error f w' =>
      rw [hr] at htold
      obtain ⟨more, hg, hraised⟩ := htold
      exact Raises.onward ⟨_, (grows_stored hs).append hg,
        by rw [List.any_append, hraised, Bool.or_true]⟩
    | ok a w' =>
      rw [hr] at htold
      obtain ⟨more, hg, htold⟩ := htold
      refine ⟨_, (grows_stored hs).append hg, fun hw hnone => ?_⟩
      rw [List.any_append, Bool.or_eq_false_iff] at hnone
      have hstretch := htold ((grows_stored hs).kept hw) hnone.2
      rw [hw.audience] at hstretch
      exact hstretch.after_stored (hw.audience_nodup key)

omit hc in
/-- A listener comes, or it does not if its key cannot be one. -/
theorem onward_subscribe (w : Ledger σ) (key : Value) (listener : Listener σ) :
    Onward nothingDue w (w.carried (w.session.store.subscribe listener key).2
      (Deed.arrival listener (w.session.store.subscribe listener key).1)) := by
  cases hk : key.asKey with
  | ok k =>
    rw [subscribe_ok hk]
    exact onward_quiet rfl rfl (fun hw => hw.subscribed k listener)
      (by simp [Deed.arrival, Deed.change?]) (by simp [Deed.arrival, Deed.told?])
  | error f =>
    rw [subscribe_error hk]
    exact onward_quiet rfl rfl (fun hw => hw.aside rfl (Nat.le_succ _) fun key =>
      congrArg (attending · key) (List.append_nil _)) nofun nofun

omit hc in
/-- A listener leaves, or it was not there. -/
theorem onward_unsubscribe {id key : Value} {r : Bool × Store (Listener σ)}
    (hr : w.session.store.unsubscribe id key = .ok r) :
    Onward nothingDue w (w.carried r.2 (Deed.departure id key.asKey r.1)) := by
  obtain ⟨there, store⟩ := r
  rcases unsubscribe_cases hr with ⟨rfl, rfl⟩ | ⟨rfl, k, hk, rfl⟩
  · have hnone : (Deed.departure id key.asKey false : List (Deed σ)) = [] := by
      cases key.asKey <;> rfl
    rw [hnone]
    exact onward_quiet rfl rfl (fun hw => hw.aside rfl (Nat.le_refl _) fun key =>
      congrArg (attending · key) (List.append_nil _)) nofun nofun
  · rw [hk]
    exact onward_quiet rfl rfl (fun hw => hw.unsubscribed id k)
      (by simp [Deed.departure, Deed.change?]) (by simp [Deed.departure, Deed.told?])

theorem faithful_exec (c : Command) (callback : c.Input → Program interface σ) :
    faithful.Keeps (exec call c callback) := by
  cases c with
  | set patch =>
    exact keeps_bind (keeps_ofExcept _) fun patch =>
      keeps_forM _ fun e _ => faithful_write hc e.1 e.2
  | get key default =>
    exact keeps_bind (keeps_ofExcept _) fun key => keeps_get fun w => keeps_pure _
  | subscribe key =>
    exact fun w => keepsAt_get (keepsAt_bind (onward_subscribe w key callback) fun _ w' _ =>
      keeps_ofExcept _ w')
  | unsubscribe id key =>
    refine fun w => keepsAt_get (keepsAt_bind (keeps_ofExcept _ w) fun r w' hr => ?_)
    obtain ⟨hr, rfl⟩ := ofExcept_ok hr
    exact keepsAt_bind (onward_unsubscribe hr) fun _ w' _ => keeps_pure _ w'
  | dispose =>
    exact fun w => onward_quiet rfl rfl (fun hw => hw.disposed) (by simp [Deed.change?])
      (by simp [Deed.told?])

end

theorem faithful_run (n : Nat) (p : Program interface σ) : faithful.Keeps (run n p) := by
  induction n generalizing p with
  | zero => exact keeps_throw _
  | succ n ih =>
    have hnote : ∀ change, faithful.Keeps (hostPart.update change : Run (Ledger σ) Unit) :=
      fun change w => onward_quiet (List.append_nil _).symm rfl
        (fun hw => hw.aside rfl (Nat.le_refl _) fun _ => rfl) nofun nofun
    exact keeps_run id hnote (faithful_exec ih) p

end Ledger

/-! ## The faithful history -/

/-- Has each change been told once to each of those who listened when it was stored? -/
structure Delivered (log : List (Deed σ)) : Prop where
  told : ∀ pre c post, log = pre ++ .stored c :: post →
    toldOf (changesOf pre).length log = (audienceOf pre c.key).map (·, c)
  once : ∀ pre c post, log = pre ++ .stored c :: post →
    ((audienceOf pre c.key).map (·.1)).Nodup
  /-- Nothing else is told. -/
  only : ∀ number e c, .told number e c ∈ log → number < (changesOf log).length

/-- Whatever a host and its listeners do to a store, the changes of each key lead from the value
that it had at first to the value that it has, each from where the one before it has led to, and
nothing else has become of the state; and if no listener raises, each change is told exactly once,
and in order, to those who listened to its key or to all keys when it was stored. -/
theorem notifications_are_a_faithful_history (n : Nat) (p : Program interface σ)
    (state : Dict Scalar Value) (host : σ) :
    let w := Run.ending (Ledger.run n p { session := ⟨.ofState state, host⟩ })
    Run.project Ledger.session (Ledger.run n p { session := ⟨.ofState state, host⟩ }) =
      Session.run n p ⟨.ofState state, host⟩ ∧
    (∀ key, Chained ((state.get? key).getD .null) ((changesOf w.log).filter (·.key == key))
      (w.session.store.read key)) ∧
    w.session.store.state = state.merge ((changesOf w.log).map Change.after) ∧
    (w.log.any (·.isRaised) = false → Delivered w.log) := by
  intro w
  have hnew : Ledger.Kept ({ session := ⟨.ofState state, host⟩ } : Ledger σ) :=
    ⟨fun _ => rfl, nofun, fun _ => List.nodup_nil, nofun⟩
  obtain ⟨more, hgrows, htold⟩ : Ledger.Onward nothingDue _ w :=
    (Ledger.faithful_run n p).ending id { session := ⟨.ofState state, host⟩ }
  have hlog : w.log = more := hgrows.log
  subst hlog
  refine ⟨Ledger.projects_run n p _, fun key => hgrows.leads.chained key, hgrows.leads.state_eq,
    fun hnone => ?_⟩
  have hstretch := htold hnew hnone
  refine ⟨fun pre c post hlog => (hstretch.stored pre c post hlog).1,
    fun pre c post hlog => (hstretch.stored pre c post hlog).2, fun number e c he => ?_⟩
  by_contra hlate
  have hnothing := hstretch.bounded number (Nat.le_of_not_lt hlate)
  have hmem : (e, c) ∈ toldOf number w.log :=
    List.mem_filterMap.mpr ⟨_, he, by simp [Deed.told?]⟩
  rw [hnothing] at hmem
  cases hmem

/-- A value under a key, as a patch. -/
def patch (key : String) (value : Int) : Value := .map 0 [(.text key, .int value)]

/-- The first listener changes another key and sends the second listener away, which listens to
everything. -/
def gossip : Program interface (List Scalar) :=
  .ask (.subscribe (.text "tea"))
    (fun _ => .ask (.set (patch "cups" 2)) nofun fun _ =>
      .ask (.unsubscribe (.int 2) .null) nofun fun _ => .done .null)
    fun _ => .ask (.subscribe .null) (fun c => .note (· ++ [c.key]) fun _ => .done .null) fun _ =>
      .ask (.set (patch "tea" 1)) nofun fun _ => .ask (.set (patch "tea" 3)) nofun fun _ =>
        .done .null

/-- The second listener hears of the cups first, and still of the tea, since it was there when the
tea was stored. It hears no more after that. -/
theorem gossip_is_faithful :
    let w := Run.ending (Ledger.run 9 gossip { session := ⟨.ofState [], []⟩ })
    w.log.any (·.isRaised) = false ∧
    (changesOf w.log).map (·.key) = [.text "tea", .text "cups", .text "tea"] ∧
    (toldOf 0 w.log).map (·.1.1) = [1, 2] ∧ (toldOf 1 w.log).map (·.1.1) = [2] ∧
    (toldOf 2 w.log).map (·.1.1) = [1] ∧ w.session.host = [.text "cups", .text "tea"] ∧
    Delivered w.log := by
  intro w
  have hcalm : w.log.any (·.isRaised) = false := by decide +kernel
  refine ⟨hcalm, by decide +kernel, by decide +kernel, by decide +kernel, by decide +kernel,
    by decide +kernel, ?_⟩
  obtain ⟨-, -, -, hdelivered⟩ := notifications_are_a_faithful_history 9 gossip [] []
  exact hdelivered hcalm

end Switchboard.Store
