-- Derived values. Where every assignment keeps its storage equal to an expression, the storages
-- hold what their expressions say when a transaction ends. The cascade is depth first and may
-- evaluate an assignment many times, with values that are not final yet; what counts is that the
-- last evaluation comes after the last change of what it reads, and that nobody else writes the
-- storage.
import Switchboard.Proofs.Twins
namespace Switchboard.Manager

open World Conduct

variable {σ : Type} {functions : Functions σ}

/-! ## Managers that only derive -/

/-- Does an assignment listen to some variable? Others are never made. -/
def World.isRegistered (w : World σ) (a : Assignment) : Prop := ∃ key, a ∈ w.listeningTo key

/-- Is a name the root of a callee of a registered assignment? -/
def World.isCalled (w : World σ) (s : String) : Prop :=
  ∃ a, w.isRegistered a ∧ ∃ f ∈ a.expression.callees, s ∈ f.root

/-- An assignment that keeps its storage equal to its expression. -/
structure Derives (functions : Functions σ) (w : World σ) (a : Assignment) : Prop where
  immediate : a.isDeferred = false
  unconditional : a.condition = none
  /-- The expression is read from its text. -/
  read : Expr.ofValue a.source = .ok a.expression
  /-- The assignment listens to the free variables of its expression. -/
  listens : ∃ names, a.expression.freeVariables = .ok names ∧
    ∀ key, a ∈ w.listeningTo key ↔ names.contains key = true
  named : a.expression.thisNamed = true
  dotted : ∀ f ∈ a.expression.callees, f.isDotted = true
  pure : Likeness.CallsOnly (IsPure functions w.nextIdentity) (.map 0 w.context)
    a.expression.callees

/-- A manager whose assignments all derive values, each in a storage of its own. The state does not
define the functions that they call. -/
structure Derived (functions : Functions σ) (w : World σ) : Prop where
  each : ∀ a, w.isRegistered a → Derives functions w a
  distinct : ∀ a b, w.isRegistered a → w.isRegistered b → (a.storage == b.storage) = true → a = b
  absent : ∀ s, w.isCalled s → w.store.state.contains (.text s) = false
  unwritten : ∀ s, w.isCalled s → ∀ a, w.isRegistered a → (a.storage == .text s) = false

theorem Derived.repeatable {w : World σ} (h : Derived functions w) {a : Assignment}
    (ha : w.isRegistered a) : Repeatable functions w a.expression where
  spelled := Expr.ofValue_spelled (h.each a ha).read
  named := (h.each a ha).named
  pure := (h.each a ha).pure
  apart f hf s hs := h.absent s ⟨a, ha, f, hf, hs⟩

/-- Equal keys are listened to by the same assignments. -/
theorem listeningTo_key {w : World σ} {key other : Scalar} (h : (key == other) = true) :
    w.listeningTo key = w.listeningTo other := by
  unfold World.listeningTo
  rw [Dict.get?_congr w.assignments h]

section

variable {w w' : World σ}

theorem listeningTo_congr (h : w'.assignments = w.assignments) :
    w'.listeningTo = w.listeningTo := by
  funext key
  unfold World.listeningTo
  rw [h]

theorem isRegistered_congr (h : w'.assignments = w.assignments) :
    w'.isRegistered = w.isRegistered := by
  funext a
  unfold World.isRegistered
  rw [listeningTo_congr h]

theorem isCalled_congr (h : w'.assignments = w.assignments) : w'.isCalled = w.isCalled := by
  funext s
  unfold World.isCalled
  rw [isRegistered_congr h]

/-- What derives values goes on doing so as long as the functions it calls are left alone. -/
theorem Derived.later (h : Derived functions w) (ha : w'.assignments = w.assignments)
    (hc : w'.context = w.context) (hn : w.nextIdentity ≤ w'.nextIdentity)
    (hs : ∀ s, w.isCalled s → w'.store.state.contains (.text s) = false) :
    Derived functions w' := by
  constructor
  · intro a hr
    rw [isRegistered_congr ha] at hr
    have hd := h.each a hr
    refine ⟨hd.immediate, hd.unconditional, hd.read, ?_, hd.named, hd.dotted, ?_⟩
    · rw [listeningTo_congr ha]
      exact hd.listens
    · rw [hc]
      intro f hm path hp g hg
      exact (hd.pure f hm path hp g hg).mono hn
  · rw [isRegistered_congr ha]
    exact h.distinct
  · rw [isCalled_congr ha]
    exact hs
  · rw [isCalled_congr ha, isRegistered_congr ha]
    exact h.unwritten

end

/-! ## Inside a transaction -/

/-- What happens between two worlds of one transaction in which nothing is registered. -/
structure Ran (w : World σ) (log : List Change) (w' : World σ) : Prop where
  followed : Followed w log w'
  assignments : w'.assignments = w.assignments

theorem Ran.trans {w u w' : World σ} {log log' : List Change} (h : Ran w log u)
    (h' : Ran u log' w') : Ran w (log ++ log') w' :=
  ⟨h.followed.trans h'.followed, h'.assignments.trans h.assignments⟩

theorem ran_of_aside {w w' : World σ} (hw : Gathering w) (h : w.Aside w') : Ran w [] w' :=
  ⟨followed_of_aside hw h, congrArg Core.assignments h.1⟩

theorem Derived.ran {w w' : World σ} {log : List Change} (h : Derived functions w)
    (hr : Ran w log w') (hl : ∀ s, w.isCalled s → isChanged log (.text s) = false) :
    Derived functions w' := by
  refine h.later hr.assignments hr.followed.context hr.followed.identities ?_
  intro s hs
  rw [hr.followed.leads.contains_eq, h.absent s hs, hl s hs]
  rfl

/-- A manager that derives values, in the middle of a transaction. All lists that were built before
the transaction are below the bound. -/
structure Ready (functions : Functions σ) (m : Nat) (w : World σ) : Prop where
  gathering : Gathering w
  derived : Derived functions w
  holdsOld : w.holdsOld = true
  since : m ≤ w.nextIdentity

variable {m n : Nat}

/-- Nothing is lost where nothing is changed. -/
theorem Ready.idle {w w' : World σ} (h : Ready functions m w) (hr : Ran w [] w') :
    Ready functions m w' := by
  have hstate : w'.store.state = w.store.state := hr.followed.leads
  obtain ⟨hcontext, hold⟩ := holdsOld_iff.mp h.holdsOld
  refine ⟨hr.followed.gathering, h.derived.ran hr fun _ _ => rfl, ?_,
    Nat.le_trans h.since hr.followed.identities⟩
  rw [holdsOld_iff, hr.followed.context, hstate]
  exact ⟨Value.entriesFit_mono hr.followed.identities _ hcontext,
    Value.entriesFit_mono hr.followed.identities _ hold⟩

/-! ## Settled assignments -/

/-- Was an assignment evaluated here, to this value? -/
structure Evaluated (functions : Functions σ) (m : Nat) (a : Assignment) (u : World σ) (v : Value)
    (u' : World σ) : Prop where
  ready : Ready functions m u
  registered : u.isRegistered a
  value : ∃ k, evaluateNow functions (level functions (k + 1)) a.expression u = .ok v u'

theorem Evaluated.aside {a : Assignment} {u u' : World σ} {v : Value}
    (h : Evaluated functions m a u v u') :
    u.Aside u' ∧ v.fits u.nextIdentity u'.nextIdentity = true := by
  obtain ⟨k, hk⟩ := h.value
  have hrepeat := h.ready.derived.repeatable h.registered
  obtain ⟨haside, hfits, -⟩ :=
    hrepeat.again h.ready.holdsOld (Nat.le_refl _) (fun _ _ => rfl) hk 0
  exact ⟨haside, hfits⟩

/-- Does a value stand for another one in the state? A write of what is strictly the same leaves
the old value. -/
def standsFor (n : Nat) (stored v : Value) : Prop :=
  stored = v ∨ (stored.isOld n = true ∧ stored.strictEquals v = true)

/-- Does the storage of an assignment hold what its expression was at some time, since when nothing
was changed that the assignment listens to? -/
def Settled (functions : Functions σ) (m : Nat) (w : World σ) (a : Assignment) : Prop :=
  ∃ u v u' log, Evaluated functions m a u v u' ∧ Ran u log w ∧
    (∀ c ∈ log, a ∉ w.listeningTo c.key) ∧
    standsFor u.nextIdentity (w.store.read a.storage) v

/-- Did changes concern an assignment, as one that listens or as the one that writes? -/
def Touches (w : World σ) (log : List Change) (a : Assignment) : Prop :=
  ∃ c ∈ log, a ∈ w.listeningTo c.key ∨ (c.key == a.storage) = true

/-- What is settled stays so, whatever else is changed. -/
theorem Settled.later {w w' : World σ} {log : List Change} {a : Assignment}
    (h : Settled functions m w a) (hr : Ran w log w') (ht : ¬ Touches w log a) :
    Settled functions m w' a := by
  obtain ⟨u, v, u', before, he, hu, hquiet, hstored⟩ := h
  have hkeys : isChanged log a.storage = false := by
    rw [Bool.eq_false_iff]
    intro hchanged
    obtain ⟨c, hc, hk⟩ := isChanged_iff.mp hchanged
    exact ht ⟨c, hc, .inr hk⟩
  have hread : w'.store.read a.storage = w.store.read a.storage := by
    unfold Store.read
    rw [hr.followed.leads.get?_eq hkeys]
  refine ⟨u, v, u', before ++ log, he, hu.trans hr, ?_, by rwa [hread]⟩
  intro c hc ha
  rw [listeningTo_congr hr.assignments] at ha
  rcases List.mem_append.mp hc with hc | hc
  · exact hquiet c hc ha
  · exact ht ⟨c, hc, .inl ha⟩

/-- What an assignment was just evaluated to is settled as soon as it is written, unless the
assignment listens to its own storage. -/
theorem settled_of_write {w w' : World σ} {log : List Change} {a : Assignment} {u : World σ}
    {v : Value} (he : Evaluated functions m a u v w) (hr : Ran w log w')
    (hl : ∀ c ∈ log, a ∉ w.listeningTo c.key)
    (hs : standsFor u.nextIdentity (w'.store.read a.storage) v) : Settled functions m w' a := by
  have haside := ran_of_aside he.ready.gathering he.aside.1
  refine ⟨u, v, w, [] ++ log, he, haside.trans hr, ?_, hs⟩
  intro c hc
  rw [listeningTo_congr hr.assignments]
  exact hl c hc

/-! ## Cascades -/

/-- What happens between two worlds of one transaction, if it settles all that it touches. -/
structure Cascaded (functions : Functions σ) (m : Nat) (w : World σ) (log : List Change)
    (w' : World σ) : Prop where
  ran : Ran w log w'
  ready : Ready functions m w'
  settled : ∀ a, w.isRegistered a → Touches w log a → Settled functions m w' a

theorem cascaded_idle {w w' : World σ} (h : Ready functions m w) (hr : Ran w [] w') :
    Cascaded functions m w [] w' := by
  refine ⟨hr, h.idle hr, ?_⟩
  rintro a _ ⟨c, hc, -⟩
  cases hc

/-- What was settled before is settled after, touched or not. -/
theorem Cascaded.keeps {w w' : World σ} {log : List Change} {a : Assignment}
    (h : Cascaded functions m w log w') (ha : w.isRegistered a) (hs : Settled functions m w a) :
    Settled functions m w' a := by
  by_cases ht : Touches w log a
  · exact h.settled a ha ht
  · exact hs.later h.ran ht

theorem Cascaded.trans {w u w' : World σ} {log log' : List Change}
    (h : Cascaded functions m w log u) (h' : Cascaded functions m u log' w') :
    Cascaded functions m w (log ++ log') w' := by
  refine ⟨h.ran.trans h'.ran, h'.ready, ?_⟩
  rintro a ha ⟨c, hc, ht⟩
  have hu : u.isRegistered a := by rwa [isRegistered_congr h.ran.assignments]
  rcases List.mem_append.mp hc with hc | hc
  · exact h'.keeps hu (h.settled a ha ⟨c, hc, ht⟩)
  · refine h'.settled a hu ⟨c, hc, ?_⟩
    rwa [listeningTo_congr h.ran.assignments]

/-- Does applying an assignment, with cascades nested so deep, settle it and all that it touches? -/
def Applies (functions : Functions σ) (m n : Nat) : Prop :=
  ∀ (a : Assignment) (w w' : World σ), Ready functions m w → w.isRegistered a →
    applyAssignment functions (level functions n) a w = .ok () w' →
    ∃ log, Cascaded functions m w log w' ∧ Settled functions m w' a

/-- Of assignments that are applied one after the other all are settled in the end. -/
theorem cascaded_forM (h : Applies functions m n) (assignments : List Assignment) {w w' : World σ}
    (hw : Ready functions m w) (ha : ∀ a ∈ assignments, w.isRegistered a)
    (hr : assignments.forM (applyAssignment functions (level functions n)) w = .ok () w') :
    ∃ log, Cascaded functions m w log w' ∧ ∀ a ∈ assignments, Settled functions m w' a := by
  induction assignments generalizing w with
  | nil =>
    cases hr
    refine ⟨[], cascaded_idle hw (ran_of_aside hw.gathering ⟨rfl, Nat.le_refl _⟩), ?_⟩
    intro a ha
    cases ha
  | cons a rest ih =>
    obtain ⟨_, u, hu, hrest⟩ := bind_ok_inv hr
    obtain ⟨log, hlog, hfirst⟩ := h a w u hw (ha a List.mem_cons_self) hu
    have hregistered : ∀ b ∈ a :: rest, u.isRegistered b := by
      rw [isRegistered_congr hlog.ran.assignments]
      exact ha
    obtain ⟨log', hlog', hlast⟩ :=
      ih hlog.ready (fun b hb => hregistered b (List.mem_cons_of_mem a hb)) hrest
    refine ⟨log ++ log', hlog.trans hlog', ?_⟩
    intro b hb
    rcases List.mem_cons.mp hb with rfl | hb
    · exact hlog'.keeps (hregistered b List.mem_cons_self) hfirst
    · exact hlast b hb

theorem ready_noted {w : World σ} {key : Scalar} {value : Value} (h : Ready functions m w)
    (hv : value.isOld w.nextIdentity = true)
    (hc : ∀ s, w.isCalled s → (key == .text s) = false)
    (hr : Ran w [⟨key, w.store.read key, value⟩] (w.noted key value)) :
    Ready functions m (w.noted key value) := by
  obtain ⟨hcontext, hold⟩ := holdsOld_iff.mp h.holdsOld
  refine ⟨hr.followed.gathering, h.derived.ran hr ?_, ?_, h.since⟩
  · intro s hs
    simp [isChanged, hc s hs]
  · rw [holdsOld_iff]
    exact ⟨hcontext, Value.entriesFit_put key hold hv⟩

/-- A write that finds the value there settles the assignment that it is made for. -/
theorem settled_found {w u : World σ} {a : Assignment} {key : Scalar} {value : Value}
    (hw : Gathering w) (hu : Evaluated functions m a u value w) (hk : (key == a.storage) = true)
    (hs : (w.store.read key).strictEquals value = true) : Settled functions m w a := by
  have hidle : Ran w [] w := ran_of_aside hw ⟨rfl, Nat.le_refl _⟩
  have hstore : w.store = u.store := congrArg Core.store hu.aside.1.1
  have hold := (holdsOld_iff.mp hu.ready.holdsOld).2
  refine settled_of_write hu hidle (fun c hc => by cases hc) (.inr ⟨?_, ?_⟩)
  · rw [hstore]
    exact Value.getD_isOld fun v hv => Value.entriesFit_get? hold hv
  · rwa [← read_congr w.store hk]

/-- So does a write that stores the value, unless the assignment listens to its own storage. -/
theorem settled_noted {w u : World σ} {a : Assignment} {key : Scalar} {value : Value}
    (hu : Evaluated functions m a u value w) (hk : (key == a.storage) = true)
    (hl : a ∉ w.listeningTo key)
    (hr : Ran w [⟨key, w.store.read key, value⟩] (w.noted key value)) :
    Settled functions m (w.noted key value) a := by
  have hread : (w.noted key value).store.read a.storage = value := by
    change ((w.store.state.put key value).get? a.storage).getD .null = value
    rw [Dict.get?_put, hk]
    rfl
  refine settled_of_write hu hr ?_ (.inl hread)
  intro c hc
  cases List.mem_singleton.mp hc
  exact hl

/-- A write settles all that it touches. The assignment in whose storage it writes, if there is one,
must have been evaluated to the value just before. -/
theorem cascaded_writeKey (h : Applies functions m n) {key : Scalar} {value : Value}
    {w w' : World σ} (hw : Ready functions m w) (hv : value.isOld w.nextIdentity = true)
    (hc : ∀ s, w.isCalled s → (key == .text s) = false)
    (howner : ∀ a, w.isRegistered a → (key == a.storage) = true →
      ∃ u, Evaluated functions m a u value w)
    (hr : writeKey functions (level functions n) key value w = .ok () w') :
    ∃ log, Cascaded functions m w log w' ∧
      ∀ a, w.isRegistered a → (key == a.storage) = true → Settled functions m w' a := by
  rcases writeKey_ok hw.gathering hr with ⟨hsame, rfl⟩ | ⟨hs, v, hlisteners, hend, -, hv'⟩
  · refine ⟨[], cascaded_idle hw (ran_of_aside hw.gathering ⟨rfl, Nat.le_refl _⟩), ?_⟩
    intro a ha hk
    obtain ⟨u, hu⟩ := howner a ha hk
    exact settled_found hw.gathering hu hk hsame
  · have hnoted : Ran w _ (w.noted key value) := ⟨followed_noted key value hs hw.gathering, rfl⟩
    have hlistening : ∀ a ∈ (w.listeningTo key).filter (!·.isDeferred),
        (w.noted key value).isRegistered a :=
      fun a ha => ⟨key, List.mem_of_mem_filter ha⟩
    obtain ⟨log, hlog, hall⟩ :=
      cascaded_forM h _ (ready_noted hw hv hc hnoted) hlistening hlisteners
    have hidle := cascaded_idle hlog.ready ⟨hend hlog.ready.gathering, congrArg (·.2.2) hv'⟩
    have hrest := hlog.trans hidle
    -- What the change itself touches: the listeners were all applied, and the assignment that the
    -- write is made for was settled by it and has been kept.
    have hkey : ∀ a, w.isRegistered a → a ∈ w.listeningTo key ∨ (key == a.storage) = true →
        Settled functions m w' a := by
      intro a ha htouched
      by_cases hl : a ∈ w.listeningTo key
      · have himmediate : a ∈ (w.listeningTo key).filter (!·.isDeferred) := by
          rw [List.mem_filter, (hw.derived.each a ha).immediate]
          exact ⟨hl, rfl⟩
        refine hidle.keeps ?_ (hall a himmediate)
        rw [isRegistered_congr hlog.ran.assignments]
        exact ha
      · have hk := htouched.resolve_left hl
        obtain ⟨u, hu⟩ := howner a ha hk
        exact hrest.keeps ha (settled_noted hu hk hl hnoted)
    refine ⟨_, ⟨hnoted.trans hrest.ran, hrest.ready, ?_⟩, fun a ha hk => hkey a ha (.inr hk)⟩
    rintro a ha ⟨c, hc, ht⟩
    rcases List.mem_append.mp hc with hc | hc
    · cases List.mem_singleton.mp hc
      exact hkey a ha ht
    · exact hrest.settled a ha ⟨c, hc, ht⟩

theorem applyAssignment_ok {below : Level σ} {a : Assignment} {w w' : World σ}
    (hc : a.condition = none) (h : applyAssignment functions below a w = .ok () w') :
    ∃ v u, evaluateNow functions below a.expression w = .ok v u ∧
      below.write a.storage v u = .ok () w' := by
  unfold applyAssignment conditionHolds at h
  rw [hc] at h
  obtain ⟨holds, _, hholds, hrest⟩ := bind_ok_inv h
  cases hholds
  obtain ⟨v, u, hv, hu⟩ := bind_ok_inv hrest
  exact ⟨v, u, hv, hu⟩

/-- However deep cascades nest, applying an assignment settles it. -/
theorem applies_level (n : Nat) : Applies functions m n := by
  induction n with
  | zero =>
    intro a w w' hw ha h
    obtain ⟨v, u, -, hu⟩ := applyAssignment_ok (hw.derived.each a ha).unconditional h
    cases hu
  | succ n ih =>
    intro a w w' hw ha h
    obtain ⟨v, u, hv, hu⟩ := applyAssignment_ok (hw.derived.each a ha).unconditional h
    have hvalue : Evaluated functions m a w v u := ⟨hw, ha, n, hv⟩
    obtain ⟨haside, hfits⟩ := hvalue.aside
    have hidle := cascaded_idle hw (ran_of_aside hw.gathering haside)
    have hregistered : u.isRegistered a := by rwa [isRegistered_congr hidle.ran.assignments]
    obtain ⟨log, hlog, hsettled⟩ := cascaded_writeKey ih hidle.ready
      (Value.fits_mono haside.2 (Nat.le_refl _) v hfits)
      (fun s hs => hidle.ready.derived.unwritten s hs a hregistered) (fun b hb hk => by
        cases hidle.ready.derived.distinct a b hregistered hb hk
        exact ⟨w, hvalue⟩) hu
    exact ⟨_, hidle.trans hlog, hsettled a hregistered BEq.rfl⟩

/-! ## The end of a transaction -/

/-- Can the expression of an assignment be evaluated, to a value that is like the one in its
storage? Lists from the bound on count item by item. -/
def Consistent (functions : Functions σ) (m : Nat) (w : World σ) (a : Assignment) : Prop :=
  ∀ k, ∃ v u, evaluateNow functions (level functions (k + 1)) a.expression w = .ok v u ∧
    (w.store.read a.storage).alike m v = true

/-- Since nothing was changed that an assignment listens to, all that its expression can read is as
it was. -/
theorem inputs_unchanged {u w : World σ} {log : List Change} {a : Assignment}
    (hd : Derived functions u) (ha : u.isRegistered a) (hr : Ran u log w)
    (hw : Derived functions w) (hquiet : ∀ c ∈ log, a ∉ w.listeningTo c.key) :
    ∀ s ∈ a.expression.inputs, w.table.valueAt (.text s) = u.table.valueAt (.text s) := by
  intro s hs
  have hderives := hd.each a ha
  obtain ⟨names, hnames, hlistens⟩ := hderives.listens
  refine table_valueAt_of_leads hr.followed.context hr.followed.leads ?_
  rw [Bool.eq_false_iff]
  intro hchanged
  rcases a.expression.inputs_accounted s hs with hm | ⟨f, hf, hm | hm⟩
  · obtain ⟨c, hc, hk⟩ := isChanged_iff.mp hchanged
    refine hquiet c hc ?_
    rw [listeningTo_congr hr.assignments, hlistens]
    exact Expr.freeVariables_contains (hd.repeatable ha).spelled hnames hm hk
  · have hregistered : w.isRegistered a := by rwa [isRegistered_congr hr.assignments]
    have habsent := hw.absent s ⟨a, hregistered, f, hf, hm⟩
    rw [hr.followed.leads.contains_eq, hchanged, Bool.or_true] at habsent
    cases habsent
  · rw [Expr.pathInputs_of_dotted (hderives.dotted f hf)] at hm
    cases hm

/-- The storage of a settled assignment holds what its expression is now, but that lists which the
expression builds are built anew. -/
theorem Settled.consistent {w x : World σ} {a : Assignment} (h : Settled functions m w a)
    (hw : Derived functions w) (hc : x.context = w.context) (hs : x.store = w.store)
    (hn : x.nextIdentity = w.nextIdentity) : Consistent functions m x a := by
  intro j
  obtain ⟨u, v, u', log, he, hu, hquiet, hstored⟩ := h
  obtain ⟨k, hk⟩ := he.value
  have htable : x.table = w.table := by
    unfold World.table
    rw [hc, hs]
  have hsame : ∀ s ∈ a.expression.inputs,
      x.table.valueAt (.text s) = u.table.valueAt (.text s) := by
    rw [htable]
    exact inputs_unchanged he.ready.derived he.registered hu hw hquiet
  have hle : u.nextIdentity ≤ x.nextIdentity := by
    rw [hn]
    exact hu.followed.identities
  have hrepeat := he.ready.derived.repeatable he.registered
  obtain ⟨-, -, x', hx⟩ := hrepeat.again he.ready.holdsOld hle hsame hk j
  refine ⟨_, x', hx, ?_⟩
  rw [hs]
  rcases hstored with hv | ⟨hold, hv⟩
  · rw [hv]
    exact Value.alike_renamed he.ready.since v
  · exact Value.alike_of_strictEquals hold hv

/-- An entry of a patch that leaves alone the storages and the functions that are called, and that
holds no list which is still to be built. -/
structure Outer (w : World σ) (e : Scalar × Value) : Prop where
  isOld : e.2.isOld w.nextIdentity = true
  noStorage : ∀ a, w.isRegistered a → (e.1 == a.storage) = false
  noFunction : ∀ s, w.isCalled s → (e.1 == .text s) = false

/-- A patch settles all that it touches. -/
theorem cascaded_writePatch (entries : List (Scalar × Value)) {w w' : World σ}
    (hw : Ready functions m w) (he : ∀ e ∈ entries, Outer w e)
    (hr : writePatch functions (level functions n) entries w = .ok () w') :
    ∃ log, Cascaded functions m w log w' := by
  induction entries generalizing w with
  | nil =>
    cases hr
    exact ⟨[], cascaded_idle hw (ran_of_aside hw.gathering ⟨rfl, Nat.le_refl _⟩)⟩
  | cons e rest ih =>
    obtain ⟨_, u, hu, hrest⟩ := bind_ok_inv hr
    have hfirst := he e List.mem_cons_self
    obtain ⟨log, hlog, -⟩ := cascaded_writeKey (applies_level n) hw hfirst.isOld hfirst.noFunction
      (fun a ha hk => by rw [hfirst.noStorage a ha] at hk; cases hk) hu
    have houter : ∀ e ∈ rest, Outer u e := by
      intro e hm
      have houter := he e (List.mem_cons_of_mem _ hm)
      constructor
      · exact Value.fits_mono hlog.ran.followed.identities hlog.ran.followed.identities _
          houter.isOld
      · rw [isRegistered_congr hlog.ran.assignments]
        exact houter.noStorage
      · rw [isCalled_congr hlog.ran.assignments]
        exact houter.noFunction
    obtain ⟨log', hlog'⟩ := ih hlog.ready houter hrest
    exact ⟨log ++ log', hlog.trans hlog'⟩

theorem writePatch_deaf {below : Level σ} (entries : List (Scalar × Value)) {w w' : World σ}
    (h : w.store.listeners = []) (hr : writePatch functions below entries w = .ok () w') :
    w'.changes = w.changes := by
  induction entries generalizing w with
  | nil =>
    cases hr
    rfl
  | cons e rest ih =>
    obtain ⟨_, u, hu, hrest⟩ := bind_ok_inv hr
    obtain ⟨hlisteners, hchanges⟩ := writeKey_deaf h hu
    rw [ih hlisteners hrest, hchanges]

/-- When the writes of a patch are over, every assignment that listens to something they changed is
consistent. -/
theorem consistent_of_writePatch {entries : List (Scalar × Value)} {w v : World σ}
    (hl : w.store.listeners = [] ∨ w.store.listeners = [(.null, [(1, ())])])
    (ho : w.holdsOld = true) (hd : Derived functions w) (he : ∀ e ∈ entries, Outer w e)
    (h : writePatch functions (level functions n) entries
      { w with changes := {}, inTransaction := true } = .ok () v)
    {a : Assignment} {key : Scalar} (ha : a ∈ w.listeningTo key)
    (hk : v.changes.new.keys.contains key = true) :
    Consistent functions w.nextIdentity { v with inTransaction := false } a := by
  rcases hl with hdeaf | hlistening
  · have hstart :
        ({ w with changes := {}, inTransaction := true } : World σ).store.listeners = [] := hdeaf
    rw [writePatch_deaf entries hstart h] at hk
    cases hk
  · have hready : Ready functions w.nextIdentity { w with changes := {}, inTransaction := true } :=
      ⟨⟨hlistening, rfl⟩, hd.later rfl rfl (Nat.le_refl _) hd.absent, ho, Nat.le_refl _⟩
    obtain ⟨log, hlog⟩ := cascaded_writePatch entries hready
      (fun e hm => ⟨(he e hm).isOld, (he e hm).noStorage, (he e hm).noFunction⟩) h
    have hnew : v.changes.new = Dict.ofList (log.map Change.after) := hlog.ran.followed.new
    rw [hnew, Dict.ofList, Dict.keys_merge, contains_foldl_addKey, Change.keys_after] at hk
    have hlogged : (log.map (·.key)).contains key = true := hk
    rw [← isChanged_eq] at hlogged
    obtain ⟨c, hc, hkey⟩ := isChanged_iff.mp hlogged
    rw [← listeningTo_key hkey] at ha
    exact (hlog.settled a ⟨_, ha⟩ ⟨c, hc, .inl ha⟩).consistent hlog.ready.derived rfl rfl rfl

/-- When a transaction ends in which something was changed that an assignment listens to, the
storage of the assignment holds what its expression is. So it is whatever depends on what, in
circles too, if all assignments derive values and the patch does not write what they write. What was
changed is what the event of the transaction tells of. -/
theorem derived_values_are_consistent_when_a_transaction_ends (n bound : Nat) {patch : Value}
    {entries : List (Scalar × Value)} {w w' : World σ} (hr : Reachable w)
    (hw : w.inTransaction = false) (ho : w.holdsOld = true) (hd : Derived functions w)
    (hp : Store.patchOf patch = .ok entries) (he : ∀ e ∈ entries, Outer w e)
    (h : exec functions (level functions n) bound (.setState patch) nofun w = .ok () w') :
    ∃ (event? : Option Event) (w₁ : World σ),
      gather false ((Opening.patch patch).writes functions (level functions n)) w =
        .ok event? w₁ ∧
      (∀ event ∈ event?, ∀ a key, a ∈ w.listeningTo key → event.new.keys.contains key = true →
        Consistent functions w.nextIdentity w₁ a) ∧
      match event? with
      | none => w' = w₁
      | some event =>
        Told functions (level functions n) event w₁.listeners.values
          { w₁ with events := w₁.events ++ [event] } w' := by
  obtain ⟨event?, w₁, hgather, hdispatch⟩ := transaction_ok hw h
  refine ⟨event?, w₁, hgather, ?_, ?_⟩
  · obtain ⟨v, hv, rfl, rfl⟩ := gather_ok hgather
    obtain ⟨found, _, hfound, hwrites⟩ := bind_ok_inv hv
    obtain ⟨hentries, rfl⟩ := ofExcept_ok hfound
    cases hp.symm.trans hentries
    intro event hevent a key ha hkey
    split at hevent
    · cases hevent
    · cases hevent
      exact consistent_of_writePatch hr.sound.listeners ho hd he hwrites ha hkey
  · cases event? with
    | none => exact hdispatch
    | some event => exact dispatch_ok hdispatch

/-- The assignment of the sum of two names. -/
def sumOf (storage source left right : String) : Assignment where
  storage := .text storage
  source := .text source
  expression := .binary (.text "+") (.identifier (.text left)) (.identifier (.text right))
  condition := none
  timeout := .null

def double : Assignment := sumOf "double" "price + price" "price" "price"

def total : Assignment := sumOf "total" "double + price" "double" "price"

/-- A manager in which a price is doubled, and the total is made of both. A new price sets off the
total twice: first with the old double, and again when the double has followed. -/
def ledger : World Unit :=
  ((Setup.world { state := [(.text "price", .int 2)] } (.ofNat 0) ()).linkAssignment total
    [.text "double", .text "price"]).linkAssignment double [.text "price"]

theorem ledger_listeningTo (key : Scalar) : ledger.listeningTo key =
    if .text "double" == key then [total] else if .text "price" == key then [total, double]
    else [] := by
  have htable : ledger.assignments =
      [(.text "double", [(.text "total", total)]),
        (.text "price", [(.text "total", total), (.text "double", double)])] := rfl
  unfold World.listeningTo
  rw [htable]
  simp only [Dict.get?]
  split
  · rfl
  · split <;> rfl

theorem ledger_registered {a : Assignment} (h : ledger.isRegistered a) :
    a = total ∨ a = double := by
  obtain ⟨key, h⟩ := h
  rw [ledger_listeningTo] at h
  split at h
  · exact .inl (List.mem_singleton.mp h)
  · split at h
    · simpa using h
    · cases h

theorem total_ne_double : double ≠ total := by
  intro h
  have hstorage : (double.storage == total.storage) = true := by
    rw [h]
    rfl
  cases hstorage

theorem ledger_derives (functions : Functions Unit) {a : Assignment} (h : ledger.isRegistered a) :
    Derives functions ledger a := by
  have hcallees : a.expression.callees = [] := by
    rcases ledger_registered h with rfl | rfl <;> rfl
  have hdotted : ∀ f ∈ a.expression.callees, f.isDotted = true := by
    rw [hcallees]
    exact fun f hf => by cases hf
  have hpure : Likeness.CallsOnly (IsPure functions ledger.nextIdentity) (.map 0 ledger.context)
      a.expression.callees := by
    rw [hcallees]
    exact fun f hf => by cases hf
  rcases ledger_registered h with rfl | rfl
  · refine ⟨rfl, rfl, rfl, ⟨[.text "double", .text "price"], rfl, ?_⟩, rfl, hdotted, hpure⟩
    intro key
    rw [ledger_listeningTo]
    by_cases hd : Scalar.text "double" == key
    · simp [hd, BEq.comm (a := key)]
    · by_cases hp : Scalar.text "price" == key <;> simp [hd, hp, BEq.comm (a := key)]
  · refine ⟨rfl, rfl, rfl, ⟨[.text "price"], rfl, ?_⟩, rfl, hdotted, hpure⟩
    intro key
    rw [ledger_listeningTo]
    by_cases hd : Scalar.text "double" == key
    · have hp : (Scalar.text "price" == key) = false := by
        rw [← BEq.congr_right hd]
        rfl
      simp [hd, hp, total_ne_double, BEq.comm (a := key)]
    · by_cases hp : Scalar.text "price" == key <;> simp [hd, hp, BEq.comm (a := key)]

/-- A host without functions. -/
def mute : Functions Unit := fun _ _ _ => .done .null

theorem ledger_derived (functions : Functions Unit) : Derived functions ledger := by
  have hcalled : ∀ s, ¬ ledger.isCalled s := by
    rintro s ⟨a, ha, f, hf, -⟩
    rcases ledger_registered ha with rfl | rfl <;> cases hf
  refine ⟨fun a ha => ledger_derives functions ha, ?_, fun s hs => (hcalled s hs).elim,
    fun s hs => (hcalled s hs).elim⟩
  intro a b ha hb hk
  rcases ledger_registered ha with rfl | rfl <;> rcases ledger_registered hb with rfl | rfl
  · rfl
  · cases hk
  · cases hk
  · rfl

/-- The total of a new price is that of the new price and its double. -/
theorem the_total_follows_a_new_price :
    ∃ (event : Event) (w₁ : World Unit),
      gather false ((Opening.patch (.map 0 [(.text "price", .int 5)])).writes mute
        (level mute 9)) ledger = .ok (some event) w₁ ∧
      event.new.keys.contains (.text "price") = true ∧
      Consistent mute ledger.nextIdentity w₁ total := by
  have hgathers : (gather false ((Opening.patch (.map 0 [(.text "price", .int 5)])).writes mute
      (level mute 9))).yields ledger (fun event? _ =>
        event?.any fun event => event.new.keys.contains (.text "price")) = true := by
    decide +kernel
  have hruns : (exec mute (level mute 9) 9 (.setState (.map 0 [(.text "price", .int 5)]))
      nofun).yields ledger (fun _ _ => true) = true := by decide +kernel
  obtain ⟨_, w', hrun, -⟩ := Run.yields_ok hruns
  obtain ⟨event?, w₁, hgather, hkeys⟩ := Run.yields_ok hgathers
  have hreachable : Reachable ledger :=
    ⟨_, _, _, (Relation.ReflTransGen.single (.assignment _ _)).tail (.assignment _ _)⟩
  have houter : ∀ e ∈ [(Scalar.text "price", Value.int 5)], Outer ledger e := by
    intro e he
    cases List.mem_singleton.mp he
    refine ⟨rfl, ?_, ?_⟩
    · intro a ha
      rcases ledger_registered ha with rfl | rfl <;> rfl
    · rintro s ⟨a, ha, f, hf, -⟩
      rcases ledger_registered ha with rfl | rfl <;> cases hf
  obtain ⟨event', w₂, hgather', hconsistent, -⟩ :=
    derived_values_are_consistent_when_a_transaction_ends 9 9 hreachable rfl rfl
      (ledger_derived _) rfl houter hrun
  cases hgather.symm.trans hgather'
  cases event? with
  | none => cases hkeys
  | some event =>
    have hlistens : total ∈ ledger.listeningTo (.text "price") := List.mem_cons_self
    exact ⟨event, w₁, hgather, hkeys, hconsistent event rfl total _ hlistens hkeys⟩

end Switchboard.Manager
