-- Assignments that hang together without a cycle. A key leads to another one if an assignment that
-- listens to it writes the other at once. Changes that are followed up one inside the other go
-- along a path of such keys, and without a cycle no path is longer than there are storages. So
-- cascades end by themselves, and a limit that the longest path keeps to makes no difference.
import Mathlib.Data.List.Chain
import Mathlib.Order.Lattice.Nat
import Switchboard.Proofs.Guard
namespace Switchboard.Manager

open World Conduct

variable {σ : Type}

/-! ## Paths -/

/-- Does an assignment that listens to a key write the other one at once? -/
def World.Depends (w : World σ) (key other : Scalar) : Prop :=
  ∃ a ∈ w.listeningTo key, a.isDeferred = false ∧ (a.storage == other) = true

/-- The numbers of keys on the paths of dependencies. -/
def World.pathLengths (w : World σ) : Set Nat :=
  {n | ∃ path : List Scalar, path.IsChain w.Depends ∧ path.length = n}

/-- The keys that assignments write. -/
def World.storages (w : World σ) : List Scalar :=
  w.assignments.flatMap fun e => e.2.values.map (·.storage)

section

variable {w : World σ}

theorem depends_congr {key other third : Scalar} (h : w.Depends key other)
    (hk : (other == third) = true) : w.Depends key third := by
  obtain ⟨a, ha, hnow, hs⟩ := h
  exact ⟨a, ha, hnow, BEq.trans hs hk⟩

theorem depends_written {key other : Scalar} (h : w.Depends key other) :
    other.canonical ∈ w.storages.map Scalar.canonical := by
  obtain ⟨a, ha, -, hs⟩ := h
  unfold listeningTo at ha
  cases ht : w.assignments.get? key with
  | none =>
    rw [ht] at ha
    cases ha
  | some table =>
    rw [ht] at ha
    obtain ⟨e, he, rfl⟩ := List.mem_map.mp (Dict.mem_values_of_get? ht)
    rw [← (Scalar.beq_iff _ _).mp hs]
    exact List.mem_map_of_mem (List.mem_flatMap.mpr ⟨e, he, List.mem_map_of_mem ha⟩)

theorem transGen_congr {key other third : Scalar} (h : Relation.TransGen w.Depends key other)
    (hk : (other == third) = true) : Relation.TransGen w.Depends key third := by
  cases h with
  | single hd => exact .single (depends_congr hd hk)
  | tail hpath hd => exact hpath.tail (depends_congr hd hk)

/-- Without a cycle no key comes twice on a path. -/
theorem nodup_of_path (hw : ∀ key, ¬Relation.TransGen w.Depends key key) {path : List Scalar}
    (hp : path.IsChain w.Depends) : (path.map Scalar.canonical).Nodup := by
  have hreach : path.Pairwise (Relation.TransGen w.Depends) :=
    (hp.imp fun _ _ => Relation.TransGen.single).pairwise
  refine List.Pairwise.map _ (fun key other hpath hsame => ?_) hreach
  exact hw key (transGen_congr hpath ((Scalar.beq_iff _ _).mpr hsame.symm))

/-- All keys of a path but the first are written. -/
theorem written_of_path {key : Scalar} {path : List Scalar} (hp : (key :: path).IsChain w.Depends) :
    path.map Scalar.canonical ⊆ w.storages.map Scalar.canonical := by
  induction path generalizing key with
  | nil => exact List.nil_subset _
  | cons other rest ih =>
    obtain ⟨hd, hrest⟩ := List.isChain_cons_cons.mp hp
    exact List.cons_subset.mpr ⟨depends_written hd, ih hrest⟩

theorem path_length_le (hw : ∀ key, ¬Relation.TransGen w.Depends key key) {path : List Scalar}
    (hp : path.IsChain w.Depends) : path.length ≤ w.storages.length + 1 := by
  cases path with
  | nil => exact Nat.zero_le _
  | cons key rest =>
    have hnodup := (List.nodup_cons.mp (nodup_of_path hw hp)).2
    have hlength := (hnodup.subperm (written_of_path hp)).length_le
    simpa using hlength

/-- Without a cycle there is a longest path. -/
theorem longest_path (hw : ∀ key, ¬Relation.TransGen w.Depends key key) :
    ∃ longest, IsGreatest w.pathLengths longest := by
  have hbounded : BddAbove w.pathLengths := by
    refine ⟨w.storages.length + 1, ?_⟩
    rintro _ ⟨path, hp, rfl⟩
    exact path_length_le hw hp
  have hnone : 0 ∈ w.pathLengths := ⟨[], .nil, rfl⟩
  exact ⟨_, Nat.sSup_mem ⟨0, hnone⟩ hbounded, fun _ hn => le_csSup hbounded hn⟩

/-- A rank that rises with every dependency shows that there is no cycle. -/
theorem acyclic_of_rank {rank : Scalar → Nat}
    (h : ∀ key other, w.Depends key other → rank key < rank other) (key : Scalar) :
    ¬Relation.TransGen w.Depends key key := by
  have hrises : ∀ other, Relation.TransGen w.Depends key other → rank key < rank other := by
    intro other hpath
    induction hpath with
    | single hd => exact h _ _ hd
    | tail _ hd ih => exact Nat.lt_trans ih (h _ _ hd)
  exact fun hcycle => Nat.lt_irrefl _ (hrises key hcycle)

end

/-! ## Who adds no dependency -/

/-- Adding no dependency. -/
def unbinding : Conduct (World σ) :=
  always (fun w w' => ∀ key other, w'.Depends key other → w.Depends key other)
    (fun _ _ _ h => h) fun h h' key other hd => h key other (h' key other hd)

theorem depends_of_assignments {w w' : World σ} (h : w'.assignments = w.assignments)
    (key other : Scalar) (hd : w'.Depends key other) : w.Depends key other := by
  obtain ⟨a, ha, hrest⟩ := hd
  unfold listeningTo at ha
  rw [h] at ha
  exact ⟨a, ha, hrest⟩

theorem allows_unbinding : Allows (unbinding : Conduct (World σ)) where
  stored _ _ _ _ _ h := h
  depth _ _ _ _ h := h
  changes _ _ _ _ h := h
  spent h := depends_of_assignments (congrArg Core.assignments h.aside.1)

/-- All that does not write keeps to it, except for the registration of assignments. -/
theorem unbinding_regime :
    Regime (unbinding : Conduct (World σ)).toLaw (fun _ => True) False where
  sees _ hn := keeps_get fun w => hn w fun _ _ _ => trivial
  attempt ha hn := keeps_attempt id ha hn
  signals _ _ _ _ h := h
  computing _ _ _ _ h := h
  computed _ ha w := keepsAt_ensuring (ha w) fun _ _ _ h => h
  subscribed _ _ _ _ h := h
  connected _ _ _ _ h := h
  unsubscribed _ _ _ _ h := h
  control _ _ _ _ _ h := h
  assignment h := h.elim
  dispose _ _ _ h := by
    obtain ⟨_, ha, -⟩ := h
    cases ha

section

variable {functions : Functions σ}
  (hf : ∀ name identity args, WritesNothing (functions name identity args))
  (ha : ∀ name identity args, Refrains Command.isAssignment (functions name identity args))

include hf ha

theorem unbinding_level (n : Nat) {p : Act σ} (hp : WritesNothing p)
    (hq : Refrains Command.isAssignment p) :
    unbinding.Keeps ((level functions n).act p) := by
  induction n generalizing p with
  | zero => exact keeps_throw _
  | succ n ih =>
    have hserves : Serves unbinding.toLaw functions fun _ => level functions n :=
      serves_of_spent allows_unbinding.spent fun name identity args =>
        ih (hf name identity args) (ha name identity args)
    change unbinding.Keeps (p.run hostPart (exec functions (level functions n) n))
    induction p with
    | done result => exact keeps_pure result
    | fail f => exact keeps_throw f
    | note change next ihnext =>
      refine keeps_bind (fun _ _ _ h => h) fun _ => keeps_bind (keeps_read _) fun s => ?_
      exact ihnext s (hp s) (hq s)
    | perform command callback next ihcall ihnext =>
      obtain ⟨hwrite, hcalls, hnext⟩ := hp
      obtain ⟨hassign, hcalls', hnext'⟩ := hq
      refine keeps_attempt id ?_ fun r hr => ihnext r (hnext r hr) (hnext' r)
      refine unbinding_regime.exec hserves (fun _ => n) hwrite (fun _ => trivial)
        (fun a => ih (hcalls a) (hcalls' a)) fun h => ?_
      exact absurd (hassign.symm.trans h) Bool.false_ne_true

end

/-! ## How deep changes nest -/

/-- A manager without a limit in the middle of a cascade, where so many changes are being followed
up. It has no other dependencies than at the start. -/
structure Inside (base : World σ) (depth : Nat) (w : World σ) : Prop where
  unlimited : Unlimited w
  depth : w.depth = depth
  depends : ∀ key other, w.Depends key other → base.Depends key other

theorem Inside.tracks {base w w' : World σ} {depth : Nat} {ms : List (Reaction σ)}
    (h : Inside base depth w) (ht : Tracks w ms w')
    (hd : ∀ key other, w'.Depends key other → w.Depends key other) : Inside base depth w' :=
  ⟨ht.unlimited h.unlimited, ht.depth.trans h.depth, fun key other hw => h.depends key other
    (hd key other hw)⟩

/-- Is no reaction nested deeper than this, where so many changes are being followed up? -/
def Shallow (base : World σ) (longest depth : Nat) (trace : Trace σ) : Prop :=
  ∀ w, Inside base depth w → ∀ m ∈ trace w, m.nesting ≤ longest

section

variable {base : World σ} {longest depth : Nat} {α : Type}

theorem shallow_nil : Shallow base longest depth fun _ => [] := fun _ _ _ hm => by cases hm

theorem shallow_afterwards {act : Run (World σ) α} {next : α → Trace σ}
    (hact : ∀ w, Inside base depth w → Inside base depth (Run.ending (act w)))
    (hnext : ∀ a, Shallow base longest depth (next a)) :
    Shallow base longest depth (afterwards act next) := by
  intro w hw m hm
  have hend := hact w hw
  cases hr : act w with
  | ok a w' =>
    rw [hr] at hend
    rw [afterwards_ok hr] at hm
    exact hnext a w' hend m hm
  | error f w' =>
    rw [afterwards_error hr] at hm
    cases hm

theorem shallow_all {act : α → Run (World σ) Unit} {trace : α → Trace σ} {items : List α}
    (hact : ∀ a w, Inside base depth w → Inside base depth (Run.ending (act a w)))
    (htrace : ∀ a ∈ items, Shallow base longest depth (trace a)) :
    Shallow base longest depth (traceAll act trace items) := by
  induction items with
  | nil => exact shallow_nil
  | cons a rest ih =>
    obtain ⟨ha, hrest⟩ := List.forall_mem_cons.mp htrace
    intro w hw m hm
    rcases List.mem_append.mp hm with hm | hm
    · exact ha w hw m hm
    · exact shallow_afterwards (hact a) (fun _ => ih hrest) w hw m hm

end

section

variable {functions : Functions σ} {base : World σ} {longest : Nat}
  (hf : Harmless functions)
  (hact : ∀ n name identity args,
    unbinding.Keeps ((level functions n).act (functions name identity args)))
  (hlongest : ∀ path : List Scalar, path.IsChain base.Depends → path.length ≤ longest)

include hf hact

theorem inside_applyAssignment (n : Nat) (a : Assignment) {depth : Nat} {w : World σ}
    (hw : Inside base depth w) :
    Inside base depth (Run.ending (applyAssignment functions (level functions n) a w)) := by
  have hexact : Exact 0 (applyAssignment functions (level functions n) a) _ :=
    exact_applyAssignment hf (exact_write hf n) a
  have hkeeps := allows_unbinding.keeps_applyAssignment hact n a
  exact hw.tracks (hexact w hw.unlimited).1 (hkeeps.ending id w)

theorem inside_writeKey (n : Nat) (key : Scalar) (value : Value) {depth : Nat} {w : World σ}
    (hw : Inside base depth w) :
    Inside base depth (Run.ending (writeKey functions (level functions n) key value w)) := by
  have hexact : Exact 0 (writeKey functions (level functions n) key value) _ :=
    exact_write hf (n + 1) key value
  have hkeeps := allows_unbinding.keeps_writeKey (allows_unbinding.keeps_applyAssignment hact n)
    key value
  exact hw.tracks (hexact w hw.unlimited).1 (hkeeps.ending id w)

/-- The reactions to an assignment are nested in those along a path to what it writes. -/
theorem shallow_assignment {n depth : Nat} {a : Assignment}
    (hwrite : ∀ value, Shallow base longest depth (reactions functions n a.storage value)) :
    Shallow base longest depth
      (reactionsToAssignment functions (level functions n) (reactions functions n) a) := by
  have hquiet : Serves (quiet 0) functions fun _ => level functions n :=
    serves_of_moves (quiet_moves tracks_spent) (quiet_function hf n)
  have hkeeps : Serves unbinding.toLaw functions fun _ => level functions n :=
    serves_of_spent allows_unbinding.spent (hact n)
  refine shallow_afterwards (fun w hw => ?_) fun holds => ?_
  · exact hw.tracks (hquiet.conditionHolds a w hw.unlimited).1
      ((hkeeps.conditionHolds a).ending id w)
  · cases holds with
    | false => exact shallow_nil
    | true =>
      refine shallow_afterwards (fun w hw => ?_) hwrite
      exact hw.tracks (hquiet.evaluateNow a.expression w hw.unlimited).1
        ((hkeeps.evaluateNow a.expression).ending id w)

include hlongest

/-- A change nests as deep as its path is long, and what follows from it is on longer paths. -/
theorem shallow_write {n : Nat}
    (hnested : ∀ path key, (path ++ [key]).IsChain base.Depends → ∀ value,
      Shallow base longest path.length (reactions functions n key value))
    {path : List Scalar} {key : Scalar} (hpath : (path ++ [key]).IsChain base.Depends)
    (value : Value) :
    Shallow base longest path.length
      (reactionsToWrite functions (level functions n) (reactions functions n) key value) := by
  intro w hw m hm
  unfold reactionsToWrite at hm
  dsimp only at hm
  split at hm
  · cases hm
  split at hm
  · rcases List.mem_cons.mp hm with rfl | hm
    · have hlength := hlongest _ hpath
      have hdepth : w.depth = path.length := hw.depth
      rw [List.length_append, ← hdepth] at hlength
      exact hlength
    · have hentered : Inside base (path ++ [key]).length
          { w.entered key value with
            changes := w.changes.record ⟨key, w.store.read key, value⟩ } := by
        refine ⟨⟨hw.unlimited.limit, ⟨hw.unlimited.onlookers.listeners,
          hw.unlimited.onlookers.effects⟩, hw.unlimited.heard⟩, ?_, hw.depends⟩
        rw [List.length_append, ← hw.depth]
        rfl
      refine shallow_all (fun a v hv => inside_applyAssignment hf hact n a hv) (fun a ha => ?_) _
        hentered m hm
      obtain ⟨hlistens, hnow⟩ := List.mem_filter.mp ha
      have hdepends : base.Depends key a.storage :=
        hw.depends key a.storage ⟨a, hlistens, by simpa using hnow, BEq.rfl⟩
      refine shallow_assignment hf hact fun value => hnested _ _ ?_ value
      refine hpath.append (.singleton _) fun k hk k' hk' => ?_
      simp only [List.getLast?_concat, List.head?_cons, Option.mem_some_iff] at hk hk'
      rwa [← hk, ← hk']
  · cases hm

theorem shallow_reactions (n : Nat) : ∀ path key, (path ++ [key]).IsChain base.Depends → ∀ value,
    Shallow base longest path.length (reactions functions n key value) := by
  induction n with
  | zero => exact fun _ _ _ _ => shallow_nil
  | succ n ih => exact fun path key hpath => shallow_write hf hact hlongest ih hpath

/-- In a transaction no change nests deeper than the longest path is long. -/
theorem shallow_opening (n : Nat) (o : Opening) :
    Shallow base longest 0 (o.reactions functions n) := by
  have hreactions := shallow_reactions hf hact hlongest n
  have hwrite : ∀ key value, Shallow base longest 0
      (reactionsToWrite functions (level functions n) (reactions functions n) key value) := by
    intro key value
    have hpath : ([] ++ [key] : List Scalar).IsChain base.Depends := .singleton key
    exact shallow_write hf hact hlongest hreactions hpath value
  cases o with
  | patch p =>
    unfold Opening.reactions
    dsimp only
    split
    · exact shallow_all (fun e w hw => inside_writeKey hf hact n e.1 e.2 hw) fun e _ =>
        hwrite e.1 e.2
    · exact shallow_nil
  | slot control value =>
    unfold Opening.reactions
    dsimp only
    split
    · exact hwrite _ value
    · exact shallow_nil
  | deferral d =>
    exact shallow_assignment hf hact fun value => hreactions [] _ (.singleton _) value

end

/-! ## Cascades without a cycle -/

theorem balanced_run (functions : Functions σ) (n bound : Nat) (o : Opening) :
    balance.Keeps (o.run functions (level functions n) bound) := by
  have hb := balanced_level functions n
  cases o with
  | patch p => exact Discipline.keeps_exec hb bound (.setState p) (.inl trivial) Empty.elim
  | slot control value =>
    exact Discipline.keeps_exec hb bound (.setValue control value) (.inl trivial) Empty.elim
  | deferral d => exact Discipline.keeps_fire hb d

theorem limited_none {w : World σ} (h : w.config.maxDepth = none) : w.limited none = w := by
  unfold World.limited
  rw [← h]

/-- What comes to an end under a limit does so without one, if the limit makes no difference. -/
theorem settles_without_limit {functions : Functions σ} {bound limit : Nat} {o : Opening}
    {w : World σ}
    (hsame : ∀ n, o.run functions (level functions n) bound (w.limited (some limit)) =
      Run.mapEnd (World.limited (some limit))
        (o.run functions (level functions n) bound (w.limited none)))
    (hs : ∃ r, Settles (fun n => o.run functions (level functions n) bound)
      (w.limited (some limit)) r) :
    ∃ r, Settles (fun n => o.run functions (level functions n) bound) (w.limited none) r := by
  obtain ⟨r, hfinishes, least, hends⟩ := hs
  refine ⟨Run.mapEnd (World.limited none) r, ?_, least, fun n hn => ?_⟩
  · cases r <;> exact hfinishes
  · have hbalanced : Balanced _ _ :=
      (balanced_run functions n bound o).ending id (w.limited none)
    have hend : r = Run.mapEnd (World.limited (some limit)) _ := (hends n hn).symm.trans (hsame n)
    rw [hend, Run.mapEnd_mapEnd]
    cases hrun : o.run functions (level functions n) bound (w.limited none) with
    | ok a v =>
      rw [hrun] at hbalanced
      have hv : v.limited none = v := limited_none (congrArg Config.maxDepth hbalanced.config)
      exact hrun.trans (congrArg (EStateM.Result.ok a) hv.symm)
    | error f v =>
      rw [hrun] at hbalanced
      have hv : v.limited none = v := limited_none (congrArg Config.maxDepth hbalanced.config)
      exact hrun.trans (congrArg (EStateM.Result.error f) hv.symm)

/-- Without a cycle every transaction comes to its end without a limit. Never more changes are
followed up at a time than the longest path of dependencies has keys, and under every limit that is
no less the transaction goes as without one. -/
theorem without_a_cycle_no_guard_is_needed (functions : Functions σ)
    (hf : ∀ name identity args, WritesNothing (functions name identity args))
    (ha : ∀ name identity args, Refrains Command.isAssignment (functions name identity args))
    (ht : Total functions) (bound : Nat) (o : Opening) (ho : o.isAllowed = true) (w : World σ)
    (hr : Reachable w) (hw : w.Onlookers) (hclosed : w.inTransaction = false)
    (hdepth : w.depth = 0) (hacyclic : ∀ key, ¬Relation.TransGen w.Depends key key) :
    ∃ longest, IsGreatest w.pathLengths longest ∧
      (∃ r, Settles (fun n => o.run functions (level functions n) bound) (w.limited none) r) ∧
      (∀ n, deepest (o.reactions functions n (o.begun (w.limited none))) ≤ longest) ∧
      ∀ (limit : Nat), longest ≤ limit → ∀ n,
        o.run functions (level functions n) bound (w.limited (some limit)) =
          Run.mapEnd (World.limited (some limit))
            (o.run functions (level functions n) bound (w.limited none)) := by
  have hharmless := harmless_of_total hf ht
  have hact : ∀ n name identity args,
      unbinding.Keeps ((level functions n).act (functions name identity args)) :=
    fun n name identity args =>
      unbinding_level hf ha n (hf name identity args) (ha name identity args)
  obtain ⟨longest, hlongest⟩ := longest_path hacyclic
  have hpaths : ∀ path : List Scalar, path.IsChain w.Depends → path.length ≤ longest :=
    fun path hp => hlongest.2 ⟨path, hp, rfl⟩
  have hinside : Inside w 0 (o.begun (w.limited none)) := by
    refine ⟨hr.unlimited hw o, (o.start_depth _).trans hdepth, ?_⟩
    cases o <;> exact fun _ _ h => h
  have hshallow : ∀ n, deepest (o.reactions functions n (o.begun (w.limited none))) ≤ longest :=
    fun n => deepest_le.mpr (shallow_opening hharmless hact hpaths n o _ hinside)
  have hsame : ∀ (limit : Nat), longest ≤ limit → ∀ n,
      o.run functions (level functions n) bound (w.limited (some limit)) =
        Run.mapEnd (World.limited (some limit))
          (o.run functions (level functions n) bound (w.limited none)) := by
    intro limit hle n
    have hopen : (w.limited none).inTransaction = false := hclosed
    have hbegun : (o.begun (w.limited none)).depth ≤ limit := by
      rw [hinside.depth]
      exact Nat.zero_le limit
    obtain ⟨htracks, hguard⟩ := exact_writes hharmless n o _ hinside.unlimited
    rcases hguard hbegun with hwithin | ⟨before, m, after, hsplit, -, hnesting, -⟩
    · exact run_within hf ho hopen bound (htracks.onlookers hinside.unlimited.onlookers) hwithin
    · have hdeep := hshallow n
      rw [hsplit] at hdeep
      exact absurd (lt_deepest hnesting) (Nat.not_lt.mpr (Nat.le_trans hdeep hle))
  have hplaced : Placed longest 0 (w.limited (some longest)) :=
    ⟨rfl, hdepth, hw.listeners, hw.effects⟩
  have hsettles := settles_opening hharmless ho hplaced hclosed
    (fun l hl => tame_deliver hf ht hl) bound
  exact ⟨longest, hlongest, settles_without_limit (hsame longest (Nat.le_refl longest)) hsettles,
    hshallow, hsame⟩

/-- The total follows the price, and the label follows the total. -/
def counter : World Unit :=
  let total : Assignment := ⟨.text "total", .null, .identifier (.text "price"), none, .null⟩
  let label : Assignment := ⟨.text "label", .null, .identifier (.text "total"), none, .null⟩
  ((Setup.world { state := [(.text "price", .int 2)] } (.ofNat 0) ()).linkAssignment total
    [.text "price"]).linkAssignment label [.text "total"]

/-- How far a key of the counter is from the price. -/
def distance (key : Scalar) : Nat :=
  if key == .text "price" then 0 else if key == .text "total" then 1 else 2

theorem distance_congr {key other : Scalar} (h : (key == other) = true) :
    distance key = distance other := by
  unfold distance
  rw [BEq.congr_left h, BEq.congr_left h]

theorem distance_rises (key other : Scalar) (h : counter.Depends key other) :
    distance key < distance other := by
  obtain ⟨a, ha, -, hs⟩ := h
  change a ∈ Dict.values ((Dict.get? [(.text "price", _), (.text "total", _)] key).getD []) at ha
  simp only [Dict.get?] at ha
  split at ha
  · rename_i hk
    cases List.mem_singleton.mp ha
    rw [← distance_congr hk, ← distance_congr hs]
    decide
  split at ha
  · rename_i hk
    cases List.mem_singleton.mp ha
    rw [← distance_congr hk, ← distance_congr hs]
    decide
  · cases ha

/-- A new price is on the label without a limit, and under a limit of three just so. -/
theorem a_price_reaches_the_label_under_a_limit_of_three :
    (∃ r, Settles (fun n => (Opening.patch (.map 0 [(.text "price", .int 5)])).run unaided
      (level unaided n) 0) (counter.limited none) r) ∧
    (∃ w, (Opening.patch (.map 0 [(.text "price", .int 5)])).run unaided (level unaided 9) 0
        (counter.limited (some 3)) = .ok () w ∧
      (w.store.read (.text "label")).strictEquals (.int 5) = true) ∧
    (Opening.patch (.map 0 [(.text "price", .int 5)])).run unaided (level unaided 9) 0
        (counter.limited (some 3)) =
      Run.mapEnd (World.limited (some 3))
        ((Opening.patch (.map 0 [(.text "price", .int 5)])).run unaided (level unaided 9) 0
          (counter.limited none)) := by
  have hreachable : Reachable counter :=
    ⟨_, _, _, (Relation.ReflTransGen.single (.assignment _ _)).tail (.assignment _ _)⟩
  have hnobody : counter.Onlookers := ⟨(fun _ hl => nomatch hl), fun _ he => nomatch he⟩
  have hacyclic := acyclic_of_rank distance_rises
  obtain ⟨longest, ⟨⟨path, hpath, hlength⟩, -⟩, hends, -, hsame⟩ :=
    without_a_cycle_no_guard_is_needed unaided (fun _ _ _ => trivial) (fun _ _ _ => trivial)
      total_unaided 0 (.patch (.map 0 [(.text "price", .int 5)])) rfl counter hreachable hnobody
      rfl rfl hacyclic
  have hthree : longest ≤ 3 := by
    rw [← hlength]
    exact path_length_le hacyclic hpath
  have hruns : ((Opening.patch (.map 0 [(.text "price", .int 5)])).run unaided (level unaided 9)
      0).yields (counter.limited (some 3)) (fun _ w =>
        (w.store.read (.text "label")).strictEquals (.int 5)) = true := by decide +kernel
  obtain ⟨_, w, hrun, hlabel⟩ := Run.yields_ok hruns
  exact ⟨hends, ⟨w, hrun, hlabel⟩, hsame 3 hthree 9⟩

end Switchboard.Manager
