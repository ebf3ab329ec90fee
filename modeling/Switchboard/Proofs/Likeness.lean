-- Two evaluations of one expression, side by side. A likeness says when two states are linked and
-- when a value on one side counts for a value on the other. If operators, steps of paths and called
-- functions take like values to like values, and the contexts are alike under the names that the
-- expression can read, then the two evaluations end alike, with the same fault if they fail.
import Mathlib.Data.List.Forall2
import Switchboard.Proofs.Conduct
import Switchboard.Proofs.Inputs
namespace Switchboard

/-- Are two outcomes alike? Faults must be the same. -/
def Both {α β : Type} (r : α → β → Prop) : Except Fault α → Except Fault β → Prop
  | .ok a, .ok b => r a b
  | .error f, .error g => f = g
  | _, _ => False

theorem Both.mono {α β : Type} {r r' : α → β → Prop} (h : ∀ a b, r a b → r' a b)
    {x : Except Fault α} {y : Except Fault β} (hb : Both r x y) : Both r' x y := by
  cases x <;> cases y
  · exact hb
  · exact hb
  · exact hb
  · exact h _ _ hb

theorem Both.bind {α β γ δ : Type} {r : α → β → Prop} {r' : γ → δ → Prop} {x : Except Fault α}
    {y : Except Fault β} {f : α → Except Fault γ} {g : β → Except Fault δ} (h : Both r x y)
    (hn : ∀ a b, r a b → Both r' (f a) (g b)) : Both r' (x >>= f) (y >>= g) := by
  cases x <;> cases y
  · exact h
  · exact h.elim
  · exact h.elim
  · exact hn _ _ h

theorem exists_of_forall₂ {α β : Type} {r : α → β → Prop} {items : List α} {results : List β}
    (h : List.Forall₂ r items results) {a : α} (ha : a ∈ items) : ∃ b ∈ results, r a b := by
  induction h with
  | nil => cases ha
  | @cons a' b rest results hb _ ih =>
    rcases List.mem_cons.mp ha with rfl | ha
    · exact ⟨b, List.mem_cons_self, hb⟩
    · obtain ⟨b', hm, hb'⟩ := ih ha
      exact ⟨b', List.mem_cons_of_mem b hm, hb'⟩

/-- How two evaluations are alike. What counts as alike may depend on how far they have come. -/
structure Likeness (ω ψ : Type) where
  /-- What may become of two states that are linked. -/
  later : ω × ψ → ω × ψ → Prop
  linked : ω × ψ → Prop
  value : ω × ψ → Value → Value → Prop
  refl : ∀ {p}, linked p → later p p
  trans : ∀ {p q r}, later p q → later q r → later p r
  kept : ∀ {p q}, later p q → linked q
  mono : ∀ {p q x y}, later p q → value p x y → value q x y
  scalar : ∀ {p} s, value p (.scalar s) (.scalar s)
  function : ∀ {p x y} f, value p x y → (x = .function f ↔ y = .function f)
  truth : ∀ {p x y}, value p x y → x.isTruthy = y.isTruthy
  key : ∀ {p x y}, value p x y → Expr.normalKey x = Expr.normalKey y
  unary : ∀ {p x y} (op : UnaryOperator), value p x y → Both (value p) (op.apply x) (op.apply y)
  binary : ∀ {p x y x' y'} (op : BinaryOperator), value p x y → value p x' y' →
    Both (value p) (op.apply x x') (op.apply y y')
  part : ∀ {p x y} key, linked p → value p x y → Both (value p) (x.part key) (y.part key)

namespace Likeness

variable {ω ψ α β γ δ : Type} {l : Likeness ω ψ} {p q : ω × ψ}

/-- Do two computations end alike? -/
def Matches (l : Likeness ω ψ) (p : ω × ψ) (r : ω × ψ → α → β → Prop) :
    EStateM.Result Fault ω α → EStateM.Result Fault ψ β → Prop
  | .ok a w, .ok b v => l.later p (w, v) ∧ r (w, v) a b
  | .error f w, .error g v => f = g ∧ l.later p (w, v)
  | _, _ => False

/-- Do two computations end alike from these states? -/
def Alike (l : Likeness ω ψ) (p : ω × ψ) (r : ω × ψ → α → β → Prop) (act : Run ω α)
    (act' : Run ψ β) : Prop := l.Matches p r (act p.1) (act' p.2)

/-! ## One computation after the other -/

theorem alike_pure {r : ω × ψ → α → β → Prop} {a : α} {b : β} (hp : l.linked p) (h : r p a b) :
    l.Alike p r (pure a) (pure b) := ⟨l.refl hp, h⟩

theorem alike_throw {r : ω × ψ → α → β → Prop} (hp : l.linked p) (f : Fault) :
    l.Alike p r (throw f) (throw f) := ⟨rfl, l.refl hp⟩

theorem alike_ofExcept {r : ω × ψ → α → β → Prop} {x : Except Fault α} {y : Except Fault β}
    (hp : l.linked p) (h : Both (r p) x y) : l.Alike p r (Run.ofExcept x) (Run.ofExcept y) := by
  cases x <;> cases y
  · exact ⟨h, l.refl hp⟩
  · exact h.elim
  · exact h.elim
  · exact ⟨l.refl hp, h⟩

theorem Matches.earlier {r : ω × ψ → α → β → Prop} {x : EStateM.Result Fault ω α}
    {y : EStateM.Result Fault ψ β} (hpq : l.later p q) (h : l.Matches q r x y) :
    l.Matches p r x y := by
  cases x <;> cases y
  · exact ⟨l.trans hpq h.1, h.2⟩
  · exact h.elim
  · exact h.elim
  · exact ⟨h.1, l.trans hpq h.2⟩

theorem alike_bind {r : ω × ψ → α → β → Prop} {r' : ω × ψ → γ → δ → Prop} {act : Run ω α}
    {act' : Run ψ β} {next : α → Run ω γ} {next' : β → Run ψ δ} (h : l.Alike p r act act')
    (hn : ∀ q a b, l.later p q → r q a b → l.Alike q r' (next a) (next' b)) :
    l.Alike p r' (act >>= next) (act' >>= next') := by
  unfold Alike at h ⊢
  cases ha : act p.1 with
  | ok a w =>
    cases hb : act' p.2 with
    | ok b v =>
      rw [ha, hb] at h
      rw [Conduct.bind_ok ha, Conduct.bind_ok hb]
      exact (hn (w, v) a b h.1 h.2).earlier h.1
    | error g v =>
      rw [ha, hb] at h
      exact h.elim
  | error f w =>
    cases hb : act' p.2 with
    | ok b v =>
      rw [ha, hb] at h
      exact h.elim
    | error g v =>
      rw [ha, hb] at h
      rw [Conduct.bind_error ha, Conduct.bind_error hb]
      exact h

/-- What is the same on both sides is done first. -/
theorem alike_same {ι : Type} {r : ω × ψ → α → β → Prop} (x : Except Fault ι) (hp : l.linked p)
    {next : ι → Run ω α} {next' : ι → Run ψ β}
    (hn : ∀ q a, x = .ok a → l.later p q → l.Alike q r (next a) (next' a)) :
    l.Alike p r (Run.ofExcept x >>= next) (Run.ofExcept x >>= next') := by
  cases x with
  | ok a => exact hn p a rfl (l.refl hp)
  | error f => exact alike_throw hp f

theorem alike_result {γ δ : Type} {r : γ → δ → Prop} {r' : ω × ψ → α → β → Prop}
    {x : Except Fault γ} {y : Except Fault δ} (h : Both r x y) (hp : l.linked p)
    {next : γ → Run ω α} {next' : δ → Run ψ β}
    (hn : ∀ a b, x = .ok a → r a b → l.Alike p r' (next a) (next' b)) :
    l.Alike p r' (Run.ofExcept x >>= next) (Run.ofExcept y >>= next') := by
  cases x <;> cases y
  · exact ⟨h, l.refl hp⟩
  · exact h.elim
  · exact h.elim
  · exact hn _ _ rfl h

/-! ## What the evaluations rest on -/

/-- Do hosts give like lists for like items, and call these functions alike? -/
structure Hosts (l : Likeness ω ψ) (may : Function → Prop) (h : Host ω) (h' : Host ψ) :
    Prop where
  fresh : ∀ {p xs ys}, l.linked p → List.Forall₂ (l.value p) xs ys →
    l.Alike p (fun q a b => l.value q (.list a xs) (.list b ys)) h.fresh h'.fresh
  call : ∀ {p f xs ys}, may f → l.linked p → List.Forall₂ (l.value p) xs ys →
    l.Alike p l.value (h.call f xs) (h'.call f ys)

/-- Are two contexts alike under these names? -/
def Sees (l : Likeness ω ψ) (p : ω × ψ) (names : List String) (c c' : Value) : Prop :=
  ∀ s ∈ names, Both (l.value p) (c.part (.text s)) (c'.part (.text s))

/-- Do callees find only these functions in a context? -/
def CallsOnly (may : Function → Prop) (c : Value) (fs : List Expr) : Prop :=
  ∀ f ∈ fs, ∀ path, f.admits path → ∀ g, c.lookup path = .ok (.function g) → may g

variable {c c' : Value} {names names' : List String}

theorem Sees.later (hpq : l.later p q) (h : l.Sees p names c c') : l.Sees q names c c' :=
  fun s hs => (h s hs).mono fun _ _ => l.mono hpq

theorem Sees.subset (hn : names' ⊆ names) (h : l.Sees p names c c') : l.Sees p names' c c' :=
  fun s hs => h s (hn hs)

theorem Sees.left (h : l.Sees p (names ++ names') c c') : l.Sees p names c c' :=
  h.subset (List.subset_append_left _ _)

theorem Sees.right (h : l.Sees p (names ++ names') c c') : l.Sees p names' c c' :=
  h.subset (List.subset_append_right _ _)

theorem CallsOnly.left {may : Function → Prop} {fs fs' : List Expr}
    (h : CallsOnly may c (fs ++ fs')) : CallsOnly may c fs :=
  fun f hf => h f (List.mem_append_left _ hf)

theorem CallsOnly.right {may : Function → Prop} {fs fs' : List Expr}
    (h : CallsOnly may c (fs ++ fs')) : CallsOnly may c fs' :=
  fun f hf => h f (List.mem_append_right _ hf)

/-- Following a path from like values ends alike. -/
theorem lookup_alike {x y : Value} (path : List Value) (hp : l.linked p) (h : l.value p x y) :
    Both (l.value p) (x.lookup path) (y.lookup path) := by
  induction path generalizing x y with
  | nil => exact h
  | cons key rest ih => exact (l.part key hp h).bind fun a b hab => ih hab

/-- So does following a path that starts with a name under which the contexts are alike. -/
theorem lookup_sees {s : String} (rest : List Value) (hp : l.linked p) (hs : s ∈ names)
    (h : l.Sees p names c c') :
    Both (l.value p) (c.lookup (.text s :: rest)) (c'.lookup (.text s :: rest)) :=
  (h s hs).bind fun _ _ hab => lookup_alike rest hp hab

/-- So does following the path of a chain of members. -/
theorem lookup_admitted {e : Expr} {path : List Value} (hs : e.isSpelled = true)
    (ht : e.thisNamed = true) (ha : e.admits path) (hp : l.linked p)
    (h : l.Sees p e.root c c') :
    Both (l.value p) (c.lookup path) (c'.lookup path) := by
  rcases Expr.admits_root hs (.inr ht) ha with ⟨rfl, -⟩ | ⟨s, hr, rest, rfl⟩
  · cases ht
  · exact lookup_sees rest hp hr h

/-- What calls a value that is no function fails. -/
theorem notAFunction_fails (path : List Value) (v : Value) :
    (do .error (.misuse (.notAFunction (← Expr.pathText path))) : Except Fault Value) ≠ .ok v := by
  cases Expr.pathText path with
  | ok s => exact fun h => by cases h
  | error f => exact fun h => by cases h

theorem alike_failure {r : ω × ψ → α → β → Prop} {x : Except Fault α} {y : Except Fault β}
    (hp : l.linked p) (h : ∀ f, x = .error f ↔ y = .error f) (hx : ∀ a, x ≠ .ok a) :
    l.Alike p r (Run.ofExcept x) (Run.ofExcept y) := by
  cases x with
  | ok a => exact absurd rfl (hx a)
  | error f =>
    rw [(h f).1 rfl]
    exact alike_throw hp f

/-! ## Evaluation -/

section

variable {may : Function → Prop} {h : Host ω} {h' : Host ψ}

/-- What goes on with the key of a member, of whichever kind. -/
theorem alike_withKey {r : ω × ψ → α → β → Prop} {property : Expr} {computed : Bool}
    (hp : l.linked p)
    (hv : computed = true → l.Alike p l.value (property.evaluate h c) (property.evaluate h' c'))
    {next : Value → Run ω α} {next' : Value → Run ψ β}
    (hn : ∀ q key, l.later p q → (computed = false → Expr.nameKey property = .ok key) →
      l.Alike q r (next key) (next' key)) :
    l.Alike p r
      (if computed then do
        let v ← property.evaluate h c
        let key ← .ofExcept (Expr.normalKey v)
        next key
      else do
        let key ← .ofExcept (Expr.nameKey property)
        next key)
      (if computed then do
        let v ← property.evaluate h' c'
        let key ← .ofExcept (Expr.normalKey v)
        next' key
      else do
        let key ← .ofExcept (Expr.nameKey property)
        next' key) := by
  cases computed with
  | true =>
    refine alike_bind (hv rfl) fun q x y hq hxy => ?_
    rw [l.key hxy]
    exact alike_same _ (l.kept hq) fun u key _ hu => hn u key (l.trans hq hu) nofun
  | false => exact alike_same _ hp fun q key hkey hq => hn q key hq fun _ => hkey

mutual

/-- The two evaluations of an expression end alike. -/
theorem evaluate_alike {p : ω × ψ} (hh : l.Hosts may h h') (e : Expr) (hs : e.isSpelled = true)
    (ht : e.thisNamed = true) (hf : CallsOnly may c e.callees) (hi : l.Sees p e.inputs c c')
    (hp : l.linked p) : l.Alike p l.value (e.evaluate h c) (e.evaluate h' c') := by
  cases e with
  | literal value raw =>
    cases value with
    | scalar s =>
      rw [Expr.evaluate, Expr.evaluate]
      exact alike_pure hp (l.scalar s)
    | _ => cases hs
  | self => cases ht
  | identifier name =>
    cases name with
    | scalar s =>
      cases s with
      | text s => exact alike_ofExcept hp (lookup_sees [] hp (List.mem_singleton.mpr rfl) hi)
      | _ => cases hs
    | _ => cases hs
  | compound body =>
    rw [Expr.evaluate, Expr.evaluate]
    exact evaluateLast_alike hh body hs ht hf hi hp (l.scalar .null)
  | array elements =>
    rw [Expr.evaluate, Expr.evaluate]
    refine alike_bind (evaluateAll_alike hh elements hs ht hf hi hp) fun q xs ys hq hxy => ?_
    exact alike_bind (hh.fresh (l.kept hq) hxy) fun q' a b hq' hab => alike_pure (l.kept hq') hab
  | unary operator argument leading =>
    rw [Expr.evaluate, Expr.evaluate]
    refine alike_same _ hp fun q op _ hq => ?_
    refine alike_bind (evaluate_alike hh argument hs ht hf (hi.later hq) (l.kept hq)) ?_
    exact fun q' x y hq' hxy => alike_ofExcept (l.kept hq') (l.unary op hxy)
  | binary operator left right | logical operator left right =>
    simp only [Expr.isSpelled, Expr.thisNamed, Bool.and_eq_true] at hs ht
    rw [Expr.inputs] at hi
    rw [Expr.callees] at hf
    rw [Expr.evaluate, Expr.evaluate]
    refine alike_same _ hp fun q op _ hq => ?_
    refine alike_bind (evaluate_alike hh left hs.1 ht.1 hf.left (hi.later hq).left (l.kept hq)) ?_
    intro r x y hr hxy
    have hir := (hi.later (l.trans hq hr)).right
    refine alike_bind (evaluate_alike hh right hs.2 ht.2 hf.right hir (l.kept hr)) ?_
    intro t x' y' ht hxy'
    exact alike_ofExcept (l.kept ht) (l.binary op (l.mono ht hxy) hxy')
  | conditional test consequent alternate =>
    simp only [Expr.isSpelled, Expr.thisNamed, Bool.and_eq_true] at hs ht
    rw [Expr.inputs] at hi
    rw [Expr.callees] at hf
    rw [Expr.evaluate, Expr.evaluate]
    refine alike_bind (evaluate_alike hh test hs.1.1 ht.1.1 hf.left.left hi.left.left hp) ?_
    intro q t t' hq htt
    have hiq := (hi.later hq).left.right
    refine alike_bind (evaluate_alike hh consequent hs.1.2 ht.1.2 hf.left.right hiq (l.kept hq)) ?_
    intro r a a' hr haa
    have hir := (hi.later (l.trans hq hr)).right
    refine alike_bind (evaluate_alike hh alternate hs.2 ht.2 hf.right hir (l.kept hr)) ?_
    intro u b b' hu hbb
    rw [l.truth htt]
    refine alike_same _ (l.kept hu) fun v yes _ hv => ?_
    cases yes with
    | true => exact alike_pure (l.kept hv) (l.mono (l.trans hu hv) haa)
    | false => exact alike_pure (l.kept hv) (l.mono hv hbb)
  | call callee arguments =>
    simp only [Expr.isSpelled, Expr.thisNamed, Bool.and_eq_true] at hs ht
    rw [Expr.inputs] at hi
    rw [Expr.callees] at hf
    rw [Expr.evaluate, Expr.evaluate]
    have hfc : CallsOnly may c callee.callees := fun f hm =>
      hf f (List.mem_cons_of_mem _ (List.mem_append_left _ hm))
    have hfa : CallsOnly may c (Expr.calleesAll arguments) := fun f hm =>
      hf f (List.mem_cons_of_mem _ (List.mem_append_right _ hm))
    refine alike_bind (pathOf_alike hh .callee callee hs.1 (.inr ht.1) hfc hi.left.right hp) ?_
    rintro q path _ hq ⟨rfl, hadmits⟩
    have hq' := l.kept hq
    have hlook := lookup_admitted hs.1 ht.1 hadmits hq' (hi.later hq).left.left
    refine alike_result hlook hq' fun f g hfound hfg => ?_
    refine alike_bind (evaluateAll_alike hh arguments hs.2 ht.2 hfa (hi.later hq).right hq') ?_
    intro r xs ys hr hxy
    cases f with
    | function f =>
      cases (l.function f hfg).1 rfl
      exact hh.call (hf callee List.mem_cons_self path hadmits f hfound) (l.kept hr) hxy
    | _ =>
      cases g with
      | function g => cases (l.function g hfg).2 rfl
      | _ => exact alike_failure (l.kept hr) (fun _ => Iff.rfl) (notAFunction_fails path)
  | member object property computed =>
    obtain ⟨hobject, hproperty⟩ := Bool.and_eq_true_iff.mp hs
    rw [Expr.inputs] at hi
    rw [Expr.callees] at hf
    rw [Expr.evaluate, Expr.evaluate]
    have hfront := Expr.thisNamed_object ht
    refine alike_bind (pathOf_alike hh .object object hobject hfront hf.left hi.right.left hp) ?_
    rintro q front _ hq ⟨rfl, hadmits⟩
    refine alike_withKey (l.kept hq) (fun hcomputed => ?_) fun u key hu hkey => ?_
    · subst hcomputed
      have hiq := (hi.later hq).right.right
      have hkey := Expr.thisNamed_property ht
      exact evaluate_alike hh property hproperty hkey hf.right hiq (l.kept hq)
    · have hroot := (hi.later (l.trans hq hu)).left
      have hmember := lookup_admitted hs ht ⟨front, key, rfl, hadmits, hkey⟩ (l.kept hu) hroot
      exact alike_ofExcept (l.kept hu) hmember

/-- The two evaluations of a chain of members find the same path. -/
theorem pathOf_alike {p : ω × ψ} (hh : l.Hosts may h h') (role : Expr.Role) (e : Expr)
    (hs : e.isSpelled = true) (ht : e.isSelf = true ∨ e.thisNamed = true)
    (hf : CallsOnly may c e.callees) (hi : l.Sees p e.pathInputs c c') (hp : l.linked p) :
    l.Alike p (fun _ a b => a = b ∧ e.admits a) (e.pathOf h c role) (e.pathOf h' c' role) := by
  cases e with
  | self =>
    cases role with
    | object => exact alike_pure hp ⟨rfl, rfl⟩
    | callee => exact alike_throw hp _
  | identifier name => exact alike_pure hp ⟨rfl, rfl⟩
  | member object property computed =>
    obtain ⟨hobject, hproperty⟩ := Bool.and_eq_true_iff.mp hs
    have hnamed := ht.resolve_left nofun
    rw [Expr.pathInputs] at hi
    rw [Expr.callees] at hf
    rw [Expr.pathOf, Expr.pathOf]
    have hfront := Expr.thisNamed_object hnamed
    refine alike_bind (pathOf_alike hh .object object hobject hfront hf.left hi.left hp) ?_
    rintro q front _ hq ⟨rfl, hadmits⟩
    refine alike_withKey (l.kept hq) (fun hcomputed => ?_) fun u key hu hkey => ?_
    · subst hcomputed
      have hiq := (hi.later hq).right
      have hkey := Expr.thisNamed_property hnamed
      exact evaluate_alike hh property hproperty hkey hf.right hiq (l.kept hq)
    · exact alike_pure (l.kept hu) ⟨rfl, front, key, rfl, hadmits, hkey⟩
  | _ => exact alike_throw hp _

theorem evaluateAll_alike {p : ω × ψ} (hh : l.Hosts may h h') (es : List Expr)
    (hs : Expr.areSpelled es = true) (ht : Expr.allThisNamed es = true)
    (hf : CallsOnly may c (Expr.calleesAll es)) (hi : l.Sees p (Expr.inputsAll es) c c')
    (hp : l.linked p) :
    l.Alike p (fun q => List.Forall₂ (l.value q)) (Expr.evaluateAll h c es)
      (Expr.evaluateAll h' c' es) := by
  cases es with
  | nil => exact alike_pure hp .nil
  | cons e rest =>
    simp only [Expr.areSpelled, Expr.allThisNamed, Bool.and_eq_true] at hs ht
    rw [Expr.inputsAll] at hi
    rw [Expr.calleesAll] at hf
    rw [Expr.evaluateAll, Expr.evaluateAll]
    refine alike_bind (evaluate_alike hh e hs.1 ht.1 hf.left hi.left hp) fun q x y hq hxy => ?_
    have hiq := (hi.later hq).right
    refine alike_bind (evaluateAll_alike hh rest hs.2 ht.2 hf.right hiq (l.kept hq)) ?_
    exact fun r xs ys hr hxys => alike_pure (l.kept hr) (.cons (l.mono hr hxy) hxys)

theorem evaluateLast_alike {p : ω × ψ} (hh : l.Hosts may h h') (es : List Expr)
    (hs : Expr.areSpelled es = true) (ht : Expr.allThisNamed es = true)
    (hf : CallsOnly may c (Expr.calleesAll es)) (hi : l.Sees p (Expr.inputsAll es) c c')
    (hp : l.linked p) {x y : Value} (hxy : l.value p x y) :
    l.Alike p l.value (Expr.evaluateLast h c x es) (Expr.evaluateLast h' c' y es) := by
  cases es with
  | nil => exact alike_pure hp hxy
  | cons e rest =>
    simp only [Expr.areSpelled, Expr.allThisNamed, Bool.and_eq_true] at hs ht
    rw [Expr.inputsAll] at hi
    rw [Expr.calleesAll] at hf
    rw [Expr.evaluateLast, Expr.evaluateLast]
    refine alike_bind (evaluate_alike hh e hs.1 ht.1 hf.left hi.left hp) fun q x y hq hxy => ?_
    exact evaluateLast_alike hh rest hs.2 ht.2 hf.right (hi.later hq).right (l.kept hq) hxy

end
end

end Likeness
end Switchboard
