-- The names that an expression is said to read, and the roots of its callees, are all that its
-- evaluation depends on: contexts that agree there give the same result or the same fault, and the
-- same calls of functions on the way.
import Switchboard.Proofs.Likeness
import Switchboard.Proofs.Spelled
namespace Switchboard

/-! ## Evaluations that are the same -/

theorem both_refl {α : Type} (x : Except Fault α) : Both Eq x x := by
  cases x <;> rfl

/-- Two evaluations that go through the same states with the same values. -/
def sameness (ω : Type) : Likeness ω ω where
  later _ q := q.1 = q.2
  linked p := p.1 = p.2
  value _ x y := x = y
  refl h := h
  trans _ h := h
  kept h := h
  mono _ h := h
  scalar _ := rfl
  function _ h := by rw [h]
  truth h := by rw [h]
  key h := by rw [h]
  unary _ h := by
    rw [h]
    exact both_refl _
  binary _ h h' := by
    rw [h, h']
    exact both_refl _
  part _ _ h := by
    rw [h]
    exact both_refl _

variable {ω : Type}

theorem matches_refl {α : Type} {p : ω × ω} {r : ω × ω → α → α → Prop}
    (x : EStateM.Result Fault ω α) (h : ∀ a w, r (w, w) a a) :
    (sameness ω).Matches p r x x := by
  cases x with
  | ok a w => exact ⟨rfl, h a w⟩
  | error f w => exact ⟨rfl, rfl⟩

theorem eq_of_matches {p : ω × ω} {x y : EStateM.Result Fault ω Value}
    (h : (sameness ω).Matches p (sameness ω).value x y) : x = y := by
  cases x with
  | ok a w =>
    cases y with
    | ok b v =>
      have hw : w = v := h.1
      have ha : a = b := h.2
      rw [hw, ha]
    | error g v => exact h.elim
  | error f w =>
    cases y with
    | ok b v => exact h.elim
    | error g v =>
      have hw : w = v := h.2
      rw [hw, h.1]

theorem sameness_hosts (host : Host ω) : (sameness ω).Hosts (fun _ => True) host host where
  fresh {p xs ys} hp hxy := by
    obtain ⟨w, v⟩ := p
    cases hp
    cases List.forall₂_eq_eq_eq ▸ hxy
    exact matches_refl _ fun _ _ => rfl
  call {p f xs ys} _ hp hxy := by
    obtain ⟨w, v⟩ := p
    cases hp
    cases List.forall₂_eq_eq_eq ▸ hxy
    exact matches_refl _ fun _ _ => rfl

/-! ## Names in a context -/

/-- The value of a table under a key, or null. -/
def Dict.valueAt (table : Dict Scalar Value) (key : Scalar) : Value :=
  (table.get? key).getD .null

theorem Dict.valueAt_congr (table : Dict Scalar Value) {a b : Scalar} (h : a == b) :
    table.valueAt a = table.valueAt b := by
  unfold Dict.valueAt
  rw [Dict.get?_congr table h]

/-- What a word takes from a table is the value under it. -/
theorem part_word (identity : Nat) (table : Dict Scalar Value) {s : String}
    (hs : Expr.isWord s = true) :
    (Value.map identity table).part (.text s) = .ok (table.valueAt (.text s)) := by
  have hindex : Value.index? (.text s) = .ok none := by
    unfold Expr.isWord at hs
    split at hs
    · rename_i c rest hc
      have hfirst : Text.isDigit c = false := by simpa using hs
      have hall : s.toList.all Text.isDigit = false := by
        rw [hc, List.all_cons, hfirst, Bool.false_and]
      simp [Value.index?, hall]
    · cases hs
  have hother : Value.otherSpelling? (.text s) = .ok none := by
    unfold Value.otherSpelling?
    rw [hindex]
    rfl
  have hfound : (Value.text s).asKey.toOption.bind (Value.under? table) =
      table.get? (.text s) := rfl
  have hhashable : (Value.text s).isHashable = true := rfl
  unfold Value.part Dict.valueAt
  dsimp only
  rw [if_pos hhashable, hfound]
  cases table.get? (.text s) with
  | some v => rfl
  | none =>
    rw [hother]
    rfl

/-! ## Calls -/

/-- A host that notes the functions it calls, with what they are called on. -/
def Host.recorded (host : Host ω) : Host (ω × List (Function × List Value)) where
  call f args := fun (w, log) =>
    match host.call f args w with
    | .ok v w => .ok v (w, log ++ [(f, args)])
    | .error e w => .error e (w, log ++ [(f, args)])
  fresh := fun (w, log) =>
    match host.fresh w with
    | .ok n w => .ok n (w, log)
    | .error e w => .error e (w, log)

/-- The functions that an evaluation calls, in order. -/
def Expr.calls (host : Host ω) (context : Value) (e : Expr) (w : ω) :
    List (Function × List Value) :=
  match e.evaluate host.recorded context (w, []) with
  | .ok _ s => s.2
  | .error _ s => s.2

/-! ## What an evaluation depends on -/

/-- Contexts that agree under all names that can be read give the same evaluation. -/
theorem evaluate_of_agreement {e : Expr} (hs : e.isSpelled = true) (ht : e.thisNamed = true)
    {i j : Nat} {table table' : Dict Scalar Value}
    (h : ∀ s ∈ e.inputs, table.valueAt (.text s) = table'.valueAt (.text s)) (host : Host ω)
    (w : ω) : e.evaluate host (.map i table) w = e.evaluate host (.map j table') w := by
  have hsees : (sameness ω).Sees (w, w) e.inputs (.map i table) (.map j table') := by
    intro s hm
    have hword := e.inputs_words hs s hm
    rw [part_word i table hword, part_word j table' hword, h s hm]
    exact both_refl _
  exact eq_of_matches (Likeness.evaluate_alike (sameness_hosts host) e hs ht
    (fun _ _ _ _ _ _ => trivial) hsees rfl)

/-- An expression that is read from a text, takes parts of the context only by name and calls
nothing through a computed property depends on the names it is said to read and on the roots of
its callees, and on nothing else. -/
theorem evaluation_depends_on_the_names_it_is_said_to_read {text : String} {e : Expr}
    (hp : Expr.parse text = .ok e) (ht : e.thisNamed = true)
    (hd : ∀ f ∈ e.callees, f.isDotted = true) :
    ∃ names, e.freeVariables = .ok names ∧
      ∀ (i j : Nat) (table table' : Dict Scalar Value),
        (∀ key ∈ names, table.valueAt key = table'.valueAt key) →
        (∀ f ∈ e.callees, ∀ s ∈ f.root, table.valueAt (.text s) = table'.valueAt (.text s)) →
        ∀ {ω : Type} (host : Host ω) (w : ω),
          e.evaluate host (.map i table) w = e.evaluate host (.map j table') w ∧
          e.calls host (.map i table) w = e.calls host (.map j table') w := by
  have hs := Expr.parse_spelled hp
  refine ⟨_, Expr.freeVariables_eq hs, fun i j table table' hnames hroots ω host w => ?_⟩
  have hagree : ∀ s ∈ e.inputs, table.valueAt (.text s) = table'.valueAt (.text s) := by
    intro s hm
    rcases e.inputs_accounted s hm with hm | ⟨f, hf, hm | hm⟩
    · have hkey := Expr.freeVariables_contains hs (Expr.freeVariables_eq hs) hm BEq.rfl
      obtain ⟨key, hm, hkey⟩ := List.contains_iff_exists_mem_beq.mp hkey
      rw [table.valueAt_congr hkey, table'.valueAt_congr hkey, hnames key hm]
    · exact hroots f hf s hm
    · rw [Expr.pathInputs_of_dotted (hd f hf)] at hm
      cases hm
  refine ⟨evaluate_of_agreement hs ht hagree host w, ?_⟩
  unfold Expr.calls
  rw [evaluate_of_agreement hs ht hagree host.recorded (w, [])]

/-- The tree of `a + fns.f(b)`. -/
def sumWithCall : Expr :=
  .binary (.text "+") (.identifier (.text "a"))
    (.call (.member (.identifier (.text "fns")) (.identifier (.text "f")) false)
      [.identifier (.text "b")])

/-- A host whose functions give back what they are called on first, and whose state counts the
identities it has given out. -/
def echo : Host Nat where
  call _ args := pure (args.headD .null)
  fresh := modifyGet fun n => (n, n + 1)

/-- A table with the names of the sum and another one. -/
def fullTable : Dict Scalar Value :=
  [(.text "a", .int 1), (.text "c", .int 3), (.text "b", .int 2),
   (.text "fns", .map 7 [(.text "f", .function (.host "f"))])]

/-- A table with the names of the sum alone, in another order. -/
def bareTable : Dict Scalar Value :=
  [(.text "fns", .map 7 [(.text "f", .function (.host "f"))]), (.text "b", .int 2),
   (.text "a", .int 1)]

/-- A name that does not stand in the sum makes no difference to it. -/
theorem a_sum_depends_on_its_names :
    Expr.parse "a + fns.f(b)" = .ok sumWithCall ∧
      sumWithCall.evaluate echo (.map 0 fullTable) 9 =
        sumWithCall.evaluate echo (.map 1 bareTable) 9 ∧
      sumWithCall.calls echo (.map 0 fullTable) 9 =
        sumWithCall.calls echo (.map 1 bareTable) 9 := by
  have hp : Expr.parse "a + fns.f(b)" = .ok sumWithCall := rfl
  have hd : ∀ f ∈ sumWithCall.callees, f.isDotted = true := by
    intro f hf
    cases List.mem_singleton.mp hf
    rfl
  obtain ⟨names, hn, h⟩ :=
    evaluation_depends_on_the_names_it_is_said_to_read hp rfl hd
  have hnames : sumWithCall.freeVariables = .ok [.text "a", .text "b"] := rfl
  cases hn.symm.trans hnames
  refine ⟨hp, h 0 1 fullTable bareTable (fun key hm => ?_) (fun f hf s hm => ?_) echo 9⟩
  · rcases List.mem_cons.mp hm with rfl | hm
    · rfl
    · cases List.mem_singleton.mp hm
      rfl
  · cases List.mem_singleton.mp hf
    cases List.mem_singleton.mp hm
    rfl

end Switchboard
