-- What an expression can read from its context, told from the tree alone: the names that stand in
-- it, the roots of its callees, and the names in the computed properties of callees. The names it
-- is said to read from the state are the first of these.
import Switchboard.Evaluation
import Switchboard.Expr.Variables
import Switchboard.Proofs.Tables
namespace Switchboard.Expr

/-! ## Trees that a text can spell -/

/-- A text that is no index of a list. -/
def isWord (s : String) : Bool :=
  match s.toList with
  | c :: _ => !Text.isDigit c
  | [] => false

/-- A name that stands for an entry of the context. -/
def isName : Datum → Bool
  | .text s => isWord s && !reserved.contains s
  | _ => false

/-- A property that is given by name. -/
def isPart : Expr → Bool
  | identifier (.text s) => isWord s
  | _ => false

def isConstant : Datum → Bool
  | .scalar _ => true
  | _ => false

mutual

/-- Does a tree have only such names and constants as a text can spell? -/
def isSpelled : Expr → Bool
  | literal value _ => isConstant value
  | identifier name => isName name
  | self => true
  | member object property computed =>
    isSpelled object && if computed then isSpelled property else isPart property
  | unary _ argument _ => isSpelled argument
  | binary _ left right => isSpelled left && isSpelled right
  | logical _ left right => isSpelled left && isSpelled right
  | conditional test consequent alternate =>
    isSpelled test && isSpelled consequent && isSpelled alternate
  | call callee arguments => isSpelled callee && areSpelled arguments
  | array elements => areSpelled elements
  | compound body => areSpelled body

def areSpelled : List Expr → Bool
  | [] => true
  | e :: rest => isSpelled e && areSpelled rest

end

/-! ## Names that are mentioned -/

def spelling : Datum → List String
  | .text s => [s]
  | _ => []

def partName : Expr → List String
  | identifier name => spelling name
  | _ => []

/-- The name that a property takes of the context itself. -/
def taken : Option Expr → Expr → List String
  | some property, self => partName property
  | _, _ => []

mutual

/-- The names that stand in an expression, apart from its callees. -/
def mentions : Expr → List String
  | literal .. => []
  | identifier name => spelling name
  | self => []
  | member object property computed =>
    if computed then mentions object ++ mentions property
    else taken (some property) object ++ mentions object
  | unary _ argument _ => mentions argument
  | binary _ left right => mentions left ++ mentions right
  | logical _ left right => mentions left ++ mentions right
  | conditional test consequent alternate =>
    mentions test ++ mentions consequent ++ mentions alternate
  | call _ arguments => mentionsAll arguments
  | array elements => mentionsAll elements
  | compound body => mentionsAll body

def mentionsAll : List Expr → List String
  | [] => []
  | e :: rest => mentions e ++ mentionsAll rest

end

theorem addName_eq {name : Datum} (h : isName name = true) (found : List Datum) :
    addName name found = .ok (found ++ (spelling name).map Datum.text) := by
  unfold isName at h
  split at h
  · rename_i s
    have hr : s ∉ reserved := by
      rw [Bool.and_eq_true] at h
      simpa using h.2
    simp [addName, hr, spelling]
  · cases h

theorem name?_eq {property : Expr} (h : isPart property = true) :
    ∃ name, property.name? = .ok name ∧ (partName property).map Datum.text = [name] := by
  unfold isPart at h
  split at h
  · exact ⟨_, rfl, rfl⟩
  · cases h

@[simp] theorem taken_none (e : Expr) : taken none e = [] := by
  cases e <;> rfl

theorem no_part : ∀ p ∈ (none : Option Expr), isPart p = true := fun _ h => by cases h

mutual

/-- Gathering adds the names that are mentioned, and goes on. -/
theorem gather_eq (dotted : Option Expr) (hd : ∀ p ∈ dotted, isPart p = true)
    (later : List Datum → Except Fault (List Datum)) (e : Expr) (he : e.isSpelled = true)
    (found : List Datum) :
    gather dotted later e found =
      later (found ++ (taken dotted e ++ e.mentions).map Datum.text) := by
  cases e with
  | literal value raw => simp [gather, taken, mentions]
  | identifier name =>
    simp only [isSpelled] at he
    simp [gather, taken, mentions, addName_eq he, bind, Except.bind]
  | self =>
    cases dotted with
    | none => simp [gather, mentions]
    | some property =>
      obtain ⟨name, hn, hp⟩ := name?_eq (hd property rfl)
      simp [gather, taken, mentions, hn, hp, bind, Except.bind]
  | member object property computed =>
    simp only [isSpelled, Bool.and_eq_true] at he
    cases computed with
    | true =>
      have hp := gather_eq none no_part pure property (by simpa using he.2)
      rw [gather, if_pos rfl, gather_eq none no_part _ object he.1, hp]
      simp [taken, mentions, pure, Except.pure, bind, Except.bind]
    | false =>
      have hp : isPart property = true := by simpa using he.2
      rw [gather, if_neg Bool.false_ne_true,
        gather_eq (some property) (fun p h => by cases h; exact hp) later object he.1]
      simp [taken, mentions]
  | unary operator argument leading =>
    simp only [isSpelled] at he
    rw [gather, gather_eq none no_part later argument he]
    simp [taken, mentions]
  | binary operator left right | logical operator left right =>
    simp only [isSpelled, Bool.and_eq_true] at he
    rw [gather, gather_eq none no_part pure left he.1]
    simp only [pure_bind, gather_eq none no_part pure right he.2]
    simp [taken, mentions]
  | conditional test consequent alternate =>
    simp only [isSpelled, Bool.and_eq_true] at he
    rw [gather, gather_eq none no_part pure test he.1.1]
    simp only [pure_bind, gather_eq none no_part pure consequent he.1.2,
      gather_eq none no_part pure alternate he.2]
    simp [taken, mentions]
  | call callee arguments =>
    simp only [isSpelled, Bool.and_eq_true] at he
    rw [gather, gatherAll_eq arguments he.2]
    simp [taken, mentions, bind, Except.bind]
  | array es | compound es =>
    simp only [isSpelled] at he
    rw [gather, gatherAll_eq es he]
    simp [taken, mentions, bind, Except.bind]

theorem gatherAll_eq (es : List Expr) (he : areSpelled es = true) (found : List Datum) :
    gatherAll es found = .ok (found ++ (mentionsAll es).map Datum.text) := by
  cases es with
  | nil => simp [gatherAll, mentionsAll]
  | cons e rest =>
    simp only [areSpelled, Bool.and_eq_true] at he
    rw [gatherAll, gather_eq none no_part pure e he.1]
    simp only [pure_bind, gatherAll_eq rest he.2]
    simp [mentionsAll]

end

/-- The names an expression is said to read are those it mentions. -/
theorem freeVariables_eq {e : Expr} (he : e.isSpelled = true) :
    e.freeVariables = .ok (distinct (e.mentions.map Scalar.text)) := by
  have hkeys : ∀ names : List String,
      (names.map Datum.text).mapM (fun d => d.toValue.asKey) =
        (.ok (names.map Scalar.text) : Except Fault (List Scalar)) := by
    intro names
    induction names with
    | nil => rfl
    | cons s rest ih =>
      rw [List.map_cons, List.mapM_cons, ih]
      rfl
  unfold freeVariables
  rw [gather_eq none no_part pure e he]
  simp only [pure_bind, taken_none, List.nil_append, hkeys]
  rfl

/-- Every name that stands in an expression is a free variable, in any spelling of the key. -/
theorem freeVariables_contains {e : Expr} (he : e.isSpelled = true) {names : List Scalar}
    (hn : e.freeVariables = .ok names) {s : String} (hs : s ∈ e.mentions) {key : Scalar}
    (hk : (key == .text s) = true) : names.contains key = true := by
  cases (freeVariables_eq he).symm.trans hn
  rw [contains_distinct, List.contains_iff_exists_mem_beq]
  exact ⟨_, List.mem_map_of_mem hs, hk⟩

/-! ## Names that are read

Evaluation follows paths into the context. The first step of a path takes a name from the context;
the later steps take nothing from it, apart from what computed properties read. -/

/-- The name that the path of a chain of members starts with. -/
def root : Expr → List String
  | identifier name => spelling name
  | member object property computed =>
    if computed then root object else taken (some property) object ++ root object
  | _ => []

mutual

/-- The names that evaluation can read. -/
def inputs : Expr → List String
  | literal .. => []
  | identifier name => spelling name
  | self => []
  | member object property computed =>
    (if computed then root object else taken (some property) object ++ root object) ++
      (pathInputs object ++ if computed then inputs property else [])
  | unary _ argument _ => inputs argument
  | binary _ left right => inputs left ++ inputs right
  | logical _ left right => inputs left ++ inputs right
  | conditional test consequent alternate =>
    inputs test ++ inputs consequent ++ inputs alternate
  | call callee arguments => root callee ++ pathInputs callee ++ inputsAll arguments
  | array elements => inputsAll elements
  | compound body => inputsAll body

/-- The names that are read on the way to a path. -/
def pathInputs : Expr → List String
  | member object property computed =>
    pathInputs object ++ if computed then inputs property else []
  | _ => []

def inputsAll : List Expr → List String
  | [] => []
  | e :: rest => inputs e ++ inputsAll rest

end

/-! ## Callees -/

mutual

/-- The callees of all calls in an expression. -/
def callees : Expr → List Expr
  | literal .. | identifier _ | self => []
  | member object property computed =>
    callees object ++ if computed then callees property else []
  | unary _ argument _ => callees argument
  | binary _ left right => callees left ++ callees right
  | logical _ left right => callees left ++ callees right
  | conditional test consequent alternate =>
    callees test ++ callees consequent ++ callees alternate
  | call callee arguments => callee :: (callees callee ++ calleesAll arguments)
  | array elements => calleesAll elements
  | compound body => calleesAll body

def calleesAll : List Expr → List Expr
  | [] => []
  | e :: rest => callees e ++ calleesAll rest

end

/-- Is a chain of members free of computed ones? -/
def isDotted : Expr → Bool
  | member object _ computed => !computed && isDotted object
  | _ => true

theorem pathInputs_of_dotted {e : Expr} (h : e.isDotted = true) : e.pathInputs = [] := by
  induction e using isDotted.induct with
  | case1 object property computed ih =>
    simp only [isDotted, Bool.and_eq_true, Bool.not_eq_true'] at h
    rw [pathInputs, ih h.2, h.1]
    rfl
  | case2 e hm =>
    cases e with
    | member object property computed => exact absurd rfl (hm object property computed)
    | _ => rw [pathInputs]; intro _ _ _ h; cases h

/-- Is a name among those mentioned, or read for one of the callees? -/
def Accounted (s : String) (names : List String) (fs : List Expr) : Prop :=
  s ∈ names ∨ ∃ f ∈ fs, s ∈ f.root ∨ s ∈ f.pathInputs

theorem Accounted.mono {s : String} {names names' : List String} {fs fs' : List Expr}
    (h : Accounted s names fs) (hn : names ⊆ names') (hf : fs ⊆ fs') : Accounted s names' fs' := by
  rcases h with h | ⟨f, hm, h⟩
  · exact .inl (hn h)
  · exact .inr ⟨f, hf hm, h⟩

theorem Accounted.left {s : String} {names : List String} {fs : List Expr}
    (h : Accounted s names fs) (names' : List String) (fs' : List Expr) :
    Accounted s (names ++ names') (fs ++ fs') :=
  h.mono (List.subset_append_left _ _) (List.subset_append_left _ _)

theorem Accounted.right {s : String} {names : List String} {fs : List Expr}
    (h : Accounted s names fs) (names' : List String) (fs' : List Expr) :
    Accounted s (names' ++ names) (fs' ++ fs) :=
  h.mono (List.subset_append_right _ _) (List.subset_append_right _ _)

theorem root_mentioned (e : Expr) : e.root ⊆ e.mentions := by
  induction e using root.induct with
  | case1 name => exact List.Subset.refl _
  | case2 object property ih =>
    simp only [root, mentions, if_pos]
    exact fun _ h => List.mem_append_left _ (ih h)
  | case3 object property computed hc ih =>
    simp only [root, mentions, if_neg hc]
    intro s h
    rcases List.mem_append.mp h with h | h
    · exact List.mem_append_left _ h
    · exact List.mem_append_right _ (ih h)
  | case4 e hi hm =>
    cases e with
    | identifier name => exact absurd rfl (hi name)
    | member object property computed => exact absurd rfl (hm object property computed)
    | _ => exact fun _ h => by cases h

/-- A chain of members reads what its object and its computed property read. -/
theorem member_accounted {object property : Expr} {computed : Bool} {s : String}
    (ho : s ∈ object.pathInputs → Accounted s object.mentions object.callees)
    (hp : s ∈ property.inputs → Accounted s property.mentions property.callees)
    (hs : s ∈ (member object property computed).pathInputs) :
    Accounted s (member object property computed).mentions
      (member object property computed).callees := by
  rw [pathInputs] at hs
  rw [mentions, callees]
  cases computed with
  | true =>
    simp only [if_true] at hs ⊢
    rcases List.mem_append.mp hs with hs | hs
    · exact (ho hs).left _ _
    · exact (hp hs).right _ _
  | false =>
    simp only [Bool.false_eq_true, if_false, List.append_nil] at hs ⊢
    exact (ho hs).mono (List.subset_append_right _ _) (List.Subset.refl _)

mutual

/-- What evaluation can read is mentioned, or belongs to a callee. -/
theorem inputs_accounted (e : Expr) (s : String) (hs : s ∈ e.inputs) :
    Accounted s e.mentions e.callees := by
  cases e with
  | literal value raw => simp [inputs] at hs
  | identifier name => exact .inl hs
  | self => simp [inputs] at hs
  | member object property computed =>
    rw [inputs] at hs
    rcases List.mem_append.mp hs with hs | hs
    · left
      have hroot : s ∈ (member object property computed).root := by rwa [root]
      exact root_mentioned _ hroot
    · exact member_accounted (pathInputs_accounted object s) (inputs_accounted property s)
        (by rwa [pathInputs])
  | unary operator argument leading =>
    rw [inputs] at hs
    rw [mentions, callees]
    exact inputs_accounted argument s hs
  | binary operator left right | logical operator left right =>
    rw [inputs] at hs
    rw [mentions, callees]
    rcases List.mem_append.mp hs with hs | hs
    · exact (inputs_accounted left s hs).left _ _
    · exact (inputs_accounted right s hs).right _ _
  | conditional test consequent alternate =>
    rw [inputs] at hs
    rw [mentions, callees]
    rcases List.mem_append.mp hs with hs | hs
    · rcases List.mem_append.mp hs with hs | hs
      · exact ((inputs_accounted test s hs).left _ _).left _ _
      · exact ((inputs_accounted consequent s hs).right _ _).left _ _
    · exact (inputs_accounted alternate s hs).right _ _
  | call callee arguments =>
    rw [inputs] at hs
    rw [mentions, callees]
    rcases List.mem_append.mp hs with hs | hs
    · exact .inr ⟨callee, List.mem_cons_self, List.mem_append.mp hs⟩
    · exact (inputsAll_accounted arguments s hs).mono (List.Subset.refl _)
        (fun _ h => List.mem_cons_of_mem _ (List.mem_append_right _ h))
  | array es | compound es =>
    rw [inputs] at hs
    rw [mentions, callees]
    exact inputsAll_accounted es s hs

theorem pathInputs_accounted (e : Expr) (s : String) (hs : s ∈ e.pathInputs) :
    Accounted s e.mentions e.callees := by
  cases e with
  | member object property computed =>
    exact member_accounted (pathInputs_accounted object s) (inputs_accounted property s) hs
  | _ => simp [pathInputs] at hs

theorem inputsAll_accounted (es : List Expr) (s : String) (hs : s ∈ inputsAll es) :
    Accounted s (mentionsAll es) (calleesAll es) := by
  cases es with
  | nil => simp [inputsAll] at hs
  | cons e rest =>
    rw [inputsAll] at hs
    rw [mentionsAll, calleesAll]
    rcases List.mem_append.mp hs with hs | hs
    · exact (inputs_accounted e s hs).left _ _
    · exact (inputsAll_accounted rest s hs).right _ _

end

/-! ## What is read is a word -/

theorem root_words {e : Expr} (he : e.isSpelled = true) {s : String} (hs : s ∈ e.root) :
    isWord s = true := by
  have hpart : ∀ {property object : Expr}, isPart property = true →
      s ∈ taken (some property) object → isWord s = true := by
    intro property object hp hs
    unfold isPart at hp
    split at hp
    · cases object with
      | self =>
        cases List.mem_singleton.mp hs
        exact hp
      | _ => cases hs
    · cases hp
  induction e using root.induct with
  | case1 name =>
    simp only [isSpelled] at he
    unfold isName at he
    split at he
    · cases List.mem_singleton.mp hs
      exact (Bool.and_eq_true _ _ ▸ he).1
    · cases he
  | case2 object property ih =>
    simp only [isSpelled, Bool.and_eq_true] at he
    exact ih he.1 (by simpa [root] using hs)
  | case3 object property computed hc ih =>
    simp only [isSpelled, Bool.and_eq_true, if_neg hc] at he
    simp only [root, if_neg hc] at hs
    rcases List.mem_append.mp hs with hs | hs
    · exact hpart he.2 hs
    · exact ih he.1 hs
  | case4 e hi hm =>
    cases e with
    | identifier name => exact absurd rfl (hi name)
    | member object property computed => exact absurd rfl (hm object property computed)
    | _ => cases hs

theorem member_words {object property : Expr} {computed : Bool} {s : String}
    (he : (member object property computed).isSpelled = true)
    (ho : object.isSpelled = true → s ∈ object.pathInputs → isWord s = true)
    (hp : property.isSpelled = true → s ∈ property.inputs → isWord s = true)
    (hs : s ∈ (member object property computed).pathInputs) : isWord s = true := by
  rw [pathInputs] at hs
  simp only [isSpelled, Bool.and_eq_true] at he
  rcases List.mem_append.mp hs with hs | hs
  · exact ho he.1 hs
  · cases computed with
    | true => exact hp (by simpa using he.2) (by simpa using hs)
    | false => cases hs

mutual

theorem inputs_words (e : Expr) (he : e.isSpelled = true) (s : String) (hs : s ∈ e.inputs) :
    isWord s = true := by
  cases e with
  | literal value raw => simp [inputs] at hs
  | identifier name => exact root_words he hs
  | self => simp [inputs] at hs
  | member object property computed =>
    rw [inputs] at hs
    rcases List.mem_append.mp hs with hs | hs
    · exact root_words he (by rwa [root])
    · exact member_words he (fun h => pathInputs_words object h s)
        (fun h => inputs_words property h s) (by rwa [pathInputs])
  | unary operator argument leading =>
    rw [inputs] at hs
    exact inputs_words argument he s hs
  | binary operator left right | logical operator left right =>
    simp only [isSpelled, Bool.and_eq_true] at he
    rw [inputs] at hs
    rcases List.mem_append.mp hs with hs | hs
    · exact inputs_words left he.1 s hs
    · exact inputs_words right he.2 s hs
  | conditional test consequent alternate =>
    simp only [isSpelled, Bool.and_eq_true] at he
    rw [inputs] at hs
    rcases List.mem_append.mp hs with hs | hs
    · rcases List.mem_append.mp hs with hs | hs
      · exact inputs_words test he.1.1 s hs
      · exact inputs_words consequent he.1.2 s hs
    · exact inputs_words alternate he.2 s hs
  | call callee arguments =>
    simp only [isSpelled, Bool.and_eq_true] at he
    rw [inputs] at hs
    rcases List.mem_append.mp hs with hs | hs
    · rcases List.mem_append.mp hs with hs | hs
      · exact root_words he.1 hs
      · exact pathInputs_words callee he.1 s hs
    · exact inputsAll_words arguments he.2 s hs
  | array es | compound es =>
    rw [inputs] at hs
    exact inputsAll_words es he s hs

theorem pathInputs_words (e : Expr) (he : e.isSpelled = true) (s : String)
    (hs : s ∈ e.pathInputs) : isWord s = true := by
  cases e with
  | member object property computed =>
    exact member_words he (fun h => pathInputs_words object h s)
      (fun h => inputs_words property h s) hs
  | _ => simp [pathInputs] at hs

theorem inputsAll_words (es : List Expr) (he : areSpelled es = true) (s : String)
    (hs : s ∈ inputsAll es) : isWord s = true := by
  cases es with
  | nil => simp [inputsAll] at hs
  | cons e rest =>
    simp only [areSpelled, Bool.and_eq_true] at he
    rw [inputsAll] at hs
    rcases List.mem_append.mp hs with hs | hs
    · exact inputs_words e he.1 s hs
    · exact inputsAll_words rest he.2 s hs

end

/-! ## The context itself -/

def isSelf : Expr → Bool
  | self => true
  | _ => false

mutual

/-- Does the context as a whole stand only where a part is taken of it by name? -/
def thisNamed : Expr → Bool
  | literal .. | identifier _ => true
  | self => false
  | member object property computed =>
    if computed then thisNamed object && thisNamed property else isSelf object || thisNamed object
  | unary _ argument _ => thisNamed argument
  | binary _ left right => thisNamed left && thisNamed right
  | logical _ left right => thisNamed left && thisNamed right
  | conditional test consequent alternate =>
    thisNamed test && thisNamed consequent && thisNamed alternate
  | call callee arguments => thisNamed callee && allThisNamed arguments
  | array elements => allThisNamed elements
  | compound body => allThisNamed body

def allThisNamed : List Expr → Bool
  | [] => true
  | e :: rest => thisNamed e && allThisNamed rest

end

/-- The object of a member is `this` at most where a part is taken of it. -/
theorem thisNamed_object {object property : Expr} {computed : Bool}
    (h : (member object property computed).thisNamed = true) :
    object.isSelf = true ∨ object.thisNamed = true := by
  cases computed with
  | true => exact .inr (Bool.and_eq_true_iff.mp h).1
  | false => exact Bool.or_eq_true_iff.mp h

theorem thisNamed_property {object property : Expr}
    (h : (member object property true).thisNamed = true) : property.thisNamed = true :=
  (Bool.and_eq_true_iff.mp h).2

/-! ## Callees -/

mutual

/-- The callees of an expression are spelled and named as it is itself. -/
theorem callees_named (e : Expr) (hs : e.isSpelled = true)
    (ht : e.isSelf = true ∨ e.thisNamed = true) (f : Expr) (hf : f ∈ e.callees) :
    f.isSpelled = true ∧ f.thisNamed = true := by
  cases e with
  | literal value raw | identifier name | self => cases hf
  | member object property computed =>
    obtain ⟨hobject, hproperty⟩ := Bool.and_eq_true_iff.mp hs
    have hnamed := ht.resolve_left Bool.false_ne_true
    rw [callees] at hf
    rcases List.mem_append.mp hf with hf | hf
    · exact callees_named object hobject (thisNamed_object hnamed) f hf
    · cases computed with
      | true => exact callees_named property hproperty (.inr (thisNamed_property hnamed)) f hf
      | false => cases hf
  | unary operator argument leading =>
    exact callees_named argument hs (.inr (ht.resolve_left Bool.false_ne_true)) f hf
  | binary operator left right | logical operator left right =>
    simp only [isSpelled, Bool.and_eq_true, isSelf, thisNamed, Bool.false_eq_true, false_or]
      at hs ht
    rw [callees] at hf
    rcases List.mem_append.mp hf with hf | hf
    · exact callees_named left hs.1 (.inr ht.1) f hf
    · exact callees_named right hs.2 (.inr ht.2) f hf
  | conditional test consequent alternate =>
    simp only [isSpelled, Bool.and_eq_true, isSelf, thisNamed, Bool.false_eq_true, false_or]
      at hs ht
    rw [callees] at hf
    rcases List.mem_append.mp hf with hf | hf
    · rcases List.mem_append.mp hf with hf | hf
      · exact callees_named test hs.1.1 (.inr ht.1.1) f hf
      · exact callees_named consequent hs.1.2 (.inr ht.1.2) f hf
    · exact callees_named alternate hs.2 (.inr ht.2) f hf
  | call callee arguments =>
    simp only [isSpelled, Bool.and_eq_true, isSelf, thisNamed, Bool.false_eq_true, false_or]
      at hs ht
    rw [callees] at hf
    rcases List.mem_cons.mp hf with rfl | hf
    · exact ⟨hs.1, ht.1⟩
    · rcases List.mem_append.mp hf with hf | hf
      · exact callees_named callee hs.1 (.inr ht.1) f hf
      · exact calleesAll_named arguments hs.2 ht.2 f hf
  | array es | compound es =>
    exact calleesAll_named es hs (ht.resolve_left Bool.false_ne_true) f hf

theorem calleesAll_named (es : List Expr) (hs : areSpelled es = true)
    (ht : allThisNamed es = true) (f : Expr) (hf : f ∈ calleesAll es) :
    f.isSpelled = true ∧ f.thisNamed = true := by
  cases es with
  | nil => cases hf
  | cons e rest =>
    simp only [areSpelled, allThisNamed, Bool.and_eq_true] at hs ht
    rw [calleesAll] at hf
    rcases List.mem_append.mp hf with hf | hf
    · exact callees_named e hs.1 (.inr ht.1) f hf
    · exact calleesAll_named rest hs.2 ht.2 f hf

end

/-! ## Paths -/

/-- Can a chain of members describe this path? A computed property can be any key. -/
def admits : Expr → List Value → Prop
  | identifier name, path => path = [name.toValue]
  | self, path => path = []
  | member object property computed, path =>
    ∃ front key, path = front ++ [key] ∧ admits object front ∧
      (computed = false → nameKey property = .ok key)
  | _, _ => False

theorem nameKey_part {property : Expr} {key : Value} (h : isPart property = true)
    (hk : nameKey property = .ok key) : ∃ s ∈ partName property, key = .text s := by
  unfold isPart at h
  split at h
  · rename_i s
    cases hk
    exact ⟨s, List.mem_singleton.mpr rfl, rfl⟩
  · cases h

/-- A path starts with the root of the chain. Only that of the context itself is empty. -/
theorem admits_root {e : Expr} {path : List Value} (hs : e.isSpelled = true)
    (ht : e.isSelf = true ∨ e.thisNamed = true) (h : e.admits path) :
    (e = self ∧ path = []) ∨ ∃ s ∈ e.root, ∃ rest, path = .text s :: rest := by
  induction e using root.induct generalizing path with
  | case1 name =>
    simp only [isSpelled] at hs
    unfold isName at hs
    split at hs
    · rename_i s
      exact .inr ⟨s, List.mem_singleton.mpr rfl, [], h⟩
    · cases hs
  | case2 object property ih =>
    obtain ⟨front, key, rfl, hf, -⟩ := h
    simp only [isSpelled, Bool.and_eq_true] at hs
    simp only [isSelf, thisNamed, if_true, Bool.and_eq_true, Bool.false_eq_true, false_or] at ht
    rcases ih hs.1 (.inr ht.1) hf with ⟨rfl, -⟩ | ⟨s, hr, rest, rfl⟩
    · cases ht.1
    · exact .inr ⟨s, by simpa [root] using hr, rest ++ [key], rfl⟩
  | case3 object property computed hc ih =>
    obtain ⟨front, key, rfl, hf, hk⟩ := h
    simp only [isSpelled, Bool.and_eq_true, if_neg hc] at hs
    simp only [isSelf, thisNamed, if_neg hc, Bool.or_eq_true, Bool.false_eq_true, false_or] at ht
    simp only [root, if_neg hc]
    rcases ih hs.1 ht hf with ⟨rfl, rfl⟩ | ⟨s, hr, rest, rfl⟩
    · obtain ⟨s, hp, rfl⟩ := nameKey_part hs.2 (hk (Bool.eq_false_iff.mpr hc))
      exact .inr ⟨s, List.mem_append_left _ hp, [], rfl⟩
    · exact .inr ⟨s, List.mem_append_right _ hr, rest ++ [key], rfl⟩
  | case4 e hi hm =>
    cases e with
    | self => exact .inl ⟨rfl, h⟩
    | identifier name => exact absurd rfl (hi name)
    | member object property computed => exact absurd rfl (hm object property computed)
    | _ => cases h

end Switchboard.Expr
