-- The order in which an expression is said to read its names: that of their first use in its tree.
-- The walk that gathers them passes a chain of members from its last link to its root and puts off
-- the keys it meets. What it comes to is told by the tree alone, member by member: the root of a
-- chain first, and then its keys as they stand.
import Switchboard.Proofs.Spelled
namespace Switchboard

/-! ## The order of first uses -/

section

variable {κ : Type} [BEq κ] {names uses : List κ}

/-- Are these the members of a list, each once, in the order in which they first come in it? -/
structure FirstUses (names uses : List κ) : Prop where
  ordered : names.Pairwise fun a b => uses.idxOf a < uses.idxOf b
  covers : ∀ a, a ∈ names ↔ a ∈ uses

theorem FirstUses.nodup (h : FirstUses names uses) : names.Nodup := by
  refine List.nodup_iff_pairwise_ne.mpr (h.ordered.imp ?_)
  intro a b hlt heq
  rw [heq] at hlt
  omega

/-- There is only one such order. -/
theorem FirstUses.unique {order : List κ} (h : FirstUses names uses) (h' : FirstUses order uses) :
    order = names := by
  have hmem : ∀ a, a ∈ order ↔ a ∈ names := fun a => (h'.covers a).trans (h.covers a).symm
  have hperm : order.Perm names := (List.perm_ext_iff_of_nodup h'.nodup h.nodup).mpr hmem
  refine hperm.eq_of_pairwise ?_ h'.ordered h.ordered
  intro a b _ _ hab hba
  omega

variable [LawfulBEq κ]

/-- One more use leaves the earlier ones where they are. -/
theorem FirstUses.ordered_append (h : FirstUses names uses) (key : κ) :
    names.Pairwise fun a b => (uses ++ [key]).idxOf a < (uses ++ [key]).idxOf b := by
  refine h.ordered.imp_of_mem ?_
  intro a b ha hb hlt
  rwa [List.idxOf_append, if_pos ((h.covers a).mp ha), List.idxOf_append,
    if_pos ((h.covers b).mp hb)]

theorem FirstUses.repeated (h : FirstUses names uses) {key : κ} (hkey : key ∈ uses) :
    FirstUses names (uses ++ [key]) := by
  refine ⟨h.ordered_append key, fun a => ?_⟩
  rw [h.covers, List.mem_append, List.mem_singleton]
  constructor
  · exact .inl
  · rintro (ha | rfl)
    · exact ha
    · exact hkey

theorem FirstUses.fresh (h : FirstUses names uses) {key : κ} (hkey : key ∉ uses) :
    FirstUses (names ++ [key]) (uses ++ [key]) := by
  have hlast : (uses ++ [key]).idxOf key = uses.length := by simp [List.idxOf_append, hkey]
  refine ⟨List.pairwise_append.mpr ⟨h.ordered_append key, List.pairwise_singleton _ _, ?_⟩, ?_⟩
  · intro a ha b hb
    rw [List.mem_singleton.mp hb, hlast, List.idxOf_append, if_pos ((h.covers a).mp ha)]
    exact List.idxOf_lt_length_of_mem ((h.covers a).mp ha)
  · intro a
    rw [List.mem_append, List.mem_append, h.covers a]

theorem FirstUses.addKey (h : FirstUses names uses) (key : κ) :
    FirstUses (addKey names key) (uses ++ [key]) := by
  unfold Switchboard.addKey
  split
  · rename_i hseen
    exact h.repeated ((h.covers key).mp (List.contains_iff_mem.mp hseen))
  · rename_i hnew
    exact h.fresh fun hu => hnew (List.contains_iff_mem.mpr ((h.covers key).mpr hu))

theorem FirstUses.foldl_addKey (h : FirstUses names uses) (keys : List κ) :
    FirstUses (keys.foldl Switchboard.addKey names) (uses ++ keys) := by
  induction keys generalizing names uses with
  | nil => rwa [List.append_nil]
  | cons key rest ih =>
    have hrest := ih (h.addKey key)
    rwa [List.append_assoc] at hrest

/-- The members of a list without the repetitions are in the order of their first uses. -/
theorem firstUses_distinct (uses : List κ) : FirstUses (distinct uses) uses := by
  have hnone : FirstUses ([] : List κ) [] := ⟨.nil, fun _ => Iff.rfl⟩
  exact hnone.foldl_addKey uses

end

section

variable {κ μ : Type} [BEq κ] [BEq μ] {f : κ → μ} (hf : ∀ a b, (f a == f b) = (a == b))

include hf

theorem addKey_map (seen : List κ) (key : κ) :
    addKey (seen.map f) (f key) = (addKey seen key).map f := by
  have hseen : (seen.map f).contains (f key) = seen.contains key := by
    induction seen with
    | nil => rfl
    | cons a rest ih => rw [List.map_cons, List.contains_cons, List.contains_cons, hf, ih]
  unfold addKey
  rw [hseen]
  split
  · rfl
  · rw [List.map_append, List.map_singleton]

/-- To leave out repetitions of keys is to leave out those of what the keys stand for. -/
theorem distinct_map (keys : List κ) : distinct (keys.map f) = (distinct keys).map f := by
  have hfold : ∀ seen, (keys.map f).foldl addKey (seen.map f) = (keys.foldl addKey seen).map f := by
    induction keys with
    | nil => exact fun _ => rfl
    | cons key rest ih =>
      intro seen
      rw [List.map_cons, List.foldl_cons, List.foldl_cons, addKey_map hf, ih]
  exact hfold []

end

theorem Scalar.text_beq_text (s t : String) : (Scalar.text s == Scalar.text t) = (s == t) := by
  rw [Bool.eq_iff_iff, Scalar.beq_iff, beq_iff_eq]
  exact ⟨Scalar.text.inj, congrArg Scalar.text⟩

namespace Expr

/-! ## Chains of members -/

/-- What a chain of members takes of the object before: a part by its name, or under a key. -/
inductive Link
  | named (name : String)
  | keyed (key : Expr)

namespace Link

/-- The member that a link takes of an object. -/
def of (object : Expr) : Link → Expr
  | named name => member object (identifier (.text name)) false
  | keyed key => member object key true

/-- The names in the key of a link. -/
def mentions : Link → List String
  | named _ => []
  | keyed key => key.mentions

/-- Add the names that the key of a link reads. -/
def gathered (found : List Datum) : Link → Except Fault (List Datum)
  | named _ => .ok found
  | keyed key => gather none pure key found

end Link

/-- The chain of members that takes one link after the other, from a root on. -/
def chain (root : Expr) (links : List Link) : Expr := links.foldl Link.of root

/-- The part that a chain takes of its root, if it takes it by name. -/
def firstPart : List Link → Option Expr
  | .named name :: _ => some (identifier (.text name))
  | _ => none

theorem firstPart_cons (link : Link) (links : List Link) :
    firstPart (link :: links) = firstPart [link] := by
  cases link <;> rfl

theorem taken_of (part : Option Expr) (object : Expr) (link : Link) :
    taken part (link.of object) = [] := by
  cases part <;> cases link <;> rfl

theorem mentions_of (object : Expr) (link : Link) :
    (link.of object).mentions =
      taken (firstPart [link]) object ++ object.mentions ++ link.mentions := by
  cases link with
  | named name =>
    rw [Link.of, mentions, if_neg Bool.false_ne_true, Link.mentions, List.append_nil]
    rfl
  | keyed key =>
    rw [Link.of, mentions, if_pos rfl]
    rfl

/-- A chain mentions its root first, and then what its keys mention, in their order. -/
theorem mentions_chain (root : Expr) (links : List Link) :
    (chain root links).mentions =
      taken (firstPart links) root ++ root.mentions ++ links.flatMap Link.mentions := by
  induction links generalizing root with
  | nil => simp [chain, firstPart]
  | cons link rest ih =>
    calc (chain (link.of root) rest).mentions
      _ = (link.of root).mentions ++ rest.flatMap Link.mentions := by
        -- of a member, as the later links have it for their object, no name is taken
        rw [ih, taken_of, List.nil_append]
      _ = _ := by
        rw [mentions_of, firstPart_cons link rest, List.flatMap_cons, List.append_assoc]

/-! ## The walk along a chain -/

/-- What the walk puts off is done when it has come back from all that lies below. -/
theorem gather_later (dotted : Option Expr) (later : List Datum → Except Fault (List Datum))
    (e : Expr) (found : List Datum) :
    gather dotted later e found = gather dotted pure e found >>= later := by
  cases e with
  | literal value raw => rfl
  | identifier name => simp only [gather, bind_assoc, pure_bind]
  | self =>
    cases dotted with
    | none => rfl
    | some property => simp only [gather, bind_assoc, pure_bind]
  | member object property computed =>
    cases computed with
    | true =>
      have hkey := gather_later none (fun found => gather none pure property found >>= pure) object
      rw [gather, gather, if_pos rfl, if_pos rfl, gather_later none _ object, hkey]
      simp only [bind_assoc, pure_bind]
    | false =>
      rw [gather, gather, if_neg Bool.false_ne_true, if_neg Bool.false_ne_true,
        gather_later (some property) later object]
  | unary operator argument leading => rw [gather, gather, gather_later none later argument]
  | binary operator left right | logical operator left right =>
    simp only [gather, bind_assoc, pure_bind]
  | conditional test consequent alternate => simp only [gather, bind_assoc, pure_bind]
  | call callee es | array es | compound es => simp only [gather, bind_assoc, pure_bind]

/-- Past one link the walk goes on to the object, and then back to the key of the link. -/
theorem gather_of (dotted : Option Expr) (object : Expr) (link : Link) (found : List Datum) :
    gather dotted pure (link.of object) found = (do
      let found ← gather (firstPart [link]) pure object found
      Link.gathered found link) := by
  cases link with
  | named name =>
    rw [Link.of, gather, if_neg Bool.false_ne_true]
    exact (bind_pure _).symm
  | keyed key =>
    rw [Link.of, gather, if_pos rfl, gather_later]
    simp only [bind_pure]
    rfl

/-- The walk along a chain comes to the root first, and then to the keys, in their order. -/
theorem gather_chain (root : Expr) (links : List Link) (found : List Datum) :
    gather none pure (chain root links) found = (do
      let found ← gather (firstPart links) pure root found
      links.foldlM Link.gathered found) := by
  induction links generalizing root with
  | nil => exact (bind_pure _).symm
  | cons link rest ih =>
    calc gather none pure (chain (link.of root) rest) found
      _ = (do
          let found ← gather (firstPart rest) pure (link.of root) found
          rest.foldlM Link.gathered found) := ih _
      _ = (do
          let found ← gather (firstPart [link]) pure root found
          let found ← Link.gathered found link
          rest.foldlM Link.gathered found) := by
        rw [gather_of, bind_assoc]
      _ = _ := by
        rw [firstPart_cons link rest]
        simp only [List.foldlM_cons]

/-! ## The names of an expression -/

/-- The walk along an expression that is read from a text finds the names that its tree mentions,
in the same order. The names it is said to read are these, each once and in the order of their
first use. For a chain of members, however long, the walk comes to the root first and then to the
keys as they stand; so the names of the root come first, or the part that is taken of the context
by name, and then the names in the keys. -/
theorem names_are_in_the_order_of_their_first_use {text : String} {e : Expr}
    (hp : parse text = .ok e) :
    (∀ found, gather none pure e found = .ok (found ++ e.mentions.map Datum.text)) ∧
    ∃ names : List String, e.freeVariables = .ok (names.map Scalar.text) ∧ names.Nodup ∧
      (∀ order, FirstUses order e.mentions ↔ order = names) ∧
      ∀ root links, e = chain root links →
        (∀ found, gather none pure e found = (do
          let found ← gather (firstPart links) pure root found
          links.foldlM Link.gathered found)) ∧
        FirstUses names
          (taken (firstPart links) root ++ root.mentions ++ links.flatMap Link.mentions) := by
  have hs := parse_spelled hp
  have huses := firstUses_distinct e.mentions
  refine ⟨fun found => ?_, distinct e.mentions, ?_, huses.nodup, fun order => ?_, ?_⟩
  · rw [gather_eq none no_part pure e hs, taken_none, List.nil_append]
    rfl
  · rw [freeVariables_eq hs, distinct_map Scalar.text_beq_text]
  · exact ⟨huses.unique, fun heq => heq ▸ huses⟩
  · intro root links hchain
    refine ⟨fun found => hchain ▸ gather_chain root links found, ?_⟩
    rw [← mentions_chain, ← hchain]
    exact huses

/-- The links of `this.x[a[b].c].y[x + d]`. -/
def linksOfContext : List Link :=
  [.named "x",
    .keyed (.member (.member (.identifier (.text "a")) (.identifier (.text "b")) true)
      (.identifier (.text "c")) false),
    .named "y",
    .keyed (.binary (.text "+") (.identifier (.text "x")) (.identifier (.text "d")))]

/-- A chain of the context has a chain in one key and, in the other, the name of its first part. -/
theorem a_chain_with_a_chain_in_a_key :
    parse "this.x[a[b].c].y[x + d]" = .ok (chain self linksOfContext) ∧
      (chain self linksOfContext).freeVariables =
        .ok [.text "x", .text "a", .text "b", .text "d"] ∧
      FirstUses ["x", "a", "b", "d"] ["x", "a", "b", "x", "d"] := by
  have hp : parse "this.x[a[b].c].y[x + d]" = .ok (chain self linksOfContext) := rfl
  have hread : (chain self linksOfContext).freeVariables =
      .ok [.text "x", .text "a", .text "b", .text "d"] := rfl
  obtain ⟨-, names, hnames, -, -, hchain⟩ := names_are_in_the_order_of_their_first_use hp
  have hlist : ["x", "a", "b", "d"].map Scalar.text = names.map Scalar.text :=
    Except.ok.inj (hread.symm.trans hnames)
  cases (List.map_inj_right fun _ _ => Scalar.text.inj).mp hlist
  exact ⟨hp, hread, (hchain self linksOfContext rfl).2⟩

end Expr
end Switchboard
