-- Trees as interchange data and back. Reading takes the parts of data, which are smaller, so that
-- the bound on the depth is never in the way; and it takes the fields that writing gives, so that a
-- tree comes back as it was.
import Switchboard.Expr.Interchange
import Switchboard.Proofs.Extent
import Switchboard.Proofs.Tables
namespace Switchboard.Expr

/-! ## The parts of data are smaller -/

theorem field_size {d v : Datum} {name : String} (h : field d name = .ok v) : v.size < d.size := by
  unfold field at h
  split at h
  · rename_i v' hv
    cases h
    unfold Datum.field? at hv
    split at hv
    · obtain ⟨e, he, rfl⟩ := List.mem_map.mp (Dict.mem_values_of_get? hv)
      have hle := Datum.size_le_of_mem_entries he
      simp only [Datum.size]
      omega
    · cases hv
  · cases h

/-- A key, which is read as a text, is followed by something. -/
theorem several_size {v d : Datum} {items : List Datum} (h : several v = .ok items)
    (hd : d ∈ items) : d.size ≤ v.size := by
  unfold several at h
  split at h
  · cases h
    have hle := Datum.size_le_of_mem hd
    simp only [Datum.size]
    omega
  · cases h
    obtain ⟨e, he, rfl⟩ := List.mem_map.mp hd
    have hle := Datum.size_le_of_mem_entries he
    have hpos := Datum.size_pos e.2
    simp only [Datum.size]
    omega
  · rename_i s
    cases h
    obtain ⟨c, hc, rfl⟩ := List.mem_map.mp hd
    have hle := List.length_pos_of_mem hc
    rw [String.length_toList] at hle
    simp only [Datum.size, String.length_singleton]
    omega
  · cases h

theorem nodeData_size {given d : Datum} (h : nodeData given = .ok d) : d.size ≤ given.size := by
  unfold nodeData at h
  split at h
  · have hle := Datum.ofText_size h
    simp only [Datum.size]
    omega
  · cases h
    omega

/-! ## The bound -/

theorem bind_congr_ok {α β : Type} {x : Except Fault α} {f g : α → Except Fault β}
    (h : ∀ a, x = .ok a → f a = g a) : x >>= f = x >>= g := by
  cases x with
  | error f => rfl
  | ok a => exact h a rfl

theorem mapM_congr {α β : Type} {f g : α → Except Fault β} {items : List α}
    (h : ∀ a ∈ items, f a = g a) : items.mapM f = items.mapM g := by
  induction items with
  | nil => rfl
  | cons a rest ih =>
    simp only [List.mapM_cons]
    rw [h a List.mem_cons_self, ih fun b hb => h b (List.mem_cons_of_mem a hb)]

/-- A node is built in the same way if its parts are. -/
theorem build_congr {n m : Nat} {given : Datum}
    (h : ∀ d : Datum, d.size < given.size → build n d = build m d) :
    build (n + 1) given = build (m + 1) given := by
  unfold build
  refine bind_congr_ok fun d hd => ?_
  have hsize := nodeData_size hd
  have hpart : ∀ name (next : Expr → Except Fault Expr),
      (field d name >>= fun v => build n v >>= next) =
        (field d name >>= fun v => build m v >>= next) := by
    intro name next
    refine bind_congr_ok fun v hv => ?_
    have hlt := field_size hv
    rw [h v (by omega)]
  have hparts : ∀ name (next : List Expr → Except Fault Expr),
      (field d name >>= fun v => several v >>= fun items => items.mapM (build n) >>= next) =
        (field d name >>= fun v => several v >>= fun items => items.mapM (build m) >>= next) := by
    intro name next
    refine bind_congr_ok fun v hv => bind_congr_ok fun items hitems => ?_
    have hlt := field_size hv
    have hsame : items.mapM (build n) = items.mapM (build m) := by
      refine mapM_congr fun x hx => ?_
      have hle := several_size hitems hx
      exact h x (by omega)
    rw [hsame]
  simp only [hpart, hparts]

/-- The bound is never in the way: no tree is deeper than its data are large. -/
theorem build_of_bound {n m : Nat} {d : Datum} (hn : d.size < n) (hm : d.size < m) :
    build n d = build m d := by
  induction n generalizing m d with
  | zero => cases hn
  | succ n ih =>
    cases m with
    | zero => cases hm
    | succ m => exact build_congr fun e he => ih (by omega) (by omega)

/-! ## There and back -/

theorem toDataWith_eq_map (es : List Expr) : toDataWith id es = es.map toDatum := by
  induction es with
  | nil => simp [toDataWith]
  | cons e rest ih => simp [toDataWith, ih, toDatum]

theorem mapM_build {n : Nat} {es : List Expr} (h : ∀ e ∈ es, build n e.toDatum = .ok e) :
    (es.map toDatum).mapM (build n) = .ok es := by
  induction es with
  | nil => rfl
  | cons e rest ih =>
    rw [List.map_cons, List.mapM_cons, h e List.mem_cons_self,
      ih fun e' he => h e' (List.mem_cons_of_mem e he)]
    rfl

/-- Do trees whose data are below a bound come back as they were? -/
def Restores (n : Nat) : Prop := ∀ {t : Expr}, t.toDatum.size < n → build n t.toDatum = .ok t

theorem Restores.part {n : Nat} {t : Expr} (hn : Restores n) (h : t.toDatum.size < n + 1)
    (name : String) {e : Expr} (hf : field t.toDatum name = .ok e.toDatum) :
    build n e.toDatum = .ok e := by
  have hlt := field_size hf
  exact hn (by omega)

theorem Restores.parts {n : Nat} {t : Expr} (hn : Restores n) (h : t.toDatum.size < n + 1)
    (name : String) {es : List Expr}
    (hf : field t.toDatum name = .ok (.list (toDataWith id es))) :
    (toDataWith id es).mapM (build n) = .ok es := by
  have hlt := field_size hf
  rw [toDataWith_eq_map] at hlt ⊢
  refine mapM_build fun e he => hn ?_
  have hle := Datum.size_le_of_mem (List.mem_map_of_mem (f := toDatum) he)
  simp only [Datum.size] at hlt
  omega

/-- By induction on the bound, with one case per kind of node. -/
theorem restores (n : Nat) : Restores n := by
  induction n with
  | zero => exact fun h => absurd h (Nat.not_lt_zero _)
  | succ n ih =>
    intro t h
    have hpart := @ih.part n t h
    have hparts := @ih.parts n t h
    cases t with
    | literal value raw =>
      -- Whether a literal is written with its spelling depends on what its spelling is.
      rcases raw with (_ | _ | _ | _ | _) | _ | _ <;> rfl
    | identifier name => rfl
    | self => rfl
    | member object property computed =>
      have ho := hpart "object" rfl
      have hp := hpart "property" rfl
      change (build n object.toDatum >>= fun o => build n property.toDatum >>= fun p =>
        .ok (member o p computed)) = _
      rw [ho, hp]
      rfl
    | unary operator argument leading =>
      have ha := hpart "argument" rfl
      change (build n argument.toDatum >>= fun a => .ok (unary operator a leading)) = _
      rw [ha]
      rfl
    | binary operator left right =>
      have hl := hpart "left" rfl
      have hr := hpart "right" rfl
      change (build n left.toDatum >>= fun l => build n right.toDatum >>= fun r =>
        .ok (binary operator l r)) = _
      rw [hl, hr]
      rfl
    | logical operator left right =>
      have hl := hpart "left" rfl
      have hr := hpart "right" rfl
      change (build n left.toDatum >>= fun l => build n right.toDatum >>= fun r =>
        .ok (logical operator l r)) = _
      rw [hl, hr]
      rfl
    | conditional test consequent alternate =>
      have ht := hpart "test" rfl
      have hc := hpart "consequent" rfl
      have ha := hpart "alternate" rfl
      change (build n test.toDatum >>= fun t => build n consequent.toDatum >>= fun c =>
        build n alternate.toDatum >>= fun a => .ok (conditional t c a)) = _
      rw [ht, hc, ha]
      rfl
    | call callee arguments =>
      have hc := hpart "callee" rfl
      have ha := hparts "arguments" rfl
      change (build n callee.toDatum >>= fun c =>
        (toDataWith id arguments).mapM (build n) >>= fun es => .ok (call c es)) = _
      rw [hc, ha]
      rfl
    | array elements =>
      have he := hparts "elements" rfl
      change ((toDataWith id elements).mapM (build n) >>= fun es => .ok (array es)) = _
      rw [he]
      rfl
    | compound body =>
      have hb := hparts "body" rfl
      change ((toDataWith id body).mapM (build n) >>= fun es => .ok (compound es)) = _
      rw [hb]
      rfl

/-- Data that are read as a tree and written again. -/
def normalized (d : Datum) : Except Fault Datum := do return (← ofDatum d).toDatum

/-- Trees are carried without loss: what any tree is written as is read as the same tree. So data
that are read as a tree, whatever they leave out, add or give as text, have a normal form, which is
read as the same tree and written as it is. No bound on the depth is in the way of this. -/
theorem interchange_is_lossless :
    (∀ t : Expr, ofDatum t.toDatum = .ok t ∧ normalized t.toDatum = .ok t.toDatum) ∧
    (∀ d d' : Datum, normalized d = .ok d' → ofDatum d' = ofDatum d ∧ normalized d' = .ok d') ∧
    ∀ (n : Nat) (d : Datum), d.size < n → build n d = ofDatum d := by
  have hback : ∀ t : Expr, ofDatum t.toDatum = .ok t := fun t =>
    restores _ (Nat.lt_succ_self _)
  have hnormal : ∀ t : Expr, normalized t.toDatum = .ok t.toDatum := by
    intro t
    unfold normalized
    rw [hback]
    rfl
  refine ⟨fun t => ⟨hback t, hnormal t⟩, fun d d' h => ?_, fun n d h => ?_⟩
  · obtain ⟨t, ht, h⟩ := ok_of_bind_ok h
    cases h
    exact ⟨(hback t).trans ht.symm, hnormal t⟩
  · exact build_of_bound h (Nat.lt_succ_self _)

/-- A call of `f` on null and on `-x`. The callee is given as a text, the operator is not said to
stand in front, and there are fields that mean nothing. -/
def looseCall : Datum :=
  .map [("loc", .int 3), ("arguments", .list
      [.map [("type", .text "Literal"), ("raw", .null)],
        .map [("operator", .text "-"), ("type", .text "UnaryExpression"),
          ("argument", .map [("name", .text "x"), ("type", .text "Identifier")])]]),
    ("callee", .text "\x7b\"type\": \"Identifier\", \"name\": \"f\", \"loc\": []\x7d"),
    ("type", .text "CallExpression")]

/-- The call as it is written. -/
def strictCall : Datum :=
  .map [("type", .text "CallExpression"),
    ("callee", .map [("type", .text "Identifier"), ("name", .text "f")]),
    ("arguments", .list
      [.map [("type", .text "Literal"), ("value", .null)],
        .map [("type", .text "UnaryExpression"), ("operator", .text "-"),
          ("argument", .map [("type", .text "Identifier"), ("name", .text "x")]),
          ("prefix", .bool true)]])]

theorem a_loose_call_has_a_normal_form :
    ∃ d, normalized looseCall = .ok d ∧ d.same strictCall = true ∧
      ofDatum d = ofDatum looseCall ∧ normalized d = .ok d := by
  have hcheck : (normalized looseCall).toOption.any (·.same strictCall) = true := by
    decide +kernel
  cases hr : normalized looseCall with
  | error f =>
    rw [hr] at hcheck
    cases hcheck
  | ok d =>
    rw [hr] at hcheck
    obtain ⟨-, hnormal, -⟩ := interchange_is_lossless
    exact ⟨d, rfl, hcheck, hnormal looseCall d hr⟩

end Switchboard.Expr
