-- Signs in a row behind an operand. The first of them is an operator, for no sign stands behind an
-- operand; where an operand is wanted, two equal ones of plus and minus are a sign of their own, so
-- the others are cut greedily from the left.
import Switchboard.Proofs.Acceptance
namespace Switchboard

open Grammar Symbol

/-! ## The greedy cut -/

/-- The signs that stand in a row, cut greedily from the left. -/
def signs : List Char → List UnaryOperator
  | '+' :: '+' :: cs => .increment :: signs cs
  | '-' :: '-' :: cs => .decrement :: signs cs
  | '+' :: cs => .plus :: signs cs
  | '-' :: cs => .minus :: signs cs
  | '!' :: cs => .not :: signs cs
  | '~' :: cs => .complement :: signs cs
  | _ => []

/-- Can the character be a sign? -/
def isUnary (c : Char) : Bool := c == '+' || c == '-' || c == '!' || c == '~'

theorem isUnary_cases {c : Char} (h : isUnary c = true) :
    c = '+' ∨ c = '-' ∨ c = '!' ∨ c = '~' := by
  simpa [isUnary, or_assoc] using h

/-- A plus that no plus follows is a token, and so is a minus that no minus follows. -/
theorem Token.at?_single {cs : List Char} (h : ∀ c ∈ cs, isUnary c = true) :
    ((∀ r, cs = '+' :: r → False) →
        at? .operand ('+' :: (cs ++ ['b'])) = some (.unary .plus)) ∧
      ((∀ r, cs = '-' :: r → False) →
        at? .operand ('-' :: (cs ++ ['b'])) = some (.unary .minus)) := by
  cases cs with
  | nil => exact ⟨fun _ => rfl, fun _ => rfl⟩
  | cons c cs =>
    rcases isUnary_cases (h c List.mem_cons_self) with rfl | rfl | rfl | rfl
    · exact ⟨fun h => absurd rfl (h cs), fun _ => rfl⟩
    · exact ⟨fun _ => rfl, fun h => absurd rfl (h cs)⟩
    · exact ⟨fun _ => rfl, fun _ => rfl⟩
    · exact ⟨fun _ => rfl, fun _ => rfl⟩

/-! ## Signs before an operand -/

namespace Grammar

variable {w ws : List Terminal} {ts : List Token} {p : Phrase} {cs rest : List Char}

/-- The terminals of signs and of a name behind them. -/
def signed (ops : List UnaryOperator) (name : String) : List Terminal :=
  ops.map (fun op => .mark op.text) ++ [.name name]

theorem derives_signed (ops : List UnaryOperator) (name : String) :
    Derives (level 12) (signed ops name) (ops.foldr .unary (.operand (.name name))) := by
  induction ops with
  | nil => exact (Derives.operand rfl).tighter.tighter
  | cons op ops ih => exact ih.unary

theorem derives_between (op : BinaryOperator) (ops : List UnaryOperator) :
    Derives sequence (.name "a" :: .mark op.text :: signed ops "b")
      (.binary op (.operand (.name "a")) (ops.foldr .unary (.operand (.name "b")))) := by
  have hlevels : leftLevel op ≤ 14 ∧ rightLevel op ≤ 12 := by cases op <;> decide
  have hleft : Derives (level (leftLevel op)) [.name "a"] (.operand (.name "a")) :=
    (Derives.operand rfl).looser hlevels.1
  have hright := (derives_signed ops "b").looser hlevels.2
  exact .single ((hleft.operator hright).looser (Nat.zero_le _))

theorem expr?_signed (ops : List UnaryOperator) (name : String) :
    (ops.foldr Phrase.unary (.operand (.name name))).expr? =
      some (ops.foldr Expr.ofUnary (Literal.ofName name)) := by
  induction ops with
  | nil => rfl
  | cons op ops ih =>
    rw [List.foldr_cons, Phrase.expr?, ih]
    rfl

/-- A text is cut behind a sign if it is cut as a sentence goes on behind it. -/
theorem Cuts.sign (op : UnaryOperator) (hw : Reads .operand w ts .operand)
    (hd : Derives sequence (w ++ .mark op.text :: ws) p)
    (hat : Token.at? .operand (op.text.toList ++ rest) = some (.unary op))
    (hrest : Reads .operand (w ++ [.mark op.text]) (ts ++ [.unary op]) .operand →
      Derives sequence ((w ++ [.mark op.text]) ++ ws) p → Cuts (w ++ [.mark op.text]) rest ws) :
    Cuts w (op.text.toList ++ rest) (.mark op.text :: ws) := by
  obtain ⟨hfits, -⟩ := Token.at?_some hat
  have hcuts := hrest (hw.append (.one (.unary op) hfits)) (by simpa using hd)
  exact Cut.cuts_token (t := .unary op) hw (List.forall_mem_nil _) hat ⟨ws, p, hd⟩ hcuts

/-- Where an operand is wanted, signs are cut greedily. -/
theorem cuts_signs (hw : Reads .operand w ts .operand) (hcs : ∀ c ∈ cs, isUnary c = true)
    (hd : Derives sequence (w ++ signed (signs cs) "b") p) :
    Cuts w (cs ++ ['b']) (signed (signs cs) "b") := by
  induction cs using signs.induct generalizing w ts with
  | case1 cs ih =>
    have hrest := (List.forall_mem_cons.mp (List.forall_mem_cons.mp hcs).2).2
    exact .sign .increment hw hd rfl fun hw hd => ih hw hrest hd
  | case2 cs ih =>
    have hrest := (List.forall_mem_cons.mp (List.forall_mem_cons.mp hcs).2).2
    exact .sign .decrement hw hd rfl fun hw hd => ih hw hrest hd
  | case3 cs h ih =>
    have hrest := (List.forall_mem_cons.mp hcs).2
    have hcut : signs ('+' :: cs) = .plus :: signs cs := signs.eq_3 cs h
    rw [hcut] at hd ⊢
    exact .sign .plus hw hd ((Token.at?_single hrest).1 h) fun hw hd => ih hw hrest hd
  | case4 cs h ih =>
    have hrest := (List.forall_mem_cons.mp hcs).2
    have hcut : signs ('-' :: cs) = .minus :: signs cs := signs.eq_4 cs h
    rw [hcut] at hd ⊢
    exact .sign .minus hw hd ((Token.at?_single hrest).2 h) fun hw hd => ih hw hrest hd
  | case5 cs ih =>
    have hrest := (List.forall_mem_cons.mp hcs).2
    exact .sign .not hw hd rfl fun hw hd => ih hw hrest hd
  | case6 cs ih =>
    have hrest := (List.forall_mem_cons.mp hcs).2
    exact .sign .complement hw hd rfl fun hw hd => ih hw hrest hd
  | case7 cs _ _ hplus hminus hnot hcomplement =>
    cases cs with
    | nil =>
      have hgap := List.forall_mem_nil (Cut.isGap · = true)
      exact Cut.cuts_token (t := .name "b") hw hgap rfl ⟨[], p, hd⟩ (.done hgap)
    | cons c cs =>
      rcases isUnary_cases (hcs c List.mem_cons_self) with rfl | rfl | rfl | rfl
      · exact absurd rfl (hplus cs)
      · exact absurd rfl (hminus cs)
      · exact absurd rfl (hnot cs)
      · exact absurd rfl (hcomplement cs)

end Grammar

/-! ## Signs between two operands -/

namespace Expr

open Grammar

/-- Behind an operator that is cut from a text, signs are cut greedily. -/
theorem parse_signs (op : BinaryOperator) {cs : List Char}
    (hleft : ∀ rest, Token.at? .operand ('a' :: (op.text.toList ++ rest)) = some (.name "a"))
    (hop : ∀ rest, Token.at? .operator (op.text.toList ++ rest) = some (.binary op))
    (hcs : ∀ c ∈ cs, isUnary c = true) :
    parse (String.ofList ('a' :: (op.text.toList ++ (cs ++ ['b'])))) =
      .ok (ofBinary op (.identifier (.text "a"))
        ((signs cs).foldr ofUnary (.identifier (.text "b")))) := by
  have hd := derives_between op (signs cs)
  have hgap := List.forall_mem_nil (Cut.isGap · = true)
  obtain ⟨hfits, -⟩ := Token.at?_some (hop [])
  have hreads : Reads .operand [.name "a", .mark op.text] [.name "a", .binary op] .operand :=
    .token (.name "a") rfl (.one (.binary op) hfits)
  have hsigns := cuts_signs hreads hcs hd
  have hbehind := Cut.cuts_token (t := .binary op) (.one (.name "a") rfl) hgap (hop _) ⟨_, _, hd⟩
    hsigns
  have hcuts := Cut.cuts_token (t := .name "a") .nil hgap (hleft _) ⟨_, _, hd⟩ hbehind
  rw [parse_of_cuts (by rwa [String.toList_ofList]) hd, Phrase.expr?, expr?_signed]
  rfl

/-- Of the signs between two operands, the first one is an operator and the others are signs, cut
greedily from the left. -/
theorem signs_in_a_row_are_an_operator_and_signs (s : String) (first : Char) (rest : List Char)
    (hs : s.toList = first :: rest) (hfirst : first = '+' ∨ first = '-')
    (hrest : ∀ c ∈ rest, c = '+' ∨ c = '-' ∨ c = '!' ∨ c = '~') :
    parse ("a" ++ s ++ "b") =
      .ok (.binary (.text (String.singleton first)) (.identifier (.text "a"))
        ((signs rest).foldr ofUnary (.identifier (.text "b")))) := by
  have hunary : ∀ c ∈ rest, isUnary c = true := by
    simpa [isUnary, or_assoc] using hrest
  have htext : "a" ++ s ++ "b" = String.ofList ('a' :: (first :: (rest ++ ['b']))) := by
    refine String.toList_injective ?_
    simp [hs]
  rw [htext]
  rcases hfirst with rfl | rfl
  · exact parse_signs .add (fun _ => rfl) (fun _ => rfl) hunary
  · exact parse_signs .subtract (fun _ => rfl) (fun _ => rfl) hunary

/-- Of four minuses the first one is the operator, and the last one has none to stand with. -/
theorem four_minuses_are_an_operator_and_two_signs :
    parse ("a" ++ "----" ++ "b") = .ok (.binary (.text "-") (.identifier (.text "a"))
      (.unary (.text "--") (.unary (.text "-") (.identifier (.text "b")) (.bool true))
        (.bool true))) :=
  signs_in_a_row_are_an_operator_and_signs "----" '-' ['-', '-', '-'] rfl (.inr rfl) (by simp)

end Expr
end Switchboard
