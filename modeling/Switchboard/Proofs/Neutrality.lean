-- Parentheses around a text that is read, and gaps between its tokens, change nothing. What is put
-- in parts the tokens before it from those behind, so these are cut as before; and in parentheses the
-- same terminals go on as without, but for those that end what was opened.
import Switchboard.Proofs.Spacing
namespace Switchboard

open Grammar Symbol

/-! ## Parentheses -/

namespace Grammar

variable {taken us vs ws : List Terminal} {cs : List Char} {t : Terminal} {ts : List Token}
  {σ : Stand} {p : Phrase}

/-- A sentence in parentheses is a sentence with the same tree. -/
theorem Derives.enclosed (h : Derives sequence ws p) :
    Derives sequence (.mark "(" :: (ws ++ [.mark ")"])) p :=
  .single (h.paren.looser (Nat.zero_le 14))

theorem Continues.enclosed (h : Continues taken t) : Continues (.mark "(" :: taken) t := by
  obtain ⟨rest, p, hp⟩ := h
  exact ⟨rest ++ [.mark ")"], p, by simpa using hp.enclosed⟩

/-- Behind an open parenthesis more goes on than without it, but nothing that is longer. -/
theorem LongestAt.enclosed (h : LongestAt taken cs t) (hr : Reads .operand taken ts σ) :
    LongestAt (.mark "(" :: taken) cs t := by
  refine ⟨h.spelled, h.isPrefix, h.continues.enclosed, fun u hu hp hc => ?_⟩
  obtain ⟨u, rfl, hufits⟩ := hc.token (hr.token .openParen rfl)
  cases hcloses : u.closes with
  | true =>
    -- what ends something is a single character
    obtain ⟨t, rfl, htfits⟩ := h.continues.token hr
    obtain ⟨c, hone⟩ := Token.text_of_closes hcloses
    obtain ⟨d, r, hhead, -⟩ := Token.head_not_gap htfits h.spelled
    rw [Token.terminal_text, Token.terminal_text, hone, hhead]
    exact Nat.succ_le_succ (Nat.zero_le _)
  | false => exact h.longest _ hu hp (h.continues.other hr hufits hcloses)

/-- Behind an open parenthesis, and with one that closes it, a text is cut as it is alone. -/
theorem Cuts.enclosed (h : Cuts taken cs ws) (hd : Derives sequence (taken ++ ws) p) :
    Cuts (.mark "(" :: taken) (cs ++ [')']) (ws ++ [.mark ")"]) := by
  induction h with
  | @done taken gap hgap =>
    rw [List.append_nil] at hd
    have hclose : LongestAt (.mark "(" :: taken) (Terminal.mark ")").text.toList (.mark ")") :=
      .atEnd trivial ⟨[], p, hd.enclosed⟩
    rw [← List.append_nil (Terminal.text _).toList] at hclose
    exact .take hgap hclose (.done (List.forall_mem_nil _))
  | @take taken gap t rest ws hgap hlongest _ ih =>
    have hd' : Derives sequence ((taken ++ [t]) ++ ws) p := by simpa using hd
    obtain ⟨ts, σ, hr⟩ := hd.reads
    have hcuts := Cuts.take hgap ((hlongest.parted hr (c := ')') rfl []).enclosed hr) (ih hd')
    simpa using hcuts

theorem cuts_enclosed (h : Cuts [] cs ws) (hd : Derives sequence ws p) :
    Cuts [] ('(' :: (cs ++ [')'])) (.mark "(" :: (ws ++ [.mark ")"])) := by
  have hrest : Cuts ([] ++ [.mark "("]) (cs ++ [')']) (ws ++ [.mark ")"]) := h.enclosed hd
  exact Cut.cuts_token (t := .openParen) .nil (List.forall_mem_nil _) rfl ⟨_, p, hd.enclosed⟩ hrest

end Grammar

/-! ## Tokens in a row -/

/-- The text is these tokens one after the other, with nothing but gaps around them. -/
inductive Strung : List Token → List Char → Prop
  | nil {gap} : (∀ c ∈ gap, Cut.isGap c = true) → Strung [] gap
  | cons {gap t ts rest} : (∀ c ∈ gap, Cut.isGap c = true) → Strung ts rest →
      Strung (t :: ts) (gap ++ (t.text.toList ++ rest))

variable {us vs ts : List Token} {t : Token} {cs a b gap gap' rest rest' : List Char}
  {w ws : List Terminal} {σ σ' : Stand} {p : Phrase}

/-- Before and behind each of its tokens a text falls apart. -/
theorem Strung.split (h : Strung (us ++ vs) cs) :
    ∃ a b, cs = a ++ b ∧ Strung us a ∧ Strung vs b := by
  induction us generalizing cs with
  | nil => exact ⟨[], cs, rfl, .nil (List.forall_mem_nil _), h⟩
  | cons t us ih =>
    cases h with
    | @cons gap _ _ rest hgap hrest =>
      obtain ⟨a, b, rfl, ha, hb⟩ := ih hrest
      exact ⟨gap ++ (t.text.toList ++ a), b, by simp, .cons hgap ha, hb⟩

/-- The gap before a token is all that is before it. -/
theorem Token.gap_unique (ht : t.fits σ = true) (hs : t.Spelled)
    (hgap : ∀ c ∈ gap, Cut.isGap c = true) (hgap' : ∀ c ∈ gap', Cut.isGap c = true)
    (h : gap ++ (t.text.toList ++ rest) = gap' ++ (t.text.toList ++ rest')) :
    gap = gap' ∧ rest = rest' := by
  obtain ⟨c, r, hhead, hc⟩ := head_not_gap ht hs
  have hfront := congrArg (List.takeWhile Cut.isGap) h
  rw [hhead, List.cons_append, List.cons_append, (Cut.takeWhile_gap hgap hc _).1,
    (Cut.takeWhile_gap hgap' hc _).1] at hfront
  subst hfront
  exact ⟨rfl, List.append_cancel_left (List.append_cancel_left h)⟩

namespace Grammar

theorem Cuts.strung (h : Cuts w cs (ts.map Token.terminal)) : Strung ts cs := by
  induction ts generalizing w cs with
  | nil =>
    cases h with
    | done hgap => exact .nil hgap
  | cons t ts ih =>
    cases h with
    | take hgap _ hrest =>
      rw [Token.terminal_text]
      exact .cons hgap (ih hrest)

/-- Where a text starts with a token, it is cut behind it. -/
theorem Cuts.behind (ht : t.fits σ = true) (hgap : ∀ c ∈ gap, Cut.isGap c = true)
    (h : Cuts w (gap ++ (t.text.toList ++ rest)) (t.terminal :: ws)) :
    LongestAt w (t.text.toList ++ rest) t.terminal ∧ Cuts (w ++ [t.terminal]) rest ws := by
  generalize hcs : gap ++ (t.text.toList ++ rest) = cs at h
  cases h with
  | take hgap' hlongest hrest =>
    rw [Token.terminal_text] at hcs hlongest
    obtain ⟨rfl, rfl⟩ := Token.gap_unique ht hlongest.spelled hgap hgap' hcs
    exact ⟨hlongest, hrest⟩

/-! ## Gaps -/

/-- A gap that is put in behind some of the tokens leaves all of them as they are. -/
theorem cuts_insert (ha : Strung us a) (hb : Strung vs b) (hw : Reads .operand w ts σ)
    (hr : Reads σ ws (us ++ vs) σ') (hd : Derives sequence (w ++ ws) p)
    (h : Cuts w (a ++ b) ws) (hgap : ∀ c ∈ gap, Cut.isGap c = true) :
    Cuts w (a ++ (gap ++ b)) ws := by
  induction ha generalizing w ws ts σ with
  | nil ha =>
    cases hb with
    | nil hb =>
      cases hr
      exact .done (List.forall_mem_append.mpr ⟨ha, List.forall_mem_append.mpr ⟨hgap, hb⟩⟩)
    | cons hgap' _ =>
      cases hr with
      | cons ht _ =>
        rw [← List.append_assoc] at h
        obtain ⟨hlongest, hrest⟩ := h.behind ht (List.forall_mem_append.mpr ⟨ha, hgap'⟩)
        have hfront := List.forall_mem_append.mpr ⟨ha, List.forall_mem_append.mpr ⟨hgap, hgap'⟩⟩
        simpa using Cuts.token hfront hlongest hrest
  | @cons gap' t us a hgap' _ ih =>
    cases hr with
    | cons ht hr =>
      rw [List.append_assoc, List.append_assoc] at h
      obtain ⟨hlongest, hrest⟩ := h.behind ht hgap'
      have hcuts := ih (hw.append (.one t ht)) hr (by simpa using hd) hrest
      have hlongest' : LongestAt w (t.text.toList ++ (a ++ (gap ++ b))) t.terminal := by
        rw [← t.terminal_text] at hlongest ⊢
        cases gap with
        | nil => exact hlongest
        | cons c gap =>
          have hc := Lexeme.parts_of_isGap (hgap c List.mem_cons_self)
          exact hlongest.before.parted hw hc (gap ++ b)
      simpa using Cuts.token hgap' hlongest' hcuts

end Grammar

/-! ## Whole texts -/

namespace Expr

open Grammar State

/-- What is cut from a text is the row of its tokens. -/
theorem reads_row {s : String} (h : Cuts [] s.toList ws) :
    ∃ σ, Reads .operand ws (Cut.ofText s).row σ := by
  obtain ⟨us, σ, hus⟩ := Cut.reads_of_cuts h .nil
  obtain ⟨rfl, -⟩ := Cut.row_ofText h hus
  exact ⟨σ, hus⟩

/-- In parentheses, or with a gap before, between or behind its tokens, a text is read as the same
expression as without. -/
theorem parentheses_and_gaps_change_nothing (s : String) (e : Expr) (h : parse s = .ok e) :
    parse ("(" ++ s ++ ")") = .ok e ∧
      ∀ us vs, (Cut.ofText s).row = us ++ vs →
        (∃ front back, s = front ++ back ∧ Strung us front.toList ∧ Strung vs back.toList) ∧
        ∀ front gap back, s = front ++ back → Strung us front.toList → Strung vs back.toList →
          (∀ c ∈ gap.toList, Cut.isGap c = true) → parse (front ++ gap ++ back) = .ok e := by
  obtain ⟨ws, hc, p, hd, he⟩ := cuts_of_parse h
  obtain ⟨σ, hr⟩ := reads_row hc
  refine ⟨?_, fun us vs hrow => ⟨?_, fun front gap back hs hus hvs hgap => ?_⟩⟩
  · have hcuts : Cuts [] ("(" ++ s ++ ")").toList (.mark "(" :: (ws ++ [.mark ")"])) := by
      simpa using cuts_enclosed hc hd
    rw [parse_of_cuts hcuts hd.enclosed, he, Option.elim_some]
  · rw [← hr.terminals, hrow] at hc
    obtain ⟨a, b, hs, ha, hb⟩ := hc.strung.split
    refine ⟨String.ofList a, String.ofList b, String.toList_injective ?_, ?_, ?_⟩ <;> simpa
  · rw [hrow] at hr
    rw [hs, String.toList_append] at hc
    have hcuts : Cuts [] (front ++ gap ++ back).toList ws := by
      simpa using cuts_insert hus hvs .nil hr hd hc hgap
    rw [parse_of_cuts hcuts hd, he, Option.elim_some]

/-- A blank between the two signs leaves one of them the operator. -/
theorem a_blank_between_two_signs_changes_nothing :
    parse ("(" ++ "a--b" ++ ")") = parse "a--b" ∧
      parse ("a-" ++ " \n" ++ "-b") = parse "a--b" ∧
      parse "a--b" = .ok (.binary (.text "-") (.identifier (.text "a"))
        (.unary (.text "-") (.identifier (.text "b")) (.bool true))) := by
  have h : parse "a--b" = .ok (.binary (.text "-") (.identifier (.text "a"))
      (.unary (.text "-") (.identifier (.text "b")) (.bool true))) := by rfl
  obtain ⟨hparen, hgaps⟩ := parentheses_and_gaps_change_nothing _ _ h
  have hrow : (Cut.ofText "a--b").row =
      [.name "a", .binary .subtract] ++ [.unary .minus, .name "b"] := by rfl
  have hnil := List.forall_mem_nil (Cut.isGap · = true)
  have hfront : Strung [.name "a", .binary .subtract] "a-".toList :=
    .cons hnil (.cons hnil (.nil hnil))
  have hback : Strung [.unary .minus, .name "b"] "-b".toList :=
    .cons hnil (.cons hnil (.nil hnil))
  have hgap := (hgaps _ _ hrow).2 "a-" " \n" "-b" rfl hfront hback
    (List.all_eq_true.mp rfl)
  exact ⟨hparen.trans h.symm, hgap.trans h.symm, h⟩

end Expr
end Switchboard
