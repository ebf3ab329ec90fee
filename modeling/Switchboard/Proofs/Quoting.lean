-- Texts as literals. Between quotes stand the characters of a text, but for a few that are escaped,
-- so every text can be written. A quote parts what stands before it from what follows, and a text
-- between quotes ends at the one that closes it; so a literal stands wherever an operand is wanted.
import Switchboard.Proofs.Spacing
namespace Switchboard

open Grammar Symbol

/-! ## Spelling a text -/

namespace Literal

/-- How a character is written between quotes of a kind. -/
def escaped (q c : Char) : List Char :=
  if c = '\\' then ['\\', '\\']
  else if c = q then ['\\', q]
  else if c = '\n' then ['\\', 'n']
  else if c = '\r' then ['\\', 'r']
  else if c = '\x00' then ['\\', 'x', '0', '0']
  else [c]

/-- A text between quotes. -/
def inQuotes (q : Char) (s : String) : String :=
  String.ofList (q :: (s.toList.flatMap (escaped q) ++ [q]))

variable {q c : Char} {cs rest : List Char}

/-- The forms in which characters are written. -/
theorem escaped_cases (q c : Char) :
    (c = '\\' ∧ escaped q c = ['\\', '\\']) ∨ (c = q ∧ escaped q c = ['\\', q]) ∨
      (c = '\n' ∧ escaped q c = ['\\', 'n']) ∨ (c = '\r' ∧ escaped q c = ['\\', 'r']) ∨
      (c = '\x00' ∧ escaped q c = ['\\', 'x', '0', '0']) ∨
      (c ≠ '\\' ∧ c ≠ q ∧ c ≠ '\n' ∧ c ≠ '\r' ∧ c ≠ '\x00' ∧ escaped q c = [c]) := by
  unfold escaped
  split_ifs <;> simp_all

/-- What is read of an escaped character is the character. -/
theorem characters?_escaped (hq : q = '"' ∨ q = '\'') (c : Char) (rest : List Char) :
    characters? .none (escaped q c ++ rest) = (characters? .none rest).map (c :: ·) := by
  rcases escaped_cases q c with ⟨rfl, h⟩ | ⟨rfl, h⟩ | ⟨rfl, h⟩ | ⟨rfl, h⟩ | ⟨rfl, h⟩ |
    ⟨hslash, -, -, hreturn, hnul, h⟩ <;> rw [h]
  · rfl
  · rcases hq with rfl | rfl <;> rfl
  · rfl
  · rfl
  · -- two digits make the number
    change ((characters? .none rest).bind fun cs => some ('\x00' :: cs)) = _
    cases characters? .none rest <;> rfl
  · rw [List.singleton_append, characters?]
    simp [hslash, hreturn, hnul]

theorem characters?_spelled (hq : q = '"' ∨ q = '\'') (cs : List Char) :
    characters? .none (cs.flatMap (escaped q)) = some cs := by
  induction cs with
  | nil => rfl
  | cons c cs ih => rw [List.flatMap_cons, characters?_escaped hq, ih, Option.map_some]

/-- The value of a spelling is the text that is spelled. -/
theorem quoted?_inQuotes (hq : q = '"' ∨ q = '\'') (s : String) :
    quoted? (inQuotes q s) = some (.text s) := by
  have hinner : ((inQuotes q s).toList.drop 1).dropLast = s.toList.flatMap (escaped q) := by
    simp [inQuotes]
  rw [quoted?, hinner, characters?_spelled hq, Option.map_some, String.ofList_toList]

/-- An escaped character closes nothing. -/
theorem closed_escaped (hq : q = '"' ∨ q = '\'') (h : rest ∈ Lexeme.closed q) (c : Char) :
    escaped q c ++ rest ∈ Lexeme.closed q := by
  have hplain : ∀ {d r}, d ≠ q → d ≠ '\\' → d ≠ '\n' → r ∈ Lexeme.closed q →
      d :: r ∈ Lexeme.closed q := fun hd hslash hfeed hr =>
    Lexeme.mem_closed.mpr (.inr (.inl ⟨_, _, by simp [hd, hslash, hfeed], hr, rfl⟩))
  have hescape : ∀ {d r}, d ≠ '\n' → r ∈ Lexeme.closed q → '\\' :: d :: r ∈ Lexeme.closed q :=
    fun hd hr => Lexeme.mem_closed.mpr (.inr (.inr ⟨_, _, by simp [hd], hr, rfl⟩))
  rcases escaped_cases q c with ⟨-, h'⟩ | ⟨-, h'⟩ | ⟨-, h'⟩ | ⟨-, h'⟩ | ⟨-, h'⟩ |
    ⟨hslash, hquote, hfeed, -, -, h'⟩ <;> rw [h']
  · exact hescape (by decide) h
  · exact hescape (by rcases hq with rfl | rfl <;> decide) h
  · exact hescape (by decide) h
  · exact hescape (by decide) h
  · have hzero : '0' ≠ q := by rcases hq with rfl | rfl <;> decide
    refine hescape (by decide) ?_
    exact hplain hzero (by decide) (by decide) (hplain hzero (by decide) (by decide) h)
  · exact hplain hquote hslash hfeed h

theorem inQuotes_mem (hq : q = '"' ∨ q = '\'') (s : String) :
    (inQuotes q s).toList ∈ Lexeme.quoted := by
  have hclosed : ∀ cs : List Char, cs.flatMap (escaped q) ++ [q] ∈ Lexeme.closed q := by
    intro cs
    induction cs with
    | nil => exact Lexeme.mem_closed.mpr (.inl rfl)
    | cons c cs ih =>
      rw [List.flatMap_cons, List.append_assoc]
      exact closed_escaped hq ih c
  exact Lexeme.mem_quoted.mpr ⟨q, _, hq, hclosed s.toList, String.toList_ofList⟩

end Literal

/-! ## Cutting on behind a quote -/

namespace Token

open Lexeme

variable {stand : Stand} {t : Token} {a : List Char} {c : Char}

theorem at?_quoted {s : String} (h : s.toList ∈ Lexeme.quoted) (rest : List Char) :
    at? .operand (s.toList ++ rest) = some (.quoted s) := by
  have hfound := quotedAt?_eq h rest
  obtain ⟨c, r, hs, hc⟩ := quoted_head h
  have hstart := startsNumber_of_isQuote hc
  rw [hs, List.cons_append] at hfound ⊢
  have hhex := none_of_head (fun _ => hexNumber_head) (hexAt?_longest (c :: (r ++ rest))) hstart
  have hnumber :=
    none_of_head (fun _ => number_head) (numberAt?_longest (c :: (r ++ rest))) hstart
  have htext : String.ofList (c :: r) = s := by rw [← hs, String.ofList_toList]
  simp [at?, hhex, hnumber, hfound, spelled, htext]

/-- A token that is found is found as well if a character that parts tokens follows. -/
theorem at?_parted (h : at? stand (t.text.toList ++ a) = some t) (hc : Lexeme.parts c = true)
    (rest : List Char) : at? stand (t.text.toList ++ (a ++ c :: rest)) = some t := by
  obtain ⟨ht, hst, -⟩ := at?_some h
  refine at?_of_longest ht hst (List.prefix_append _ _) fun u hu hsu hp => ?_
  rcases prefix_or_length_le ht hu hst hsu hc hp with hbefore | hle
  · obtain ⟨t', ht', hle⟩ := at?_longest hu hsu hbefore
    rw [h] at ht'
    cases ht'
    exact hle
  · exact hle

end Token

/-- Where the token behind a row of tokens stands. -/
def Stand.behind (stand : Stand) (ts : List Token) : Stand := ts.foldl (fun _ t => t.next) stand

theorem Reads.behind {σ σ' : Stand} {w : List Terminal} {ts : List Token}
    (h : Reads σ w ts σ') : σ.behind ts = σ' := by
  induction h with
  | nil => rfl
  | cons _ _ ih => exact ih

namespace Cut

variable {n m : Nat} {stand : Stand} {place : Position} {cs gap rest : List Char} {c : Char}

/-- How many tokens are admitted makes no difference if they are enough. -/
theorem go_enough (hn : cs.length < n) (hm : cs.length < m) :
    go n stand place cs = go m stand place cs := by
  induction n generalizing m stand place cs with
  | zero => cases hn
  | succ n ih =>
    cases m with
    | zero => cases hm
    | succ m =>
      rcases front_cases stand cs with hgap | ⟨gap, c, r, hgap, hc, hnone, rfl⟩ |
        ⟨gap, t, rest, hgap, hat, rfl⟩
      · rw [go_gap hgap, go_gap hgap]
      · rw [go_stuck hgap hc hnone, go_stuck hgap hc hnone]
      · rw [go_take hgap hat, go_take hgap hat,
          ih (length_lt_of_at? hat hn) (length_lt_of_at? hat hm)]

theorem go_skip (h : ∀ c ∈ gap, isGap c = true) :
    go (n + 1) stand place (gap ++ cs) = go (n + 1) stand (place.afterAll gap) cs := by
  rw [go, go, List.takeWhile_append_of_pos h, List.dropWhile_append_of_pos h,
    Position.afterAll_append]

/-- A text that is cut to its end is cut in the same way if a character that parts tokens follows,
and what follows is cut from there on. -/
theorem go_append (hc : Lexeme.parts c = true) (hn : cs.length < n)
    (hm : (cs ++ c :: rest).length < m) (hstuck : (go n stand place cs).stuck = none) :
    go m stand place (cs ++ c :: rest) =
      ⟨(go n stand place cs).tokens ++
          (go m (stand.behind (go n stand place cs).row) (place.afterAll cs) (c :: rest)).tokens,
        (go m (stand.behind (go n stand place cs).row) (place.afterAll cs) (c :: rest)).stuck⟩ := by
  induction n generalizing m stand place cs with
  | zero => cases hn
  | succ n ih =>
    cases m with
    | zero => cases hm
    | succ m =>
      rcases front_cases stand cs with hgap | ⟨gap, d, r, hgap, hd, hnone, rfl⟩ |
        ⟨gap, t, r, hgap, hat, rfl⟩
      · rw [go_gap hgap, go_skip hgap]
        rfl
      · rw [go_stuck hgap hd hnone] at hstuck
        cases hstuck
      · have hat' := Token.at?_parted hat hc rest
        rw [go_take hgap hat] at hstuck ⊢
        rw [List.append_assoc, List.append_assoc] at hm ⊢
        have hlen := length_lt_of_at? hat' hm
        have hbehind : (c :: rest).length < m := by
          rw [List.length_append] at hlen
          omega
        rw [go_take hgap hat', ih (length_lt_of_at? hat hn) hlen hstuck,
          go_enough hbehind (Nat.lt_succ_of_lt hbehind), row_cons]
        simp only [Stand.behind, List.foldl_cons, Position.afterAll_append, List.cons_append]

/-- How a text is cut behind a front of it, if a token of this stand is wanted there. -/
def onward (stand : Stand) (front back : String) : Cut :=
  go (back.length + 1) stand (.behind front.toList) back.toList

theorem ofText_append {front back : String} {r : List Char} {σ : Stand}
    (hback : back.toList = c :: r) (hc : Lexeme.parts c = true)
    (hstuck : (ofText front).stuck = none) (hσ : Stand.operand.behind (ofText front).row = σ) :
    ofText (front ++ back) =
      ⟨(ofText front).tokens ++ (onward σ front back).tokens, (onward σ front back).stuck⟩ := by
  subst hσ
  have hn := length_lt (front ++ back)
  have hm : (c :: r).length < (front ++ back).length + 1 := by
    rw [← hback, String.length_toList, String.length_append]
    omega
  have hstuck' : (go (front.length + 1) .operand .start front.toList).stuck = none := hstuck
  rw [String.toList_append, hback] at hn
  rw [ofText, String.toList_append, hback, go_append hc (length_lt front) hn hstuck',
    go_enough hm (hback ▸ length_lt back), ← hback, Position.afterAll_start]
  rfl

/-- Where an operand is wanted, a text between quotes is cut up to the closing one. -/
theorem onward_quoted {s : String} (h : s.toList ∈ Lexeme.quoted) (front back : String) :
    onward .operand front (s ++ back) =
      ⟨(.quoted s, .behind front.toList) :: (onward .operator (front ++ s) back).tokens,
        (onward .operator (front ++ s) back).stuck⟩ := by
  have hat : Token.at? .operand ((Token.quoted s).text.toList ++ back.toList) = some (.quoted s) :=
    Token.at?_quoted h back.toList
  have hback : back.toList.length < (s ++ back).length := by
    obtain ⟨c, r, hs, -⟩ := Lexeme.quoted_head h
    rw [← String.length_toList, String.toList_append, hs, List.length_append, List.length_cons]
    omega
  have hplace : (Position.behind front.toList).afterAll s.toList = .behind (front ++ s).toList := by
    rw [String.toList_append, ← Position.afterAll_start, ← Position.afterAll_start,
      Position.afterAll_append]
  have htake : go ((s ++ back).length + 1) .operand (.behind front.toList)
      (s.toList ++ back.toList) = _ := go_take (List.forall_mem_nil _) hat
  have hrest : go (s ++ back).length .operator ((Position.behind front.toList).afterAll s.toList)
      back.toList = onward .operator (front ++ s) back := by
    rw [hplace, go_enough hback (length_lt back)]
    rfl
  rw [onward, String.toList_append, htake, ← hrest]
  rfl

end Cut

/-! ## Texts as literals -/

namespace Expr

open State Literal

/-- The text is read up to where an operand is wanted. -/
def Awaits (front : String) (frames : List Frame) : Prop :=
  (Cut.ofText front).stuck = none ∧
    (Cut.ofText front).row.foldlM take (awaiting []) = .ok (awaiting frames)

theorem quote_parts {q : Char} (hq : q = '"' ∨ q = '\'') : Lexeme.parts q = true := by
  rcases hq with rfl | rfl <;> rfl

/-- A text between quotes that stands where an operand is wanted is cut as one token. -/
theorem ofText_inQuotes {q : Char} (hq : q = '"' ∨ q = '\'') (s : String) {front : String}
    {frames : List Frame} (h : Awaits front frames) (back : String) :
    Cut.ofText (front ++ inQuotes q s ++ back) =
      ⟨(Cut.ofText front).tokens ++ (.quoted (inQuotes q s), .behind front.toList) ::
          (Cut.onward .operator (front ++ inQuotes q s) back).tokens,
        (Cut.onward .operator (front ++ inQuotes q s) back).stuck⟩ := by
  obtain ⟨hstuck, hrun⟩ := h
  obtain ⟨-, hreads⟩ := run_reached reached_nil hrun
  have hstand : Stand.operand.behind (Cut.ofText front).row = .operand := hreads.behind
  have hquote : (inQuotes q s ++ back).toList =
      q :: (s.toList.flatMap (escaped q) ++ [q] ++ back.toList) := by
    simp [inQuotes]
  rw [String.append_assoc, Cut.ofText_append hquote (quote_parts hq) hstuck hstand,
    Cut.onward_quoted (inQuotes_mem hq s)]

theorem take_inQuotes {q : Char} (hq : q = '"' ∨ q = '\'') (s : String) (frames : List Frame) :
    (awaiting frames).take (.quoted (inQuotes q s)) =
      .ok (holding frames (node (.text s) (inQuotes q s))) := by
  have hvalue : (Token.quoted (inQuotes q s)).terminal.expr? =
      some (node (.text s) (inQuotes q s)) := by
    simp [Token.terminal, Terminal.expr?, quoted?_inQuotes hq]
  rw [take_operand rfl, hvalue]
  rfl

/-- Behind a text between quotes, reading goes on with its value. -/
theorem parse_inQuotes {q : Char} (hq : q = '"' ∨ q = '\'') (s : String) {front : String}
    {frames : List Frame} (h : Awaits front frames) (back : String) (e : Expr) :
    parse (front ++ inQuotes q s ++ back) = .ok e ↔
      (Cut.onward .operator (front ++ inQuotes q s) back).stuck = none ∧
        ∃ state, (Cut.onward .operator (front ++ inQuotes q s) back).row.foldlM take
            (holding frames (node (.text s) (inQuotes q s))) = .ok state ∧
          state.finish? = some e := by
  have hcut := ofText_inQuotes hq s h back
  have hrow : (Cut.ofText (front ++ inQuotes q s ++ back)).row = (Cut.ofText front).row ++
      .quoted (inQuotes q s) :: (Cut.onward .operator (front ++ inQuotes q s) back).row := by
    rw [hcut]
    simp [Cut.row]
  have hrun : ∀ ts, ((Cut.ofText front).row ++ Token.quoted (inQuotes q s) :: ts).foldlM take
      (awaiting []) = ts.foldlM take (holding frames (node (.text s) (inQuotes q s))) := by
    intro ts
    rw [List.foldlM_append, h.2]
    change ((awaiting frames).take (.quoted _) >>= fun state => ts.foldlM take state) = _
    rw [take_inQuotes hq]
    rfl
  rw [parse_ok, hrow, hrun, hcut]

/-- Every text has literals, one for each kind of quotes. A literal is read wherever an operand is
wanted, its value is the text, and it ends at the quote that closes it, whatever follows. -/
theorem every_text_has_a_literal (q : Char) (hq : q = '"' ∨ q = '\'') (s : String) :
    parse (inQuotes q s) = .ok (node (.text s) (inQuotes q s)) ∧
      ∀ front back frames, Awaits front frames →
        Cut.ofText (front ++ inQuotes q s ++ back) =
          ⟨(Cut.ofText front).tokens ++ (.quoted (inQuotes q s), .behind front.toList) ::
              (Cut.onward .operator (front ++ inQuotes q s) back).tokens,
            (Cut.onward .operator (front ++ inQuotes q s) back).stuck⟩ ∧
        ∀ e, parse (front ++ inQuotes q s ++ back) = .ok e ↔
          (Cut.onward .operator (front ++ inQuotes q s) back).stuck = none ∧
            ∃ state, (Cut.onward .operator (front ++ inQuotes q s) back).row.foldlM take
                (holding frames (node (.text s) (inQuotes q s))) = .ok state ∧
              state.finish? = some e := by
  refine ⟨?_, fun front back frames h =>
    ⟨ofText_inQuotes hq s h back, parse_inQuotes hq s h back⟩⟩
  have hempty : Awaits "" [] := ⟨rfl, rfl⟩
  have halone := (parse_inQuotes hq s hempty "" (node (.text s) (inQuotes q s))).mpr
    ⟨rfl, _, rfl, rfl⟩
  simpa using halone

/-- A character without a sign of its own is written by its number, which the digit behind it is no
part of. -/
theorem a_number_before_a_digit_is_read :
    inQuotes '\'' "\x001'" = "'\\x001\\''" ∧
      parse ("f(" ++ inQuotes '\'' "\x001'" ++ ")") =
        .ok (.call (.identifier (.text "f")) [node (.text "\x001'") "'\\x001\\''"]) := by
  have hliteral : inQuotes '\'' "\x001'" = "'\\x001\\''" := by rfl
  have hfront : Awaits "f(" [.arguments (.identifier (.text "f")) []] := ⟨rfl, rfl⟩
  have hread := ((every_text_has_a_literal '\'' (.inr rfl) "\x001'").2 "f(" ")" _ hfront).2
  rw [← hliteral]
  exact ⟨rfl, (hread _).mpr ⟨rfl, _, rfl, rfl⟩⟩

end Expr
end Switchboard
