-- A text is an expression exactly if it can be cut into a sentence of the grammar: gaps are
-- skipped, and at each point the longest terminal is taken with which a sentence can go on. There
-- is one way to cut a text and one derivation of a sentence, and the expression is the one of its
-- tree.
import Switchboard.Proofs.Respelling
import Switchboard.Proofs.Sentences
namespace Switchboard

open Grammar Symbol

/-! ## Cutting by the grammar -/

namespace Grammar

/-- Does some sentence start with these terminals and then this one? -/
def Continues (taken : List Terminal) (t : Terminal) : Prop :=
  ∃ rest p, Derives sequence (taken ++ t :: rest) p

/-- The longest terminal at the front of a text with which a sentence can go on. -/
structure LongestAt (taken : List Terminal) (cs : List Char) (t : Terminal) : Prop where
  spelled : t.Spelled
  isPrefix : t.text.toList <+: cs
  continues : Continues taken t
  longest : ∀ u : Terminal, u.Spelled → u.text.toList <+: cs → Continues taken u →
    u.text.toList.length ≤ t.text.toList.length

/-- A text is cut into these terminals, behind those that were taken before. -/
inductive Cuts : List Terminal → List Char → List Terminal → Prop
  | done {taken gap} : (∀ c ∈ gap, Cut.isGap c = true) → Cuts taken gap []
  | take {taken gap t rest ts} : (∀ c ∈ gap, Cut.isGap c = true) →
      LongestAt taken (t.text.toList ++ rest) t → Cuts (taken ++ [t]) rest ts →
      Cuts taken (gap ++ (t.text.toList ++ rest)) (t :: ts)

end Grammar

/-! ## Tokens at the front of a text -/

namespace Token

open Lexeme

variable {stand : Stand} {t u : Token}

/-- The kinds of tokens that the first character tells apart. -/
inductive Kind
  | number
  | quoted
  | name
  | mark
deriving DecidableEq

def kind : Token → Kind
  | number _ | hexNumber _ => .number
  | quoted _ => .quoted
  | name _ => .name
  | _ => .mark

/-- The kind of the tokens that start with a character. -/
def kindOf (c : Char) : Kind :=
  if startsNumber c then .number
  else if isQuote c then .quoted
  else if isNameStart c then .name
  else .mark

theorem kindOf_head (h : t.fits .operand = true) (hs : t.Spelled) :
    ∃ c r, t.text.toList = c :: r ∧ kindOf c = t.kind := by
  cases hm : t.terminal with
  | number s =>
    cases t <;> cases hm
    obtain ⟨c, r, hc, hp⟩ := number_head hs
    exact ⟨c, r, hc, by simp [kindOf, hp, kind]⟩
  | hexNumber s =>
    cases t <;> cases hm
    obtain ⟨c, r, hc, hp⟩ := hexNumber_head hs
    exact ⟨c, r, hc, by simp [kindOf, hp, kind]⟩
  | quoted s =>
    cases t <;> cases hm
    obtain ⟨c, r, hc, hp⟩ := quoted_head hs
    exact ⟨c, r, hc, by simp [kindOf, hp, startsNumber_of_isQuote hp, kind]⟩
  | name s =>
    cases t <;> cases hm
    obtain ⟨c, r, hc, hp⟩ := name_head hs
    refine ⟨c, r, hc, ?_⟩
    simp [kindOf, hp, startsNumber_of_isNameStart hp, isQuote_of_isNameStart hp, kind]
  | mark m =>
    obtain ⟨c, r, hc, hn, hq, ha⟩ := operandMarks_head t (mem_operandMarks h hm)
    refine ⟨c, r, hc, ?_⟩
    have hkind : t.kind = .mark := by
      cases t <;> first | rfl | cases hm
    simp [kindOf, hn, hq, ha, hkind]

theorem number_ne_hexNumber {w : List Char} (h : w ∈ Lexeme.number) : w ∉ Lexeme.hexNumber := by
  intro hhex
  obtain ⟨x, ds, hx, hne, -, rfl⟩ := mem_hexNumber.mp hhex
  have hlen := number_before_x hx (List.prefix_refl ('0' :: x :: ds)) h
  simp at hlen

/-- Where it stands, a token is told by its text. -/
theorem eq_of_text (ht : t.fits stand = true) (hu : u.fits stand = true) (hst : t.Spelled)
    (hsu : u.Spelled) (h : t.text = u.text) : t = u := by
  cases stand with
  | operand =>
    have hkind : t.kind = u.kind := by
      obtain ⟨c, r, hc, hk⟩ := kindOf_head ht hst
      obtain ⟨d, r', hd, hk'⟩ := kindOf_head hu hsu
      rw [h, hd] at hc
      cases hc
      exact hk.symm.trans hk'
    cases ht' : t.terminal with
    | mark m =>
      cases hu' : u.terminal with
      | mark m' =>
        exact List.inj_on_of_nodup_map operandMarks_nodup (mem_operandMarks ht ht')
          (mem_operandMarks hu hu') h
      | _ =>
        cases u <;> cases hu'
        all_goals cases t <;> cases ht'
        all_goals cases hkind
    | number s =>
      cases t <;> cases ht'
      cases u <;> cases hkind
      · cases h
        rfl
      · cases h
        exact absurd hsu (number_ne_hexNumber hst)
    | hexNumber s =>
      cases t <;> cases ht'
      cases u <;> cases hkind
      · cases h
        exact absurd hst (number_ne_hexNumber hsu)
      · cases h
        rfl
    | quoted s | name s =>
      cases t <;> cases ht'
      cases u <;> cases hkind
      cases h
      rfl
  | operator =>
    exact List.inj_on_of_nodup_map operatorMarks_nodup (mem_operatorMarks ht)
      (mem_operatorMarks hu) h
  | part =>
    obtain ⟨s, rfl⟩ := name_of_part ht
    obtain ⟨r, rfl⟩ := name_of_part hu
    cases h
    rfl

/-- A token than which no other one at the front is longer is found. -/
theorem at?_of_longest {cs : List Char} (ht : t.fits stand = true) (hst : t.Spelled)
    (hp : t.text.toList <+: cs)
    (h : ∀ u : Token, u.fits stand = true → u.Spelled → u.text.toList <+: cs →
      u.text.toList.length ≤ t.text.toList.length) : at? stand cs = some t := by
  obtain ⟨u, hu, hle⟩ := at?_longest ht hst hp
  obtain ⟨hufits, hsu, hp'⟩ := at?_some hu
  have htext : t.text = u.text := by
    refine String.toList_injective ?_
    exact (List.prefix_of_prefix_length_le hp hp' hle).eq_of_length
      (Nat.le_antisymm hle (h u hufits hsu hp'))
  rw [hu, eq_of_text ht hufits hst hsu htext]

/-- A class of characters to which none of the gaps belongs. -/
theorem not_isGap_of_class {p : Char → Bool} {c : Char}
    (hp : ([' ', '\t', '\x0c', '\r', '\n'].all fun d => !p d) = true) (hc : p c = true) :
    Cut.isGap c = false := by
  by_contra hgap
  have hgap := eq_true_of_ne_false hgap
  have hmem : c ∈ [' ', '\t', '\x0c', '\r', '\n'] := by
    simpa [Cut.isGap, or_assoc] using hgap
  have hnot := List.all_eq_true.mp hp c hmem
  rw [hc] at hnot
  cases hnot

theorem not_isGap_of_startsNumber {c : Char} (hc : startsNumber c = true) :
    Cut.isGap c = false := by
  have hrange : ([' ', '\t', '\x0c', '\r', '\n'].all fun d =>
      decide (d.toNat < 48 ∨ (58 ≤ d.toNat ∧ d.toNat < 128)) && d != '.') = true := by decide
  refine not_isGap_of_class (List.all_eq_true.mpr fun d hd => ?_) hc
  have hd := List.all_eq_true.mp hrange d hd
  simp only [Bool.and_eq_true, decide_eq_true_eq, bne_iff_ne] at hd
  simp [startsNumber, not_isDigit hd.1, hd.2]

/-- No token starts with a gap. -/
theorem head_not_gap (ht : t.fits stand = true) (hs : t.Spelled) :
    ∃ c r, t.text.toList = c :: r ∧ Cut.isGap c = false := by
  cases hm : t.terminal with
  | number s =>
    cases t <;> cases hm
    obtain ⟨c, r, hc, hp⟩ := number_head hs
    exact ⟨c, r, hc, not_isGap_of_startsNumber hp⟩
  | hexNumber s =>
    cases t <;> cases hm
    obtain ⟨c, r, hc, hp⟩ := hexNumber_head hs
    exact ⟨c, r, hc, not_isGap_of_startsNumber hp⟩
  | quoted s =>
    cases t <;> cases hm
    obtain ⟨c, r, hc, hp⟩ := quoted_head hs
    exact ⟨c, r, hc, not_isGap_of_class (by decide) hp⟩
  | name s =>
    cases t <;> cases hm
    obtain ⟨c, r, hc, hp⟩ := name_head hs
    exact ⟨c, r, hc, not_isGap_of_class (by decide) hp⟩
  | mark m =>
    have hmarks : ∀ t ∈ operandMarks ++ operatorMarks,
        t.text.toList.head?.all (fun c => !Cut.isGap c) = true ∧ t.text.toList ≠ [] := by decide
    have hmem : t ∈ operandMarks ++ operatorMarks := by
      cases stand with
      | operand => exact List.mem_append_left _ (mem_operandMarks ht hm)
      | operator => exact List.mem_append_right _ (mem_operatorMarks ht)
      | part =>
        obtain ⟨s, rfl⟩ := name_of_part ht
        cases hm
    obtain ⟨hhead, hne⟩ := hmarks t hmem
    obtain ⟨c, r, hc⟩ := List.exists_cons_of_ne_nil hne
    rw [hc] at hhead
    exact ⟨c, r, hc, by simpa using hhead⟩

/-! ## Tokens with which a sentence can go on -/

/-- The token with a plain spelling. -/
def plain : Token → Token
  | number _ => .number "0"
  | hexNumber _ => .hexNumber "0x0"
  | quoted _ => .quoted "''"
  | name _ => .name "x"
  | t => t

@[simp] theorem terminal_plain (t : Token) : t.plain.terminal = t.terminal.plain := by
  cases t <;> rfl

@[simp] theorem next_plain (t : Token) : t.plain.next = t.next := by
  cases t <;> rfl

theorem fits_plain (h : t.fits stand = true) : t.plain.fits stand = true := by
  cases t with
  | number s | hexNumber s | quoted s =>
    cases stand with
    | operand => rfl
    | operator =>
      have := terminal_of_operator h
      cases this
    | part => cases h
  | name s =>
    cases stand with
    | operand | part => rfl
    | operator =>
      have := terminal_of_operator h
      cases this
  | _ => exact h

/-- The tokens that end what was opened. They can stand behind what has nothing to end. -/
def closes : Token → Bool
  | comma | colon | closeParen | closeBracket => true
  | _ => false

/-- The tokens that start an operand or stand before one. -/
def opens : Token → Bool
  | unary _ | openParen | openBracket => true
  | _ => false

/-- The tokens that go on behind every operand. -/
def goesOn : Token → Bool
  | binary _ | question | dot | openParen | openBracket => true
  | _ => false

theorem operandMarks_cases : ∀ t ∈ operandMarks, t.closes = false → t.opens = true := by decide

theorem operatorMarks_cases : ∀ t ∈ operatorMarks, t.closes = false → t.goesOn = true := by
  decide

theorem text_of_closes (h : t.closes = true) : ∃ c, t.text.toList = [c] := by
  cases t <;> first | exact ⟨_, rfl⟩ | cases h

end Token

theorem Reads.plain {σ σ' : Stand} {w : List Terminal} {ts : List Token}
    (h : Reads σ w ts σ') : Reads σ (w.map Terminal.plain) (ts.map Token.plain) σ' := by
  induction h with
  | nil => exact .nil
  | @cons σ t w ts σ' ht _ ih =>
    rw [List.map_cons, List.map_cons, ← Token.terminal_plain]
    refine .cons (Token.fits_plain ht) ?_
    rwa [Token.next_plain]

namespace Expr.State

/-- Where it fits, a token with a plain spelling is taken unless it ends something. -/
theorem take_ok {state : State} {t : Token} (ht : t.fits state.stand = true)
    (hc : t.closes = false) : ∃ state', state.take t.plain = .ok state' := by
  cases state with
  | awaiting frames =>
    cases hop : t.terminal.isOperand with
    | true =>
      obtain ⟨e, he⟩ := Option.isSome_iff_exists.mp (Terminal.plain_valued hop)
      rw [← Token.terminal_plain] at he
      refine ⟨holding frames e, ?_⟩
      rw [take_operand (by simpa using hop), he]
      rfl
    | false =>
      have hm : t.terminal = .mark t.text := by
        cases t <;> first | rfl | cases hop
      have hopens := Token.operandMarks_cases t (Token.mem_operandMarks ht hm) hc
      cases t <;> first | exact ⟨_, rfl⟩ | cases hopens
  | holding frames e =>
    have hgoes := Token.operatorMarks_cases t (Token.mem_operatorMarks ht) hc
    cases t <;> first | exact ⟨_, rfl⟩ | cases hgoes
  | naming frames o =>
    obtain ⟨s, rfl⟩ := Token.name_of_part ht
    exact ⟨_, rfl⟩

end Expr.State

namespace Grammar

open Switchboard.Expr Switchboard.Expr.State

variable {σ : Stand} {w : List Terminal} {t : Terminal} {ts : List Token} {u : Token}

/-- A text is cut where the terminal of a token is the longest. -/
theorem Cuts.token {gap rest : List Char} {ws : List Terminal}
    (hgap : ∀ c ∈ gap, Cut.isGap c = true)
    (hlongest : LongestAt w (u.text.toList ++ rest) u.terminal)
    (hrest : Cuts (w ++ [u.terminal]) rest ws) :
    Cuts w (gap ++ (u.text.toList ++ rest)) (u.terminal :: ws) := by
  rw [← u.terminal_text] at hlongest ⊢
  exact .take hgap hlongest hrest

/-- A terminal with which a sentence can go on is the terminal of a token that can stand there. -/
theorem Continues.token (h : Continues w t) (hr : Reads .operand w ts σ) :
    ∃ u : Token, u.terminal = t ∧ u.fits σ = true := by
  obtain ⟨rest, p, hp⟩ := h
  obtain ⟨us, hus, -⟩ := readable hp
  obtain ⟨vs, xs, σ', -, hvs, hxs⟩ := hus.split
  obtain ⟨-, rfl⟩ := hr.unique hvs
  generalize hrow : t :: rest = row at hxs
  cases hxs with
  | nil => cases hrow
  | cons hu _ =>
    cases hrow
    exact ⟨_, rfl, hu⟩

/-- The terminals of a reached state are the beginning of a sentence. -/
theorem continues_of_reached {state : State} {w : List Terminal} {t : Terminal}
    (h : state.Reached (w ++ [t])) : Continues w t := by
  obtain ⟨rest, e, p, hp, -⟩ := h.goes_on
  exact ⟨rest, p, by simpa using hp⟩

/-- Where one terminal goes on, so does that of every other token that can stand there, unless it
ends something. -/
theorem Continues.other (h : Continues w t) (hr : Reads .operand w ts σ) (hu : u.fits σ = true)
    (hc : u.closes = false) : Continues w u.terminal := by
  obtain ⟨rest, p, hp⟩ := h
  obtain ⟨e, he⟩ := hp.plain_valued
  obtain ⟨us, hus, hrun⟩ := readable hp.plain
  have hrun := hrun [] trivial
  rw [he] at hrun
  obtain ⟨last, hrun, -⟩ := hrun
  rw [List.map_append] at hus
  obtain ⟨vs, xs, σ', rfl, hvs, -⟩ := hus.split
  obtain ⟨rfl, rfl⟩ := hr.plain.unique hvs
  rw [List.foldlM_append] at hrun
  cases hstate : (ts.map Token.plain).foldlM take (awaiting []) with
  | error r =>
    rw [hstate] at hrun
    cases hrun
  | ok state =>
    obtain ⟨hreached, hreads⟩ := run_reached reached_nil hstate
    rw [hr.plain.terminals] at hreached hreads
    obtain ⟨-, rfl⟩ := hreads.unique hr.plain
    obtain ⟨state', htake⟩ := take_ok hu hc
    have hcontinues := continues_of_reached (take_reached hreached htake)
    obtain ⟨rest, p', hp'⟩ := hcontinues
    have halike : Alike (w ++ u.terminal :: rest)
        (w.map Terminal.plain ++ u.plain.terminal :: rest) := by
      simp [Alike, Function.comp_def]
    obtain ⟨q', hq', -⟩ := hp'.respell halike
    exact ⟨rest, q', hq'⟩

end Grammar

/-! ## Cutting a text -/

namespace Position

theorem afterAll_append (place : Position) (cs ds : List Char) :
    place.afterAll (cs ++ ds) = (place.afterAll cs).afterAll ds := by
  simp [afterAll]

/-- The place behind some characters. Line feeds alone are counted as lines, and the characters of a
line from one. -/
def behind (cs : List Char) : Position :=
  ⟨cs.count '\n' + 1, (cs.reverse.takeWhile (· != '\n')).length + 1⟩

theorem afterAll_start (cs : List Char) : start.afterAll cs = behind cs := by
  induction cs using List.reverseRecOn with
  | nil => rfl
  | append_singleton cs c ih =>
    rw [afterAll_append, ih]
    by_cases hc : c = '\n'
    · subst hc
      simp [afterAll, after, behind]
    · simp [afterAll, after, behind, hc]

end Position

namespace Cut

open Switchboard.Expr Switchboard.Expr.State Grammar

/-- The tokens of a cut text, without their places. -/
def row (cut : Cut) : List Token := cut.tokens.map (·.1)

theorem row_cons (t : Token) (place : Position) (tokens : List (Token × Position))
    (stuck : Option Position) : row ⟨(t, place) :: tokens, stuck⟩ = t :: row ⟨tokens, stuck⟩ := rfl

variable {w ws : List Terminal} {ts : List Token} {cs : List Char}

/-- What a text starts with in a place: gaps up to its end, or behind them something that no token
starts with, or a token. -/
theorem front_cases (stand : Stand) (cs : List Char) :
    (∀ c ∈ cs, isGap c = true) ∨
      (∃ gap c r, (∀ c ∈ gap, isGap c = true) ∧ isGap c = false ∧
        Token.at? stand (c :: r) = none ∧ cs = gap ++ c :: r) ∨
      ∃ gap t rest, (∀ c ∈ gap, isGap c = true) ∧
        Token.at? stand (t.text.toList ++ rest) = some t ∧ cs = gap ++ (t.text.toList ++ rest) := by
  have hgap : ∀ c ∈ cs.takeWhile isGap, isGap c = true := fun c hc => List.mem_takeWhile_imp hc
  have hsplit : cs.takeWhile isGap ++ cs.dropWhile isGap = cs := List.takeWhile_append_dropWhile
  cases hrest : cs.dropWhile isGap with
  | nil => exact .inl (List.dropWhile_eq_nil_iff.mp hrest)
  | cons c r =>
    have hc : isGap c = false := by
      simpa [hrest] using List.head_dropWhile_not (p := isGap) (l := cs) (by simp [hrest])
    rw [hrest] at hsplit
    cases hat : Token.at? stand (c :: r) with
    | none => exact .inr (.inl ⟨_, c, r, hgap, hc, hat, hsplit.symm⟩)
    | some t =>
      obtain ⟨-, -, rest, hfront⟩ := Token.at?_some hat
      rw [← hfront] at hat hsplit
      exact .inr (.inr ⟨_, t, rest, hgap, hat, hsplit.symm⟩)

variable {n : Nat} {stand : Stand} {place : Position} {gap rest : List Char} {t : Token}

theorem takeWhile_gap {c : Char} (h : ∀ c ∈ gap, isGap c = true) (hc : isGap c = false)
    (rest : List Char) :
    (gap ++ c :: rest).takeWhile isGap = gap ∧ (gap ++ c :: rest).dropWhile isGap = c :: rest := by
  rw [List.takeWhile_append_of_pos h, List.dropWhile_append_of_pos h]
  simp [hc]

theorem go_gap (h : ∀ c ∈ gap, isGap c = true) : go (n + 1) stand place gap = ⟨[], none⟩ := by
  rw [go, List.dropWhile_eq_nil_iff.mpr h]

theorem go_stuck {c : Char} (h : ∀ c ∈ gap, isGap c = true) (hc : isGap c = false)
    (hat : Token.at? stand (c :: rest) = none) :
    go (n + 1) stand place (gap ++ c :: rest) = ⟨[], some (place.afterAll gap)⟩ := by
  obtain ⟨htake, hdrop⟩ := takeWhile_gap h hc rest
  rw [go, htake, hdrop]
  dsimp only
  rw [hat]

/-- A token at the front is cut, and what follows it is cut from where it ends. -/
theorem go_take (h : ∀ c ∈ gap, isGap c = true)
    (hat : Token.at? stand (t.text.toList ++ rest) = some t) :
    go (n + 1) stand place (gap ++ (t.text.toList ++ rest)) =
      ⟨(t, place.afterAll gap) ::
          (go n t.next (place.afterAll (gap ++ t.text.toList)) rest).tokens,
        (go n t.next (place.afterAll (gap ++ t.text.toList)) rest).stuck⟩ := by
  obtain ⟨hfits, hspelled, -⟩ := Token.at?_some hat
  obtain ⟨c, r, hhead, hc⟩ := Token.head_not_gap hfits hspelled
  have hfront : t.text.toList ++ rest = c :: (r ++ rest) := by
    rw [hhead, List.cons_append]
  obtain ⟨htake, hdrop⟩ := takeWhile_gap h hc (r ++ rest)
  rw [hfront] at hat ⊢
  rw [go, htake, hdrop]
  dsimp only
  rw [hat]
  dsimp only
  rw [← hfront, ← String.length_toList, List.take_left, List.drop_left,
    Position.afterAll_append]

/-- Behind a token less of the text is left. -/
theorem length_lt_of_at? (hat : Token.at? stand (t.text.toList ++ rest) = some t)
    (hn : (gap ++ (t.text.toList ++ rest)).length < n + 1) : rest.length < n := by
  obtain ⟨hfits, hspelled, -⟩ := Token.at?_some hat
  obtain ⟨c, r, hhead, -⟩ := Token.head_not_gap hfits hspelled
  simp only [List.length_append, hhead, List.length_cons] at hn
  omega

/-- Of the terminals with which a sentence goes on, the one of the token that is found at the front
is the longest there. -/
theorem longestAt_of_at? (hr : Reads .operand w ts stand) (hat : Token.at? stand cs = some t)
    (hc : Continues w t.terminal) : LongestAt w cs t.terminal := by
  obtain ⟨-, hspelled, hprefix⟩ := Token.at?_some hat
  refine ⟨hspelled, by rwa [Token.terminal_text], hc, fun u hu hp hc => ?_⟩
  obtain ⟨u, rfl, hufits⟩ := hc.token hr
  rw [Token.terminal_text] at hp ⊢
  obtain ⟨t', ht', hle⟩ := Token.at?_longest hufits hu hp
  rw [hat] at ht'
  cases ht'
  rwa [Token.terminal_text]

/-- A text is cut where a token is found with which a sentence goes on. -/
theorem cuts_token (hr : Reads .operand w ts stand) (hgap : ∀ c ∈ gap, isGap c = true)
    (hat : Token.at? stand (t.text.toList ++ rest) = some t) (hc : Continues w t.terminal)
    (hrest : Cuts (w ++ [t.terminal]) rest ws) :
    Cuts w (gap ++ (t.text.toList ++ rest)) (t.terminal :: ws) :=
  .token hgap (longestAt_of_at? hr hat hc) hrest

/-- The tokens that are found and taken are those that the grammar cuts from the text. -/
theorem cuts_of_run {state state' : State} (hs : state.Reached w)
    (hr : Reads .operand w ts state.stand) (hstuck : (go n state.stand place cs).stuck = none)
    (hrun : (go n state.stand place cs).row.foldlM take state = .ok state') :
    Cuts w cs ((go n state.stand place cs).row.map Token.terminal) := by
  induction n generalizing state w ts place cs with
  | zero => cases hstuck
  | succ n ih =>
    rcases front_cases state.stand cs with hgap | ⟨gap, c, r, hgap, hc, hnone, rfl⟩ |
      ⟨gap, t, rest, hgap, hat, rfl⟩
    · rw [go_gap hgap]
      have hdone : Cuts w cs [] := .done hgap
      exact hdone
    · rw [go_stuck hgap hc hnone] at hstuck
      cases hstuck
    · rw [go_take hgap hat] at hstuck hrun ⊢
      rw [row_cons, List.foldlM_cons] at hrun
      rw [row_cons, List.map_cons]
      cases htake : state.take t with
      | error r =>
        rw [htake] at hrun
        cases hrun
      | ok state'' =>
        rw [htake] at hrun
        obtain ⟨hfits, hstand⟩ := take_fits htake
        have hreached := take_reached hs htake
        have hr' := hr.append (.one t hfits)
        rw [← hstand] at hstuck hrun hr' ⊢
        exact cuts_token hr hgap hat (continues_of_reached hreached) (ih hreached hr' hstuck hrun)

/-- What the grammar cuts from a text is a row of tokens. -/
theorem reads_of_cuts {σ : Stand} (h : Cuts w cs ws) (hr : Reads .operand w ts σ) :
    ∃ us σ', Reads σ ws us σ' := by
  induction h generalizing ts σ with
  | done _ => exact ⟨[], σ, .nil⟩
  | take _ hlongest _ ih =>
    obtain ⟨u, rfl, hfits⟩ := hlongest.continues.token hr
    obtain ⟨us, σ', hus⟩ := ih (hr.append (.one u hfits))
    exact ⟨u :: us, σ', .cons hfits hus⟩

/-- The longest terminal with which a sentence can go on is the one of the token that is found. -/
theorem at?_of_longest {σ : Stand} {u : Token} (h : LongestAt w cs u.terminal)
    (hr : Reads .operand w ts σ) (hu : u.fits σ = true) : Token.at? σ cs = some u := by
  have hprefix : u.text.toList <+: cs := by
    rw [← Token.terminal_text]
    exact h.isPrefix
  refine Token.at?_of_longest hu h.spelled hprefix fun t hfits hspelled hprefix' => ?_
  cases hc : t.closes with
  | true =>
    -- what ends something is a single character, which no token at the front is shorter than
    obtain ⟨c, hc⟩ := Token.text_of_closes hc
    obtain ⟨d, r, hd, -⟩ := Token.head_not_gap hu h.spelled
    rw [hc, hd]
    simp
  | false =>
    have hlongest := h.longest t.terminal hspelled (by rwa [Token.terminal_text])
      (h.continues.other hr hfits hc)
    simpa using hlongest

/-- What the grammar cuts from a text is found there. -/
theorem row_of_cuts {σ σ' : Stand} {us : List Token} (h : Cuts w cs ws)
    (hr : Reads .operand w ts σ) (hus : Reads σ ws us σ') (n : Nat) (hn : cs.length < n)
    (place : Position) : (go n σ place cs).row = us ∧ (go n σ place cs).stuck = none := by
  induction h generalizing ts σ us n place with
  | done hgap =>
    cases hus
    cases n with
    | zero => cases hn
    | succ n =>
      rw [go_gap hgap]
      exact ⟨rfl, rfl⟩
  | @take w gap x rest ws hgap hlongest _ ih =>
    generalize hrow : x :: ws = row at hus
    cases hus with
    | nil => cases hrow
    | @cons _ u _ us _ hfits hus =>
      cases hrow
      have hat := at?_of_longest hlongest hr hfits
      rw [Token.terminal_text] at hat hn ⊢
      cases n with
      | zero => cases hn
      | succ n =>
        have hlen := length_lt_of_at? hat hn
        obtain ⟨hrow, hstuck⟩ :=
          ih (hr.append (.one u hfits)) hus n hlen (place.afterAll (gap ++ u.text.toList))
        rw [go_take hgap hat]
        exact ⟨congrArg (u :: ·) hrow, hstuck⟩

theorem length_lt (s : String) : s.toList.length < s.length + 1 := by
  rw [String.length_toList]
  exact Nat.lt_succ_self _

/-- What the grammar cuts from a whole text is found in it. -/
theorem row_ofText {s : String} {σ : Stand} (h : Cuts [] s.toList ws)
    (hts : Reads .operand ws ts σ) : (ofText s).row = ts ∧ (ofText s).stuck = none :=
  row_of_cuts h .nil hts _ (length_lt s) .start

/-- There is one way to cut a text. -/
theorem cuts_unique {ws' : List Terminal} (h : Cuts [] cs ws) (h' : Cuts [] cs ws') : ws = ws' := by
  obtain ⟨us, σ, hus⟩ := reads_of_cuts h .nil
  obtain ⟨us', σ', hus'⟩ := reads_of_cuts h' .nil
  have hlen := Nat.lt_succ_self cs.length
  obtain ⟨hrow, -⟩ := row_of_cuts h .nil hus _ hlen .start
  obtain ⟨hrow', -⟩ := row_of_cuts h' .nil hus' _ hlen .start
  rw [← hus.terminals, ← hus'.terminals, ← hrow, ← hrow']

end Cut

/-! ## Reading a text -/

namespace Expr

open Grammar State

variable {ws : List Terminal} {p q : Phrase} {e : Expr} {s : String}

/-- A sentence is taken whole, and gives the expression of its tree. -/
theorem run_of_derives (h : Derives sequence ws p) :
    ∃ ts, Reads .operand ws ts .operator ∧
      Reaches (awaiting []) ts p.expr? fun e state => state.finish? = some e := by
  obtain ⟨ts, hts, hrun⟩ := readable h
  refine ⟨ts, hts, (hrun [] trivial).mono ?_⟩
  rintro e _ ⟨frames, e', rfl, hcomplete⟩
  simp only [finish?, hcomplete]

/-- The trees of a sentence have one expression. -/
theorem expr?_unique (hp : Derives sequence ws p) (hq : Derives sequence ws q) :
    p.expr? = q.expr? := by
  obtain ⟨ts, hts, hrun⟩ := run_of_derives hp
  obtain ⟨us, hus, hrun'⟩ := run_of_derives hq
  obtain ⟨rfl, -⟩ := hts.unique hus
  exact hrun.unique hrun' fun e f state he hf => Option.some.inj (he.symm.trans hf)

/-- A sentence has one derivation. -/
theorem derives_unique (hp : Derives sequence ws p) (hq : Derives sequence ws q) : p = q :=
  hp.eq_of_plain hq (expr?_unique hp.plain hq.plain)

theorem takeAll_ok {tokens : List (Token × Position)} {stuck : Option Position}
    {state state' : State} :
    takeAll stuck state tokens = .ok state' ↔
      stuck = none ∧ (tokens.map (·.1)).foldlM take state = .ok state' := by
  induction tokens generalizing state with
  | nil =>
    cases stuck with
    | none => simp [takeAll, pure, Except.pure]
    | some place => simp [takeAll]
  | cons t tokens ih =>
    obtain ⟨t, place⟩ := t
    rw [List.map_cons, List.foldlM_cons]
    unfold takeAll
    cases htake : state.take t with
    | ok state'' => exact ih
    | error r =>
      refine iff_of_false (fun h => ?_) (fun h => ?_)
      · split at h
        · contradiction
        all_goals cases h
      · cases h.2

theorem takeAll_valueless {tokens : List (Token × Position)} {state : State}
    (h : (tokens.map (·.1)).foldlM take state = .error .valueless) :
    takeAll none state tokens = .error .valueless := by
  induction tokens generalizing state with
  | nil => cases h
  | cons t tokens ih =>
    obtain ⟨t, place⟩ := t
    rw [List.map_cons, List.foldlM_cons] at h
    unfold takeAll
    cases htake : state.take t with
    | ok state' =>
      rw [htake] at h
      exact ih h
    | error r =>
      rw [htake] at h
      cases h
      cases tokens <;> rfl

/-- A text is read if all of it is cut into tokens that are taken, and nothing is open behind them. -/
theorem parse_ok : parse s = .ok e ↔
    (Cut.ofText s).stuck = none ∧
      ∃ state, (Cut.ofText s).row.foldlM take (awaiting []) = .ok state ∧ state.finish? = some e := by
  have hcut : ofCut (Cut.ofText s) = .ok e ↔
      ∃ state, takeAll (Cut.ofText s).stuck (awaiting []) (Cut.ofText s).tokens = .ok state ∧
        state.finish? = some e := by
    unfold ofCut
    cases hall : takeAll (Cut.ofText s).stuck (awaiting []) (Cut.ofText s).tokens with
    | error f => simp [bind, Except.bind]
    | ok state =>
      cases hfinish : state.finish? with
      | none => simp [bind, Except.bind, hfinish]
      | some e' => simp [bind, Except.bind, hfinish, pure, Except.pure]
  have hparse : parse s = .ok e ↔ ofCut (Cut.ofText s) = .ok e := by
    unfold parse
    split <;> simp_all
  simp only [hparse, hcut, takeAll_ok, Cut.row]
  exact ⟨fun ⟨state, ⟨hstuck, hrun⟩, hfinish⟩ => ⟨hstuck, state, hrun, hfinish⟩,
    fun ⟨hstuck, state, hrun, hfinish⟩ => ⟨state, ⟨hstuck, hrun⟩, hfinish⟩⟩

/-- What is read is derived from the terminals that the grammar cuts from the text. -/
theorem cuts_of_parse (h : parse s = .ok e) :
    ∃ ws, Cuts [] s.toList ws ∧ DerivedSequence ws e := by
  obtain ⟨hstuck, state, hrun, hfinish⟩ := parse_ok.mp h
  obtain ⟨hreached, -⟩ := run_reached reached_nil hrun
  exact ⟨_, Cut.cuts_of_run reached_nil .nil hstuck hrun, finish_derived hreached hfinish⟩

/-- A text that is cut into a sentence is read, unless one of its literals has no value. -/
theorem parse_of_cuts (hc : Cuts [] s.toList ws) (hd : Derives sequence ws p) :
    parse s = p.expr?.elim (.error (.unreadable s none)) .ok := by
  obtain ⟨ts, hts, hrun⟩ := run_of_derives hd
  obtain ⟨rfl, hstuck⟩ := Cut.row_ofText hc hts
  cases he : p.expr? with
  | some e =>
    rw [he] at hrun
    obtain ⟨state, hrun, hfinish⟩ := hrun
    exact parse_ok.mpr ⟨hstuck, state, hrun, hfinish⟩
  | none =>
    rw [he] at hrun
    unfold parse ofCut
    rw [hstuck, takeAll_valueless hrun]
    rfl

/-- A text is read if and only if it can be cut into a sentence of which the literals have values,
and what is read is the expression of the derivation. If a literal has none, that is the error.
There is one way to cut a text, and one derivation of a sentence. -/
theorem a_text_is_read_exactly_if_the_grammar_derives_it (s : String) :
    (∀ e, parse s = .ok e ↔
      ∃ ws p, Cuts [] s.toList ws ∧ Derives sequence ws p ∧ p.expr? = some e) ∧
    (∀ ws p, Cuts [] s.toList ws → Derives sequence ws p → p.expr? = none →
      parse s = .error (.unreadable s none)) ∧
    (∀ ws ws', Cuts [] s.toList ws → Cuts [] s.toList ws' → ws = ws') ∧
    ∀ ws p q, Derives sequence ws p → Derives sequence ws q → p = q := by
  refine ⟨fun e => ⟨fun h => ?_, ?_⟩, fun ws p hc hd he => ?_, fun ws ws' => Cut.cuts_unique,
    fun ws p q => derives_unique⟩
  · obtain ⟨ws, hc, p, hd, he⟩ := cuts_of_parse h
    exact ⟨ws, p, hc, hd, he⟩
  · rintro ⟨ws, p, hc, hd, he⟩
    rw [parse_of_cuts hc hd, he, Option.elim_some]
  · rw [parse_of_cuts hc hd, he, Option.elim_none]

/-- Two signs behind an operand are an operator and a sign. -/
example : parse "a--b" = .ok (.binary (.text "-") (.identifier (.text "a"))
    (.unary (.text "-") (.identifier (.text "b")) (.bool true))) := by
  rfl

/-- A point behind digits belongs to the number, so a part needs another one. -/
example : (parse "1.x").toOption.isSome = false ∧ (parse "1..x").toOption.isSome = true := by
  decide +kernel

end Expr
end Switchboard
