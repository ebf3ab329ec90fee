-- Where a text is refused: at the first place at which no sentence goes on. The terminals before it
-- are the beginning of a sentence, so it is not too late; and no terminal with which a sentence goes
-- on stands there, so it is not too early. A text that ends too soon is refused at its last terminal,
-- and one is refused without a place only if a literal in it has no value.
import Switchboard.Proofs.Acceptance
namespace Switchboard

open Grammar Symbol

/-! ## What goes wrong -/

namespace Grammar

/-- Behind the terminals that were taken before, the front of a text is cut into these terminals, and
the rest is left. -/
inductive Front : List Terminal → List Char → List Terminal → List Char → Prop
  | stop {taken gap rest} : (∀ c ∈ gap, Cut.isGap c = true) → Front taken (gap ++ rest) [] rest
  | take {taken gap t rest ts left} : (∀ c ∈ gap, Cut.isGap c = true) →
      LongestAt taken (t.text.toList ++ rest) t → Front (taken ++ [t]) rest ts left →
      Front taken (gap ++ (t.text.toList ++ rest)) (t :: ts) left

/-- The beginning of a sentence. -/
def Begins (ws : List Terminal) : Prop := ∃ rest p, Derives sequence (ws ++ rest) p

/-- Behind the beginning of a sentence stands something, and it is no terminal with which a sentence
goes on. -/
structure Impasse (ws : List Terminal) (here : List Char) : Prop where
  begins : Begins ws
  notGap : ∃ c r, here = c :: r ∧ Cut.isGap c = false
  hopeless : ∀ t : Terminal, t.Spelled → t.text.toList <+: here → ¬ Continues ws t

/-- A text goes wrong behind some of its characters. -/
def GoesWrong (taken : List Terminal) (cs before : List Char) : Prop :=
  ∃ ws here, Front taken cs ws here ∧ cs = before ++ here ∧ Impasse (taken ++ ws) here

/-- Where the last of the terminals starts that a text is cut into, or the text if there is none. -/
def LastAt (cs : List Char) (ws : List Terminal) (place : Position) : Prop :=
  (ws = [] ∧ place = .start) ∨ ∃ front t before gap, ws = front ++ [t] ∧
    cs = before ++ (t.text.toList ++ gap) ∧ (∀ c ∈ gap, Cut.isGap c = true) ∧
    place = .behind before

/-- A text ends too soon: the whole of it is the beginning of a sentence, but no sentence. -/
def BreaksOff (cs : List Char) (place : Position) : Prop :=
  ∃ ws, Cuts [] cs ws ∧ Begins ws ∧ (∀ p, ¬ Derives sequence ws p) ∧ LastAt cs ws place

/-- One of the literals in a text has no value. -/
def Valueless (taken : List Terminal) (cs : List Char) : Prop :=
  ∃ ws t here, Front taken cs (ws ++ [t]) here ∧ t.isOperand = true ∧ t.expr? = none

/-- Why a text is refused, and where. -/
inductive Refused (s : String) : Fault → Prop
  /-- It goes wrong at the place that is named. -/
  | wrong {before} : GoesWrong [] s.toList before →
      Refused s (.unreadable s (some (.behind before)))
  /-- It ends too soon, and the start of its last terminal is named. -/
  | short {place} : BreaksOff s.toList place → Refused s (.unreadable s (some place))
  /-- A literal has no value, and no place is named. -/
  | valueless : Valueless [] s.toList → Refused s (.unreadable s none)

variable {taken : List Terminal} {cs gap rest before : List Char} {t : Terminal}

theorem GoesWrong.behind (h : GoesWrong (taken ++ [t]) rest before)
    (hgap : ∀ c ∈ gap, Cut.isGap c = true) (hl : LongestAt taken (t.text.toList ++ rest) t) :
    GoesWrong taken (gap ++ (t.text.toList ++ rest)) (gap ++ t.text.toList ++ before) := by
  obtain ⟨ws, here, hfront, rfl, himpasse⟩ := h
  refine ⟨t :: ws, here, .take hgap hl hfront, by simp, ?_⟩
  simpa using himpasse

theorem Valueless.behind (h : Valueless (taken ++ [t]) rest)
    (hgap : ∀ c ∈ gap, Cut.isGap c = true) (hl : LongestAt taken (t.text.toList ++ rest) t) :
    Valueless taken (gap ++ (t.text.toList ++ rest)) := by
  obtain ⟨ws, u, here, hfront, hu⟩ := h
  exact ⟨t :: ws, u, here, .take hgap hl hfront, hu⟩

end Grammar

namespace Expr.State

variable {state state' : State} {ts : List Token} {t : Token} {w : List Terminal}
  {cs : List Char} {σ : Stand}

/-! ## Tokens that are not taken -/

/-- A literal that is taken has a value. -/
theorem valued_of_take (h : state.take t = .ok state') (hop : t.terminal.isOperand = true) :
    t.terminal.expr?.isSome = true := by
  cases take_ok_iff.mp h with
  | operand he => exact Option.isSome_of_mem (operand?_terminal he)
  | part => rfl
  | _ => cases hop

theorem valued_of_run (h : ts.foldlM take state = .ok state') :
    ∀ t ∈ ts.map Token.terminal, t.isOperand = true → t.expr?.isSome = true := by
  induction ts generalizing state with
  | nil => exact List.forall_mem_nil _
  | cons t ts ih =>
    rw [List.foldlM_cons] at h
    cases hu : state.take t with
    | error r =>
      rw [hu] at h
      cases h
    | ok u =>
      rw [hu] at h
      exact List.forall_mem_cons.mpr ⟨valued_of_take hu, ih h⟩

theorem takeOperator_ne_valueless {frames : List Frame} {e : Expr} :
    takeOperator frames e t ≠ .error .valueless := by
  intro h
  unfold takeOperator takeComma at h
  split at h
  all_goals first
    | cases h
    | split at h <;> cases h

/-- A literal is refused because it has no value where an operand is wanted. -/
theorem valueless_of_take (h : state.take t = .error .valueless) :
    t.fits state.stand = true ∧ t.terminal.isOperand = true ∧ t.terminal.expr? = none := by
  unfold take at h
  split at h
  · unfold takeOperand at h
    split at h
    · cases h
    · rename_i hnone
      obtain ⟨hfits, -⟩ := operand?_fits hnone
      refine ⟨hfits, ?_⟩
      cases t <;> first | exact ⟨rfl, Option.some.inj hnone⟩ | cases hnone
    · split at h <;> cases h
  · exact absurd h takeOperator_ne_valueless
  · cases h
  · cases h

/-- A token that could stand there is refused only if it ends what is not open. -/
theorem closes_of_refused (hfits : t.fits state.stand = true)
    (h : state.take t = .error .unexpected) : t.closes = true := by
  by_contra hc
  obtain ⟨state', hok⟩ := take_ok hfits (by simpa using hc)
  cases hop : t.terminal.isOperand with
  | false =>
    have hplain : t.plain = t := by
      cases t <;> first | rfl | cases hop
    rw [hplain, h] at hok
    cases hok
  | true =>
    cases state with
    | awaiting frames =>
      rw [take_operand hop] at h
      cases he : t.terminal.expr? <;> simp [he] at h
    | holding frames e =>
      rw [Token.terminal_of_operator hfits] at hop
      cases hop
    | naming frames o =>
      obtain ⟨s, rfl⟩ := Token.name_of_part hfits
      cases h

/-- A token that goes on with a sentence is taken, if it has a value. -/
theorem take_of_continues (hrun : ts.foldlM take (awaiting []) = .ok state)
    (hfits : t.fits state.stand = true)
    (hv : t.terminal.isOperand = true → t.terminal.expr?.isSome = true)
    (hc : Continues (ts.map Token.terminal) t.terminal) : ∃ state', state.take t = .ok state' := by
  obtain ⟨rest, p, hp⟩ := hc
  -- the literals behind it may have none, so they are respelled
  have halike : Alike (ts.map Token.terminal ++ t.terminal :: rest.map Terminal.plain)
      (ts.map Token.terminal ++ t.terminal :: rest) := by
    simp [Alike, Function.comp_def]
  obtain ⟨q, hq, -⟩ := hp.respell halike
  have hvalued : q.expr?.isSome = true := by
    refine hq.valued (List.forall_mem_append.mpr ⟨valued_of_run hrun, ?_⟩)
    refine List.forall_mem_cons.mpr ⟨hv, fun u hu hop => ?_⟩
    obtain ⟨u, -, rfl⟩ := List.mem_map.mp hu
    rw [Terminal.plain_isOperand] at hop
    exact Terminal.plain_valued hop
  obtain ⟨e, he⟩ := Option.isSome_iff_exists.mp hvalued
  obtain ⟨us, hus, hreaches⟩ := run_of_derives hq
  rw [he] at hreaches
  obtain ⟨last, hlast, -⟩ := hreaches
  obtain ⟨vs, xs, σ, rfl, hvs, hxs⟩ := hus.split
  obtain ⟨-, hts⟩ := run_reached reached_nil hrun
  obtain ⟨rfl, rfl⟩ := hvs.unique hts
  rw [List.foldlM_append, hrun] at hlast
  generalize hrow : t.terminal :: rest.map Terminal.plain = row at hxs
  generalize state.stand = σ at hfits hxs
  cases hxs with
  | nil => cases hrow
  | @cons _ u _ xs _ hu _ =>
    obtain ⟨hu', -⟩ := List.cons.inj hrow
    obtain rfl := Token.eq_of_terminal hfits hu hu'
    change (state.take t >>= fun s => xs.foldlM take s) = _ at hlast
    cases ht : state.take t with
    | ok state' => exact ⟨state', rfl⟩
    | error r =>
      rw [ht] at hlast
      cases hlast

/-! ## Nothing goes on there -/

theorem begins_of_reached (h : state.Reached w) : Begins w := by
  obtain ⟨rest, e, p, hp, -⟩ := h.goes_on
  exact ⟨rest, p, hp⟩

/-- Where no token is found stands no terminal with which a sentence goes on. -/
theorem hopeless_of_none (hr : Reads .operand w ts σ) (h : Token.at? σ cs = none) (u : Terminal)
    (hu : u.Spelled) (hp : u.text.toList <+: cs) : ¬ Continues w u := by
  intro hc
  obtain ⟨u, rfl, hfits⟩ := hc.token hr
  rw [Token.terminal_text] at hp
  obtain ⟨t, ht, -⟩ := Token.at?_longest hfits hu hp
  rw [h] at ht
  cases ht

/-- Where the token that is found is refused, another one would be no help. -/
theorem hopeless_of_refused (hrun : ts.foldlM take (awaiting []) = .ok state)
    (hat : Token.at? state.stand cs = some t) (h : state.take t = .error .unexpected)
    (u : Terminal) (hu : u.Spelled) (hp : u.text.toList <+: cs) :
    ¬ Continues (ts.map Token.terminal) u := by
  intro hc
  obtain ⟨-, hts⟩ := run_reached reached_nil hrun
  obtain ⟨u, rfl, hufits⟩ := hc.token hts
  obtain ⟨hfits, hspelled, hprefix⟩ := Token.at?_some hat
  have hcloses := closes_of_refused hfits h
  -- what ends something is a single character, so nothing else stands there
  have heq : t = u := by
    rw [Token.terminal_text] at hp
    obtain ⟨t', ht', hle⟩ := Token.at?_longest hufits hu hp
    obtain ⟨c, hone⟩ := Token.text_of_closes hcloses
    obtain ⟨d, r, hhead, -⟩ := Token.head_not_gap hufits hu
    rw [hat] at ht'
    cases ht'
    refine Token.eq_of_text hfits hufits hspelled hu (String.toList_injective ?_)
    refine ((List.prefix_of_prefix_length_le hp hprefix hle).eq_of_length ?_).symm
    refine Nat.le_antisymm hle ?_
    rw [hone, hhead]
    exact Nat.succ_le_succ (Nat.zero_le _)
  subst heq
  have hmark : t.terminal.isOperand = false := by
    cases t <;> first | rfl | cases hcloses
  obtain ⟨state', hok⟩ := take_of_continues hrun hfits (by simp [hmark]) hc
  rw [h] at hok
  cases hok

/-- An operand that can stand there goes on with a sentence, whether it has a value or not. -/
theorem continues_of_operand (hs : state.Reached w) (hr : Reads .operand w ts state.stand)
    (hfits : t.fits state.stand = true) (hop : t.terminal.isOperand = true) :
    Continues w t.terminal := by
  have hcloses : t.closes = false := by
    cases t <;> first | rfl | cases hop
  obtain ⟨state', hok⟩ := take_ok hfits hcloses
  have hplain := continues_of_reached (take_reached hs hok)
  exact hplain.other hr hfits hcloses

/-! ## Taking the tokens of a text -/

variable {n : Nat} {place : Position} {gap rest : List Char} {f : Failure}

/-- What a failure says of the text that is cut from a place on. -/
def Explains (taken : List Terminal) (cs : List Char) (place : Position) : Failure → Prop
  | .at p => ∃ before, GoesWrong taken cs before ∧ p = place.afterAll before
  | .valueless => Valueless taken cs

theorem Explains.behind {t : Terminal}
    (h : Explains (w ++ [t]) rest (place.afterAll (gap ++ t.text.toList)) f)
    (hgap : ∀ c ∈ gap, Cut.isGap c = true) (hl : LongestAt w (t.text.toList ++ rest) t) :
    Explains w (gap ++ (t.text.toList ++ rest)) place f := by
  match f, h with
  | .at _, ⟨before, hwrong, rfl⟩ =>
    exact ⟨_, hwrong.behind hgap hl, by simp only [Position.afterAll_append]⟩
  | .valueless, h => exact Valueless.behind h hgap hl

/-- Where no token is found, the text goes wrong. -/
theorem goesWrong_of_none {c : Char} (hbegins : Begins w) (hr : Reads .operand w ts σ)
    (hgap : ∀ c ∈ gap, Cut.isGap c = true) (hc : Cut.isGap c = false)
    (hnone : Token.at? σ (c :: rest) = none) : GoesWrong w (gap ++ c :: rest) gap := by
  refine ⟨[], c :: rest, .stop hgap, rfl, ?_⟩
  rw [List.append_nil]
  exact ⟨hbegins, ⟨c, rest, rfl, hc⟩, hopeless_of_none hr hnone⟩

/-- Where the token that is found is refused, the text goes wrong. -/
theorem goesWrong_of_refused (hrun : ts.foldlM take (awaiting []) = .ok state)
    (hgap : ∀ c ∈ gap, Cut.isGap c = true)
    (hat : Token.at? state.stand (t.text.toList ++ rest) = some t)
    (h : state.take t = .error .unexpected) :
    GoesWrong (ts.map Token.terminal) (gap ++ (t.text.toList ++ rest)) gap := by
  obtain ⟨hreached, -⟩ := run_reached reached_nil hrun
  obtain ⟨hfits, hspelled, -⟩ := Token.at?_some hat
  obtain ⟨c, r, hhead, hc⟩ := Token.head_not_gap hfits hspelled
  refine ⟨[], _, .stop hgap, rfl, ?_⟩
  rw [List.append_nil]
  exact ⟨begins_of_reached hreached, ⟨c, r ++ rest, by rw [hhead, List.cons_append], hc⟩,
    hopeless_of_refused hrun hat h⟩

/-- What cannot be cut at all goes wrong there. -/
theorem goesWrong_of_stuck {p : Position} (hbegins : Begins w) (hr : Reads .operand w ts σ)
    (hn : cs.length < n) (htokens : (Cut.go n σ place cs).tokens = [])
    (hstuck : (Cut.go n σ place cs).stuck = some p) :
    ∃ before, GoesWrong w cs before ∧ p = place.afterAll before := by
  cases n with
  | zero => cases hn
  | succ n =>
    rcases Cut.front_cases σ cs with hgap | ⟨gap, c, r, hgap, hc, hnone, rfl⟩ |
      ⟨gap, t, rest, hgap, hat, rfl⟩
    · rw [Cut.go_gap hgap] at hstuck
      cases hstuck
    · rw [Cut.go_stuck hgap hc hnone] at hstuck
      cases hstuck
      exact ⟨gap, goesWrong_of_none hbegins hr hgap hc hnone, rfl⟩
    · rw [Cut.go_take hgap hat] at htokens
      cases htokens

/-- A literal without a value is the failure, unless what stands behind it cannot be cut. -/
theorem takeAll_of_valueless {tokens : List (Token × Position)} {stuck : Option Position}
    {p : Position} (h : state.take t = .error .valueless)
    (hall : takeAll stuck state ((t, p) :: tokens) = .error f) :
    f = .valueless ∨ ∃ p', tokens = [] ∧ stuck = some p' ∧ f = .at p' := by
  unfold takeAll at hall
  rw [h] at hall
  cases tokens with
  | nil =>
    cases stuck with
    | none =>
      cases hall
      exact .inl rfl
    | some p' =>
      cases hall
      exact .inr ⟨p', rfl, rfl, rfl⟩
  | cons u tokens =>
    cases hall
    exact .inl rfl

theorem run_concat (hrun : ts.foldlM take (awaiting []) = .ok state)
    (h : state.take t = .ok state') : (ts ++ [t]).foldlM take (awaiting []) = .ok state' := by
  rw [List.foldlM_append, hrun]
  change (state.take t >>= fun s => pure s) = _
  rw [h]
  rfl

/-- A token that is not taken is what the failure is about, or what stands behind it. -/
theorem explains_of_refused {r : Refusal} (hrun : ts.foldlM take (awaiting []) = .ok state)
    (hgap : ∀ c ∈ gap, Cut.isGap c = true)
    (hat : Token.at? state.stand (t.text.toList ++ rest) = some t) (hn : rest.length < n)
    (htake : state.take t = .error r)
    (h : takeAll (Cut.go n t.next (place.afterAll (gap ++ t.text.toList)) rest).stuck state
      ((t, place.afterAll gap) ::
        (Cut.go n t.next (place.afterAll (gap ++ t.text.toList)) rest).tokens) = .error f) :
    Explains (ts.map Token.terminal) (gap ++ (t.text.toList ++ rest)) place f := by
  cases r with
  | unexpected =>
    unfold takeAll at h
    rw [htake] at h
    cases h
    exact ⟨gap, goesWrong_of_refused hrun hgap hat htake, rfl⟩
  | valueless =>
    obtain ⟨hreached, hr⟩ := run_reached reached_nil hrun
    obtain ⟨hfits, hop, hnone⟩ := valueless_of_take htake
    have hcontinues := continues_of_operand hreached hr hfits hop
    have hlongest := Cut.longestAt_of_at? hr hat hcontinues
    rw [← t.terminal_text] at hlongest ⊢
    rcases takeAll_of_valueless htake h with rfl | ⟨p, htokens, hstuck, rfl⟩
    · exact ⟨[], t.terminal, rest, .take hgap hlongest (.stop (List.forall_mem_nil _)), hop, hnone⟩
    · have hbegins : Begins (ts.map Token.terminal ++ [t.terminal]) := by
        obtain ⟨more, p, hp⟩ := hcontinues
        exact ⟨more, p, by simpa using hp⟩
      have hwrong := goesWrong_of_stuck hbegins (hr.append (.one t hfits)) hn htokens hstuck
      rw [← t.terminal_text] at hwrong
      exact Explains.behind (f := .at p) hwrong hgap hlongest

/-- A failure is about the first token that is not taken, or about what stands where none is found. -/
theorem explains_of_takeAll (hn : cs.length < n) (hrun : ts.foldlM take (awaiting []) = .ok state)
    (h : takeAll (Cut.go n state.stand place cs).stuck state
      (Cut.go n state.stand place cs).tokens = .error f) :
    Explains (ts.map Token.terminal) cs place f := by
  induction n generalizing ts state place cs with
  | zero => cases hn
  | succ n ih =>
    obtain ⟨hreached, hr⟩ := run_reached reached_nil hrun
    rcases Cut.front_cases state.stand cs with hgap | ⟨gap, c, r, hgap, hc, hnone, rfl⟩ |
      ⟨gap, t, rest, hgap, hat, rfl⟩
    · rw [Cut.go_gap hgap] at h
      cases h
    · rw [Cut.go_stuck hgap hc hnone] at h
      cases h
      exact ⟨gap, goesWrong_of_none (begins_of_reached hreached) hr hgap hc hnone, rfl⟩
    · have hlen := Cut.length_lt_of_at? hat hn
      rw [Cut.go_take hgap hat] at h
      cases htake : state.take t with
      | error r => exact explains_of_refused hrun hgap hat hlen htake h
      | ok state' =>
        unfold takeAll at h
        rw [htake] at h
        obtain ⟨-, hstand⟩ := take_fits htake
        have hcontinues := continues_of_reached (take_reached hreached htake)
        have hlongest := Cut.longestAt_of_at? hr hat hcontinues
        rw [← hstand] at h
        have hexplains := ih hlen (run_concat hrun htake) h
        rw [List.map_append, List.map_singleton, ← t.terminal_text] at hexplains
        rw [← t.terminal_text] at hlongest ⊢
        exact hexplains.behind hgap hlongest

/-! ## Texts that end too soon -/

/-- The last token that is cut, and where it starts. -/
theorem last_of_go (hn : cs.length < n) (hstuck : (Cut.go n σ place cs).stuck = none) :
    ((Cut.go n σ place cs).tokens = [] ∧ ∀ c ∈ cs, Cut.isGap c = true) ∨
      ∃ front t before gap, (Cut.go n σ place cs).tokens = front ++ [(t, place.afterAll before)] ∧
        cs = before ++ (t.text.toList ++ gap) ∧ ∀ c ∈ gap, Cut.isGap c = true := by
  induction n generalizing σ place cs with
  | zero => cases hn
  | succ n ih =>
    rcases Cut.front_cases σ cs with hgap | ⟨gap, c, r, hgap, hc, hnone, rfl⟩ |
      ⟨gap, t, rest, hgap, hat, rfl⟩
    · rw [Cut.go_gap hgap]
      exact .inl ⟨rfl, hgap⟩
    · rw [Cut.go_stuck hgap hc hnone] at hstuck
      cases hstuck
    · have hlen := Cut.length_lt_of_at? hat hn
      rw [Cut.go_take hgap hat] at hstuck ⊢
      refine .inr ?_
      rcases ih hlen hstuck with ⟨hnil, hend⟩ | ⟨front, u, before, gap', htokens, rfl, hend⟩
      · exact ⟨[], t, gap, rest, by rw [hnil]; rfl, rfl, hend⟩
      · refine ⟨(t, place.afterAll gap) :: front, u, gap ++ t.text.toList ++ before, gap', ?_, ?_,
          hend⟩
        · dsimp only
          rw [htokens, ← Position.afterAll_append, List.cons_append]
        · simp

/-- A text of which all tokens are taken is a sentence if nothing is open at its end. -/
theorem finish_of_derives {p : Phrase} (hrun : ts.foldlM take (awaiting []) = .ok state)
    (hd : Derives sequence (ts.map Token.terminal) p) : ∃ e, state.finish? = some e := by
  obtain ⟨e, he⟩ := Option.isSome_iff_exists.mp (hd.valued (valued_of_run hrun))
  obtain ⟨-, hts⟩ := run_reached reached_nil hrun
  obtain ⟨us, hus, hreaches⟩ := run_of_derives hd
  obtain ⟨rfl, -⟩ := hus.unique hts
  rw [he] at hreaches
  obtain ⟨state', hrun', hfinish⟩ := hreaches
  rw [hrun] at hrun'
  cases hrun'
  exact ⟨e, hfinish⟩

/-- If all tokens are taken and something is open, the text ends too soon. -/
theorem breaksOff_of_finish {s : String}
    (h : takeAll (Cut.ofText s).stuck (awaiting []) (Cut.ofText s).tokens = .ok state)
    (hfinish : state.finish? = none) : BreaksOff s.toList (Cut.ofText s).last := by
  obtain ⟨hstuck, hrun⟩ := takeAll_ok.mp h
  obtain ⟨hreached, -⟩ := run_reached reached_nil hrun
  have hlen := Cut.length_lt s
  refine ⟨(Cut.ofText s).row.map Token.terminal, Cut.cuts_of_run reached_nil .nil hstuck hrun,
    begins_of_reached hreached, fun p hp => ?_, ?_⟩
  · obtain ⟨e, he⟩ := finish_of_derives hrun hp
    rw [hfinish] at he
    cases he
  · rcases last_of_go hlen hstuck with ⟨hnil, -⟩ | ⟨front, t, before, gap, htokens, hcs, hgap⟩
    · exact .inl ⟨by rw [Cut.row, Cut.ofText, hnil]; rfl, by rw [Cut.last, Cut.ofText, hnil]; rfl⟩
    · refine .inr ⟨front.map (·.1.terminal), t.terminal, before, gap, ?_, ?_, hgap, ?_⟩
      · rw [Cut.row, Cut.ofText, htokens]
        simp
      · rw [Token.terminal_text]
        exact hcs
      · rw [Cut.last, Cut.ofText, htokens, List.getLast?_concat, Position.afterAll_start]
        rfl

end Expr.State

namespace Expr

open State

theorem ofCut_error {cut : Cut} {f : Failure} (h : ofCut cut = .error f) :
    takeAll cut.stuck (awaiting []) cut.tokens = .error f ∨
      ∃ state, takeAll cut.stuck (awaiting []) cut.tokens = .ok state ∧ state.finish? = none ∧
        f = .at cut.last := by
  unfold ofCut at h
  cases hall : takeAll cut.stuck (awaiting []) cut.tokens with
  | error f' =>
    rw [hall] at h
    cases h
    exact .inl rfl
  | ok state =>
    rw [hall] at h
    dsimp only [bind, Except.bind] at h
    split at h
    · cases h
    · rename_i hfinish
      cases h
      exact .inr ⟨state, rfl, hfinish, rfl⟩

/-- A text that is refused goes wrong where it is refused, or it ends too soon and is refused at its
last terminal. It is refused without a place only if one of its literals has no value. -/
theorem a_text_is_refused_where_no_sentence_goes_on (s : String) (fault : Fault)
    (h : parse s = .error fault) : Refused s fault := by
  have hlen := Cut.length_lt s
  have hnil : ([] : List Token).foldlM take (awaiting []) = .ok (awaiting []) := rfl
  have hplace : ∀ place, ofCut (Cut.ofText s) = .error (.at place) →
      Refused s (.unreadable s (some place)) := by
    intro place hf
    rcases ofCut_error hf with hall | ⟨state, hall, hfinish, hlast⟩
    · obtain ⟨before, hwrong, rfl⟩ := explains_of_takeAll hlen hnil hall
      rw [Position.afterAll_start]
      exact .wrong hwrong
    · cases hlast
      exact .short (breaksOff_of_finish hall hfinish)
  unfold parse at h
  split at h
  · cases h
  · rename_i place hf
    cases h
    exact hplace place hf
  · rename_i hf
    cases h
    rcases ofCut_error hf with hall | ⟨state, -, -, hlast⟩
    · exact .valueless (explains_of_takeAll hlen hnil hall)
    · cases hlast

/-- Between a question mark and its colon a comma goes on with nothing, however deep it stands. -/
theorem a_comma_before_the_colon_is_refused :
    parse "f(a,\n [b ? --c, d])" =
        .error (.unreadable "f(a,\n [b ? --c, d])" (some ⟨2, 10⟩)) ∧
      Refused "f(a,\n [b ? --c, d])" (.unreadable "f(a,\n [b ? --c, d])" (some ⟨2, 10⟩)) := by
  have h : parse "f(a,\n [b ? --c, d])" =
      .error (.unreadable "f(a,\n [b ? --c, d])" (some ⟨2, 10⟩)) := by rfl
  exact ⟨h, a_text_is_refused_where_no_sentence_goes_on _ _ h⟩

/-- A bracket that is never closed is missed at the last token, and nothing at the start. -/
example : parse "[a,\n b " = .error (.unreadable "[a,\n b " (some ⟨2, 2⟩)) ∧
    parse " " = .error (.unreadable " " (some ⟨1, 1⟩)) := by
  constructor <;> rfl

end Expr
end Switchboard
