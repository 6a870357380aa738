import Variability.Proofs.Constraint.Completion
import Variability.Proofs.Constraint.Language

/-!
Where a text stops being a constraint.

A text is scanned from the left: spaces are skipped, and at any other character
the token is the longest one that the text goes on with (`ScansTo`). The first
offence is a token with which what was scanned can no longer be completed to a
sentence, a character at which no token starts, or the end of the text
(`Offence`). It stands in the line and the column that the characters in front of
it give (`Place.behind`).

What is proved (`parseResult_offence`): a text that is refused has one such
offence, and it is the one that the problem reports.
  1. The next token is the longest one (`nextToken?_eq_some_iff`), and there is
     none where no token starts (`nextToken?_eq_none_iff`).
  2. What stops the reader is an offence (`offence_of_readAll`): up to there each
     token was read, and so all of them can be completed.
  3. The reader stops at every offence (`parse_of_offence`), so there is no
     other one.
-/

namespace Variability.Constraint

/-! ## Longest tokens -/

/-- The characters start with the token, and with no longer one. -/
structure IsLongest (t : Token) (cs : List Char) : Prop where
  valid : t.Valid
  starts : t.text.toList <+: cs
  longest : ∀ u : Token, u.Valid → u.text.toList <+: cs →
    u.text.toList.length ≤ t.text.toList.length

/-- Where a name starts, a token is found that is as long as any name there. -/
theorem exists_nextToken?_name {name : String} (h : IsReference name.toList) (rest : List Char) :
    ∃ t n, nextToken? (name.toList ++ rest) = some (t, n) ∧
      name.toList.length ≤ t.text.toList.length := by
  obtain ⟨c, cs, hcs, hc⟩ := h.exists_cons
  have hlength := length_le_restLength h rest
  rw [hcs, List.cons_append, restLength_cons (isNamePart_of_isNameStart hc), List.length_cons]
    at hlength
  refine ⟨_, _, by rw [hcs, List.cons_append, nextToken?_name hc], ?_⟩
  have hreference :
      IsReference (String.ofList (c :: (cs ++ rest).take (restLength (cs ++ rest)))).toList := by
    simpa using isReference_take hc (cs ++ rest)
  rw [(isPlainName_or_ofName hreference).2, hcs]
  simp
  omega

/-- Where a token starts, one is found that is at least as long. -/
theorem exists_nextToken? {u : Token} (h : u.Valid) (rest : List Char) :
    ∃ t n, nextToken? (u.text.toList ++ rest) = some (t, n) ∧
      u.text.toList.length ≤ t.text.toList.length := by
  cases u with
  | reference name => exact exists_nextToken?_name h.reference rest
  | top => exact exists_nextToken?_name (isReference_constant (.inl rfl)) rest
  | bottom => exact exists_nextToken?_name (isReference_constant (.inr rfl)) rest
  | quotedReference | negation | opening | closing | connective =>
    exact ⟨_, _, nextToken?_append h (fun hword => by cases hword), Nat.le_refl _⟩

theorem nextToken?_eq_none_iff {cs : List Char} :
    nextToken? cs = none ↔ ∀ t : Token, t.Valid → ¬t.text.toList <+: cs := by
  constructor
  · rintro hnone t ht ⟨rest, rfl⟩
    obtain ⟨u, n, hnext, -⟩ := exists_nextToken? ht rest
    rw [hnone] at hnext
    cases hnext
  · intro hno
    cases hnext : nextToken? cs with
    | none => rfl
    | some p =>
      obtain ⟨t, n⟩ := p
      obtain ⟨ht, htake⟩ := nextToken?_sound hnext
      exact absurd (htake ▸ List.take_prefix ..) (hno t ht)

/-- Different tokens have different texts. -/
theorem Token.Valid.eq_of_text_eq {t u : Token} (ht : t.Valid) (hu : u.Valid)
    (h : t.text.toList = u.text.toList) : t = u := by
  have hends : Ends [] := fun _ hc => by cases hc
  have hnext : nextToken? (t.text.toList ++ []) = some (t, t.text.toList.length) :=
    nextToken?_append ht (fun _ => hends)
  rw [h, nextToken?_append hu (fun _ => hends)] at hnext
  exact (Prod.mk.inj (Option.some.inj hnext)).1.symm

theorem isLongest_of_nextToken? {cs : List Char} {t : Token} {n : Nat}
    (h : nextToken? cs = some (t, n)) : IsLongest t cs := by
  obtain ⟨ht, htake⟩ := nextToken?_sound h
  refine ⟨ht, htake ▸ List.take_prefix .., ?_⟩
  rintro u hu ⟨rest, rfl⟩
  obtain ⟨t', n', hnext, hle⟩ := exists_nextToken? hu rest
  rw [h] at hnext
  obtain ⟨rfl, -⟩ := Prod.mk.inj (Option.some.inj hnext)
  exact hle

/-- The next token is the longest one that the characters start with. -/
theorem nextToken?_eq_some_iff {cs : List Char} {t : Token} :
    (∃ n, nextToken? cs = some (t, n)) ↔ IsLongest t cs := by
  constructor
  · rintro ⟨n, h⟩
    exact isLongest_of_nextToken? h
  · intro h
    cases hnext : nextToken? cs with
    | none => exact absurd h.starts (nextToken?_eq_none_iff.mp hnext t h.valid)
    | some p =>
      obtain ⟨u, n⟩ := p
      have hu := isLongest_of_nextToken? hnext
      have hlength := Nat.le_antisymm (h.longest u hu.valid hu.starts)
        (hu.longest t h.valid h.starts)
      have htext := (List.prefix_of_prefix_length_le hu.starts h.starts
        (Nat.le_of_eq hlength)).eq_of_length hlength
      exact ⟨n, by rw [hu.valid.eq_of_text_eq h.valid htext]⟩

/-! ## Places -/

/-- The line and the column behind some characters: one more than the line feeds in them, and one
more than the characters behind the last one. -/
def Place.behind (before : List Char) : Place :=
  ⟨before.count '\n' + 1, (before.reverse.takeWhile (· != '\n')).length + 1⟩

theorem Place.behind_concat (before : List Char) (c : Char) :
    behind (before ++ [c]) = (behind before).after c := by
  rw [after]
  split
  · next hc => simp [behind, hc]
  · next hc => simp [behind, hc]

theorem Place.behind_append (before cs : List Char) :
    behind (before ++ cs) = (behind before).afterAll cs := by
  induction cs generalizing before with
  | nil => rw [List.append_nil]; rfl
  | cons c cs ih => rw [List.append_cons, ih, behind_concat]; rfl

/-! ## Scanning from the left -/

/-- Reading the text up to `rest` gives the lexemes. -/
inductive ScansTo (text : List Char) : List Lexeme → List Char → List Char → Prop
  | start : ScansTo text [] [] text
  | space {ls : List Lexeme} {before rest : List Char} {c : Char}
      (h : ScansTo text ls before (c :: rest)) (hc : isSpace c) :
      ScansTo text ls (before ++ [c]) rest
  | token {ls : List Lexeme} {before rest : List Char} {t : Token}
      (h : ScansTo text ls before (t.text.toList ++ rest))
      (ht : IsLongest t (t.text.toList ++ rest)) :
      ScansTo text (ls ++ [⟨t, .behind before⟩]) (before ++ t.text.toList) rest

namespace ScansTo

variable {text : List Char} {ls : List Lexeme} {before rest : List Char}

/-- What was scanned and what is left make up the text. -/
theorem append_eq (h : ScansTo text ls before rest) : before ++ rest = text := by
  induction h with
  | start => rfl
  | space h hc ih => rwa [List.append_assoc, List.singleton_append]
  | token h ht ih => rwa [List.append_assoc]

theorem valid (h : ScansTo text ls before rest) : ∀ t ∈ ls.map Lexeme.token, t.Valid := by
  induction h with
  | start => simp
  | space h hc ih => exact ih
  | token h ht ih =>
    rw [List.map_append]
    exact List.forall_mem_append.mpr ⟨ih, List.forall_mem_singleton.mpr ht.valid⟩

end ScansTo

/-- The place of the last lexeme, or the start of the text. -/
def lastPlace (ls : List Lexeme) : Place := (ls.getLast?.map Lexeme.place).getD .start

theorem lastPlace_concat (ls : List Lexeme) (l : Lexeme) : lastPlace (ls ++ [l]) = l.place := by
  rw [lastPlace, List.getLast?_concat]
  rfl

theorem scanFrom_of_no_token {c : Char} {cs : List Char} (hc : isSpace c = false)
    (h : ∀ t : Token, t.Valid → ¬t.text.toList <+: c :: cs) (p : Place) :
    scanFrom p (c :: cs) = ⟨[], some ⟨c, p⟩⟩ := by
  have hnone := nextToken?_eq_none_iff.mpr h
  rw [scanFrom, if_neg (by simp [hc])]
  split
  · rfl
  · next hsome =>
    rw [hnone] at hsome
    cases hsome

/-- The first offence in a text. -/
inductive Offence (text : List Char) : ParseError → Prop
  /-- With the token, what comes before it can no longer be completed to a sentence. -/
  | unexpected {ls : List Lexeme} {before rest : List Char} {t : Token}
      (h : ScansTo text ls before rest) (ht : IsLongest t rest)
      (completable : Completable (ls.map Lexeme.token))
      (not_completable : ¬Completable (ls.map Lexeme.token ++ [t])) :
      Offence text (.unexpected ⟨t, .behind before⟩)
  /-- The character is no space, and no token starts with it. -/
  | stray {ls : List Lexeme} {before rest : List Char} {c : Char}
      (h : ScansTo text ls before (c :: rest)) (hc : isSpace c = false)
      (no_token : ∀ t : Token, t.Valid → ¬t.text.toList <+: c :: rest)
      (completable : Completable (ls.map Lexeme.token)) :
      Offence text (.stray ⟨c, .behind before⟩)
  /-- The tokens of the whole text can be completed to a sentence, but are none. -/
  | unexpectedEnd {ls : List Lexeme} (h : ScansTo text ls text [])
      (completable : Completable (ls.map Lexeme.token))
      (not_sentence : ¬IsSentence (ls.map Lexeme.token)) :
      Offence text (.unexpectedEnd (lastPlace ls))

/-! ## The reader stops at the offence -/

open Progress (wanting)

section
variable {text : List Char} {ls : List Lexeme} {before rest : List Char} {s : Progress}

/-- A token can come next iff the tokens can be completed with it. -/
theorem completable_concat_iff {ts : List Token} (hts : ∀ t ∈ ts, t.Valid)
    (hs : (wanting []).run? ts = some s) {t : Token} (ht : t.Valid) :
    Completable (ts ++ [t]) ↔ ∃ s', s.step? t = some s' := by
  rw [completable_iff (List.forall_mem_append.mpr ⟨hts, List.forall_mem_singleton.mpr ht⟩),
    Progress.run?_append, hs, Option.bind_some, Progress.run?]
  simp [Progress.run?]

theorem run?_concat {ts : List Token} {t : Token} {s' : Progress}
    (hs : (wanting []).run? ts = some s) (hstep : s.step? t = some s') :
    (wanting []).run? (ts ++ [t]) = some s' := by
  rw [Progress.run?_append, hs, Option.bind_some, Progress.run?, hstep]
  rfl

/-- What stops the reader behind the tokens that were read so far is an offence. -/
theorem offence_of_readAll {e : ParseError} (p : Place) (rest : List Char) :
    ∀ {ls : List Lexeme} {before : List Char} {s : Progress}, ScansTo text ls before rest →
      (wanting []).run? (ls.map Lexeme.token) = some s → Place.behind before = p →
      readAll s.reading (lastPlace ls) (scanFrom p rest).stray (scanFrom p rest).lexemes =
        .error e → Offence text e := by
  fun_induction scanFrom p rest with
  | case1 p =>
    -- The text ends.
    intro ls before s h hs hp he
    have completable := (completable_iff h.valid).mpr ⟨s, hs⟩
    have hnot : s.finish? = none ∧ e = .unexpectedEnd (lastPlace ls) := by
      rw [readAll.eq_def, Progress.value_finish?] at he
      cases hfinish : s.finish? with
      | some q =>
        rw [hfinish] at he
        cases he
      | none =>
        rw [hfinish] at he
        exact ⟨rfl, (Except.error.inj he).symm⟩
    obtain ⟨hfinish, rfl⟩ := hnot
    have htext : before = text := by rw [← h.append_eq, List.append_nil]
    refine .unexpectedEnd (htext ▸ h) completable (fun hsentence => ?_)
    obtain ⟨q, hq⟩ := (isSentence_iff h.valid).mp hsentence
    rw [hs, Option.bind_some, hfinish] at hq
    cases hq
  | case2 p c cs hc ih =>
    -- A space is skipped.
    intro ls before s h hs hp he
    exact ih (h.space hc) hs (by rw [Place.behind_concat, hp]) he
  | case3 p c cs hc hnone =>
    intro ls before s h hs hp he
    have completable := (completable_iff h.valid).mpr ⟨s, hs⟩
    obtain rfl := Except.error.inj he
    obtain rfl := hp
    exact .stray h (Bool.eq_false_iff.mpr hc) (nextToken?_eq_none_iff.mp hnone) completable
  | case4 p c cs hc t n hnext scanned =>
    rename_i ih
    intro ls before s h hs hp he
    have hlongest := isLongest_of_nextToken? hnext
    rw [readAll, Progress.reading_step?] at he
    cases hstep : s.step? t with
    | none =>
      rw [hstep] at he
      obtain rfl := Except.error.inj he
      obtain rfl := hp
      have completable := (completable_iff h.valid).mpr ⟨s, hs⟩
      refine .unexpected h hlongest completable (fun hcompletable => ?_)
      obtain ⟨s', hs'⟩ := (completable_concat_iff h.valid hs hlongest.valid).mp hcompletable
      rw [hstep] at hs'
      cases hs'
    | some s' =>
      -- The token is read, and the rest is scanned from behind it.
      rw [hstep] at he
      have htake := (nextToken?_sound hnext).2
      have hcs := List.take_append_drop n (c :: cs)
      rw [htake] at hcs
      rw [← hcs] at h hlongest
      have hscan := h.token hlongest
      have hrun : (wanting []).run? ((ls ++ [Lexeme.mk t (.behind before)]).map Lexeme.token) =
          some s' := by
        rw [List.map_append]
        exact run?_concat hs hstep
      have hplace : Place.behind (before ++ t.text.toList) = p.afterAll ((c :: cs).take n) := by
        rw [Place.behind_append, hp, htake]
      refine ih hscan hrun hplace ?_
      rw [lastPlace_concat, hp]
      exact he

/-- What was scanned and read has no influence on how the reader goes on. -/
theorem parse_of_scansTo {text : String} {ls : List Lexeme} {before rest : List Char} {s : Progress}
    (h : ScansTo text.toList ls before rest)
    (hs : (wanting []).run? (ls.map Lexeme.token) = some s) :
    parse text = readAll s.reading (lastPlace ls) (scanFrom (.behind before) rest).stray
      (scanFrom (.behind before) rest).lexemes := by
  induction h generalizing s with
  | start =>
    obtain rfl := Option.some.inj hs
    rfl
  | space h hc ih => rw [ih hs, scanFrom, if_pos hc, Place.behind_concat]
  | @token ls before rest t h ht ih =>
    rw [List.map_append, Progress.run?_append] at hs
    obtain ⟨s₀, hs₀, hs⟩ := Option.bind_eq_some_iff.mp hs
    obtain ⟨s', hstep, hs'⟩ := Option.bind_eq_some_iff.mp hs
    obtain rfl := Option.some.inj hs'
    obtain ⟨n, hnext⟩ := nextToken?_eq_some_iff.mpr ht
    rw [ih hs₀, scanFrom_of_nextToken? hnext, readAll, Progress.reading_step?, hstep,
      Place.behind_append, lastPlace_concat]
    rfl

theorem parse_of_offence {text : String} {e : ParseError} (h : Offence text.toList e) :
    parse text = .error e := by
  cases h with
  | @unexpected ls before rest t h ht completable not_completable =>
    obtain ⟨s, hs⟩ := (completable_iff h.valid).mp completable
    have hstep : s.step? t = none := by
      rw [Option.eq_none_iff_forall_ne_some]
      intro s' hs'
      exact not_completable ((completable_concat_iff h.valid hs ht.valid).mpr ⟨s', hs'⟩)
    obtain ⟨rest, rfl⟩ := ht.starts
    obtain ⟨n, hnext⟩ := nextToken?_eq_some_iff.mpr ht
    rw [parse_of_scansTo h hs, scanFrom_of_nextToken? hnext, readAll, Progress.reading_step?, hstep]
    rfl
  | @stray ls before rest c h hc no_token completable =>
    obtain ⟨s, hs⟩ := (completable_iff h.valid).mp completable
    rw [parse_of_scansTo h hs, scanFrom_of_no_token hc no_token]
    rfl
  | @unexpectedEnd ls h completable not_sentence =>
    obtain ⟨s, hs⟩ := (completable_iff h.valid).mp completable
    have hfinish : s.finish? = none := by
      rw [Option.eq_none_iff_forall_ne_some]
      intro q hq
      exact not_sentence ((isSentence_iff h.valid).mpr ⟨q, by rw [hs]; exact hq⟩)
    rw [parse_of_scansTo h hs, scanFrom, readAll.eq_def, Progress.value_finish?, hfinish]
    rfl

end

theorem parse_eq_error_iff {text : String} {e : ParseError} :
    parse text = .error e ↔ Offence text.toList e := by
  constructor
  · intro h
    have hstart : (wanting []).run? (([] : List Lexeme).map Lexeme.token) = some (wanting []) := rfl
    exact offence_of_readAll .start text.toList .start hstart rfl h
  · exact parse_of_offence

/-- A text that is refused has one first offence, and just the problem that reports it. -/
theorem parseResult_offence (text : String) (h : (parseResult text).isPresent = false) :
    ∃ e, (∀ e', Offence text.toList e' ↔ e' = e) ∧
      parseResult text =
        ⟨none, [⟨"Could not parse constraint '" ++ text ++ "': " ++ e.message, .error⟩]⟩ := by
  cases hparse : parse text with
  | ok f =>
    rw [parseResult_eq_iff.mpr hparse] at h
    cases h
  | error e =>
    refine ⟨e, fun e' => ?_, by rw [parseResult, hparse]; rfl⟩
    rw [← parse_eq_error_iff, hparse, Except.error.injEq, eq_comm]

/-- A closing parenthesis too much, in the second line, as a quoted name holds a line feed. -/
def surplusText : String := "\"a\nb\" & (C | D))"

theorem parseResult_offence_surplus :
    (parseResult surplusText).isPresent = false ∧
      (∀ e, Offence surplusText.toList e ↔ e = .unexpected ⟨.closing, ⟨2, 13⟩⟩) ∧
      ∃ message, (parseResult surplusText).problems = [⟨message, .error⟩] := by
  have refused : (parseResult surplusText).isPresent = false := by decide +kernel
  have place : parse surplusText = .error (.unexpected ⟨.closing, ⟨2, 13⟩⟩) := by
    have hread : (match parse surplusText with
      | .error e => some e
      | .ok _ => none) = some (.unexpected ⟨.closing, ⟨2, 13⟩⟩) := by decide +kernel
    split at hread
    · next e he => rw [he, Option.some.inj hread]
    · cases hread
  obtain ⟨e, honly, hresult⟩ := parseResult_offence surplusText refused
  obtain rfl := (honly _).mp (parse_eq_error_iff.mp place)
  exact ⟨refused, honly, _, by rw [hresult]⟩

/-- At the end of a text the place is that of the last token. -/
example : (parseResult "A =>\n  ! ").problems.map Problem.message =
    ["Could not parse constraint 'A =>\n  ! ': " ++
      "Unexpected token Token('$END', '') at line 2, column 3."] := by decide +kernel

end Variability.Constraint
