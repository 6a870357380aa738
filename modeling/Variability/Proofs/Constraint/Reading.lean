import Variability.Proofs.Constraint.Grammar

/-!
Reading tokens as a phrase.

The reader keeps the formulas of what is open. The same steps with the phrases
themselves (`Progress`) lead to the phrase of a list of tokens, and the formulas
that the reader keeps are the values of these phrases (`reading_step?`,
`value_finish?`).

What is proved:
  1. `run_phrase`: where the context lets a phrase of a category come next, the
     tokens of the phrase are read, and what is then carried out of the context
     is what would be carried out in front of the whole phrase.
  2. `finish?_run_iff`: a list of tokens is read as a phrase iff it is the tokens of
     that phrase, and the phrase is a sentence of the grammar. So no list of
     tokens belongs to two sentences.
-/

namespace Variability.Constraint

/-! ## Steps on phrases -/

/-- What is open in front of a place in a constraint, with the phrases that were read. -/
inductive Open where
  | opening
  | negation
  | left (operand : Phrase) (op : Connective)

namespace Open

/-- The frame that the reader keeps. -/
def frame : Open → Frame
  | opening => .opening
  | negation => .negation
  | left p op => .left p.value op

/-- The tokens that were read. -/
def tokens : Open → List Token
  | opening => [.opening]
  | negation => [.negation]
  | left p op => p.tokens ++ [.connective op]

/-- The tokens of all that is open, the innermost last. -/
def allTokens : List Open → List Token
  | [] => []
  | o :: os => allTokens os ++ o.tokens

end Open

/-- What has been read up to a place between two tokens, as phrases. -/
inductive Progress where
  /-- An operand has to come next. -/
  | wanting (opens : List Open)
  /-- An operand has come last. -/
  | having (opens : List Open) (operand : Phrase)

namespace Progress

/-- What the reader keeps. -/
def reading : Progress → Reading
  | wanting os => .wanting (os.map Open.frame)
  | having os p => .having (os.map Open.frame) p.value

/-- Carries out the negations and the connectives of at least the given rank that stand directly
in front of a phrase. -/
def reduce (least : Nat) : List Open → Phrase → List Open × Phrase
  | .negation :: os, p => reduce least os (.negation p)
  | .left q op :: os, p =>
    if least ≤ op.rank then reduce least os (.binary op q p) else (.left q op :: os, p)
  | os, p => (os, p)

/-- Reads the next token, if it can come next. -/
def step? : Progress → Token → Option Progress
  | wanting os, .reference name => some (having os (.reference name))
  | wanting os, .quotedReference name => some (having os (.quoted name))
  | wanting os, .top => some (having os .top)
  | wanting os, .bottom => some (having os .bottom)
  | wanting os, .negation => some (wanting (.negation :: os))
  | wanting os, .opening => some (wanting (.opening :: os))
  | having os p, .connective op =>
    some (wanting (.left (reduce op.yieldsTo os p).2 op :: (reduce op.yieldsTo os p).1))
  | having os p, .closing =>
    match reduce 0 os p with
    | (.opening :: os', q) => some (having os' (.parentheses q))
    | _ => none
  | wanting _, _ | having _ _, _ => none

/-- The phrase that has been read, if nothing is open. -/
def finish? : Progress → Option Phrase
  | wanting _ => none
  | having os p =>
    match reduce 0 os p with
    | ([], q) => some q
    | _ => none

/-- Reads tokens one after the other, as long as each of them can come next. -/
def run? (s : Progress) : List Token → Option Progress
  | [] => some s
  | t :: ts => (s.step? t).bind (fun s' => s'.run? ts)

theorem run?_append {s : Progress} {ts us : List Token} :
    s.run? (ts ++ us) = (s.run? ts).bind (fun s' => s'.run? us) := by
  induction ts generalizing s with
  | nil => rfl
  | cons t ts ih =>
    rw [List.cons_append, run?, run?, Option.bind_assoc]
    exact congrArg _ (funext fun s' => ih)

/-! ## The reader keeps the values of the phrases -/

theorem value_binary (op : Connective) (p q : Phrase) :
    op.apply p.value q.value = (Phrase.binary op p q).value := by
  cases op with
  | equivalence | implication => rfl
  | disjunction => rw [Phrase.value]; cases p.value <;> rfl
  | conjunction => rw [Phrase.value]; cases p.value <;> rfl

theorem reduce_frames (least : Nat) (os : List Open) (p : Phrase) :
    Reading.reduce least (os.map Open.frame) p.value =
      ((reduce least os p).1.map Open.frame, (reduce least os p).2.value) := by
  induction os generalizing p with
  | nil => rfl
  | cons o os ih =>
    cases o with
    | opening => rfl
    | negation => exact ih (.negation p)
    | left q op =>
      rw [List.map_cons, Open.frame, Reading.reduce, reduce, value_binary, ih]
      split <;> rfl

theorem reading_step? (s : Progress) (t : Token) :
    s.reading.step? t = (s.step? t).map reading := by
  cases s with
  | wanting os => cases t <;> rfl
  | having os p =>
    cases t with
    | connective op =>
      simp only [reading, Reading.step?, reduce_frames, step?, Option.map_some, List.map_cons,
        Open.frame]
    | closing =>
      simp only [reading, Reading.step?, reduce_frames, step?]
      rcases reduce 0 os p with ⟨_ | ⟨_ | _ | _, _⟩, _⟩ <;> rfl
    | _ => rfl

theorem value_finish? (s : Progress) : s.reading.finish? = s.finish?.map Phrase.value := by
  cases s with
  | wanting os => rfl
  | having os p =>
    simp only [reading, Reading.finish?, reduce_frames, finish?]
    rcases reduce 0 os p with ⟨_ | ⟨_, _⟩, _⟩ <;> rfl

/-- Reading lexemes up to the end of a text. -/
theorem readAll_eq_ok_iff {s : Progress} {last : Place} {stray : Option Stray}
    {lexemes : List Lexeme} {f : Formula} :
    readAll s.reading last stray lexemes = .ok f ↔ stray = none ∧
      ∃ p, (s.run? (lexemes.map Lexeme.token)).bind finish? = some p ∧ p.value = f := by
  induction lexemes generalizing s last with
  | nil =>
    rw [readAll.eq_def, value_finish?, List.map_nil, run?, Option.bind_some]
    cases stray with
    | some c => simp
    | none => cases s.finish? <;> simp
  | cons lexeme lexemes ih =>
    rw [readAll, reading_step?, List.map_cons, run?]
    cases s.step? lexeme.token with
    | none => simp
    | some s' => exact ih

/-! ## Every sentence is read -/

/-- Phrases of the category may come next: no connective in them yields to what is open. -/
def Admits (c : Category) (os : List Open) : Prop :=
  ∀ op : Connective, c.rank ≤ op.rank → ∀ p, reduce op.yieldsTo os p = (os, p)

theorem Admits.mono {c c' : Category} {os : List Open} (h : Admits c os)
    (hr : c.rank ≤ c'.rank) : Admits c' os :=
  fun op hop => h op (Nat.le_trans hr hop)

/-- Behind an opening parenthesis anything may come. -/
theorem admits_opening (c : Category) (os : List Open) : Admits c (.opening :: os) :=
  fun _ _ _ => rfl

/-- No connective binds as tightly as a negation. -/
theorem admits_of_tight {c : Category} (h : 3 < c.rank) (os : List Open) : Admits c os := by
  intro op hop
  have : op.rank ≤ 3 := by cases op <;> decide
  omega

theorem admits_left (op : Connective) (q : Phrase) (os : List Open) :
    Admits op.rightCategory (.left q op :: os) := by
  intro op' hop' p
  rw [reduce, if_neg]
  revert hop'
  cases op <;> cases op' <;> decide

/-- The tokens of a phrase are read where the phrase may come next. What is carried out afterwards,
down to the rank of the phrase, is what would be carried out in front of the phrase. -/
theorem run_phrase {c : Category} {p : Phrase} (h : Derives c p) {os : List Open}
    (hos : Admits c os) :
    ∃ os' p', (wanting os).run? p.tokens = some (having os' p') ∧
      ∀ least ≤ c.rank, reduce least os' p' = reduce least os p := by
  induction h generalizing os with
  | reference | quoted | top | bottom => exact ⟨os, _, rfl, fun _ _ => rfl⟩
  | @parentheses p h ih =>
    obtain ⟨os', p', hrun, hreduce⟩ := ih (admits_opening _ os)
    refine ⟨os, .parentheses p, ?_, fun _ _ => rfl⟩
    have hclose : reduce 0 os' p' = (.opening :: os, p) := hreduce 0 (Nat.zero_le _)
    rw [Phrase.tokens, run?, step?, Option.bind_some, run?_append, hrun, Option.bind_some, run?,
      step?, hclose]
    rfl
  | @negation p h ih =>
    obtain ⟨os', p', hrun, hreduce⟩ := ih (admits_of_tight (by decide) (.negation :: os))
    exact ⟨os', p', hrun, hreduce⟩
  | @binary op p q left right ihp ihq =>
    have hle := op.rank_le_yieldsTo
    -- The left operand is put together when the connective comes, and nothing in front of it.
    obtain ⟨os₁, p₁, hrun₁, hreduce₁⟩ := ihp (hos.mono (by simpa using hle))
    have hleft : reduce op.yieldsTo os₁ p₁ = (os, p) := by
      rw [hreduce₁ _ (by simp), hos op (by simp) p]
    obtain ⟨os₂, p₂, hrun₂, hreduce₂⟩ := ihq (admits_left op p os)
    refine ⟨os₂, p₂, ?_, ?_⟩
    · rw [Phrase.tokens, run?_append, hrun₁, Option.bind_some, run?, step?, hleft]
      exact hrun₂
    · intro least hleast
      rw [Connective.rank_category] at hleast
      have hright := op.rank_le_rightCategory
      rw [hreduce₂ least (Nat.le_trans hleast hright), reduce, if_pos hleast]
  | tighter hc h ih =>
    have hrank := Category.rank_tighter hc
    obtain ⟨os', p', hrun, hreduce⟩ := ih (hos.mono (by omega))
    exact ⟨os', p', hrun, fun least hleast => hreduce least (by omega)⟩

theorem finish?_run_tokens {p : Phrase} (h : Derives .equivalence p) :
    ((wanting []).run? p.tokens).bind finish? = some p := by
  have hadmits : Admits .equivalence [] := fun _ _ _ => rfl
  obtain ⟨os', p', hrun, hreduce⟩ := run_phrase h hadmits
  have hend : reduce 0 os' p' = ([], p) := hreduce 0 (Nat.zero_le _)
  rw [hrun, Option.bind_some, finish?, hend]

/-! ## Only sentences are read -/

/-- What is open can be completed to a sentence by a phrase of the category, and no phrase of a
looser one. -/
inductive Expects : Category → List Open → Prop
  | nil : Expects .equivalence []
  | opening {c : Category} {os : List Open} (h : Expects c os) :
      Expects .equivalence (.opening :: os)
  | negation {c : Category} {os : List Open} (h : Expects c os) :
      Expects .negation (.negation :: os)
  | left {c : Category} {os : List Open} (op : Connective) {p : Phrase} (h : Expects c os)
      (hp : Derives op.leftCategory p) (hc : c.rank ≤ op.rank) :
      Expects op.rightCategory (.left p op :: os)

theorem Expects.rank_le {c : Category} {os : List Open} (h : Expects c os) : c.rank ≤ 4 := by
  cases h with
  | left op => cases op <;> decide
  | _ => decide

theorem allTokens_reduce (least : Nat) (os : List Open) (p : Phrase) :
    Open.allTokens (reduce least os p).1 ++ (reduce least os p).2.tokens =
      Open.allTokens os ++ p.tokens := by
  fun_induction reduce least os p with
  | case1 p os ih =>
    rw [ih]
    simp [Open.allTokens, Open.tokens, Phrase.tokens]
  | case2 q op os p hle ih =>
    rw [ih]
    simp [Open.allTokens, Open.tokens, Phrase.tokens]
  | case3 => rfl
  | case4 => rfl

/-- What stays open is a parenthesis, or a connective that binds too loosely to be carried out. -/
theorem head_reduce {least : Nat} {os os' : List Open} {p : Phrase} {o : Open}
    (h : (reduce least os p).1 = o :: os') :
    o = .opening ∨ ∃ q op, o = .left q op ∧ op.rank < least := by
  fun_induction reduce least os p with
  | case1 p os ih => exact ih h
  | case2 q op os p hle ih => exact ih h
  | case3 q op os p hle =>
    obtain ⟨rfl, -⟩ := List.cons.inj h
    exact Or.inr ⟨q, op, rfl, Nat.lt_of_not_le hle⟩
  | case4 os p hneg hleft =>
    subst h
    cases o with
    | opening => exact Or.inl rfl
    | negation => exact absurd rfl (hneg _)
    | left q op => exact absurd rfl (hleft q op _)

/-- The phrase that was put together is one that the context expects. -/
theorem derives_reduce {c c' : Category} {least : Nat} {os : List Open} {p : Phrase}
    (hos : Expects c os) (hp : Derives c' p) (hc : c.rank ≤ c'.rank) (hleast : least ≤ c'.rank)
    (hsmall : least ≤ 4) :
    ∃ c₁ c₁', Expects c₁ (reduce least os p).1 ∧ Derives c₁' (reduce least os p).2 ∧
      c₁.rank ≤ c₁'.rank ∧ least ≤ c₁'.rank := by
  fun_induction reduce least os p generalizing c c' with
  | case1 os p ih =>
    cases hos with
    | negation h => exact ih h (.negation (hp.weaken hc)) h.rank_le hsmall
  | case2 q op os p hle ih =>
    cases hos with
    | left _ h hq hrank =>
      exact ih h (.binary op hq (hp.weaken hc)) (by simpa using hrank) (by simpa using hle)
  | case3 | case4 => exact ⟨c, c', hos, hp, hc, hleast⟩

/-- What stays open in front of a connective lets a phrase with this connective come next. -/
theorem rank_le_of_expects {c : Category} {op : Connective} {os os' : List Open} {p : Phrase}
    (h : Expects c os') (hos : (reduce op.yieldsTo os p).1 = os') : c.rank ≤ op.rank := by
  cases h with
  | nil | opening => exact Nat.zero_le _
  | negation h =>
    rcases head_reduce hos with he | ⟨q, op', he, -⟩ <;> cases he
  | left op₀ h hp hc =>
    rcases head_reduce hos with he | ⟨q, op', he, hlt⟩
    · cases he
    · cases he
      revert hlt
      cases op <;> cases op₀ <;> decide

/-- What is open expects a phrase, and an operand that was read is one. -/
def Sound : Progress → Prop
  | wanting os => ∃ c, Expects c os
  | having os p => ∃ c, Expects c os ∧ Derives .atom p

/-- The tokens that were read. -/
def tokens : Progress → List Token
  | wanting os => Open.allTokens os
  | having os p => Open.allTokens os ++ p.tokens

theorem Sound.step? {s s' : Progress} (h : s.Sound) {t : Token} (ht : t.Valid)
    (hs : s.step? t = some s') : s'.Sound ∧ s'.tokens = s.tokens ++ [t] := by
  cases s with
  | wanting os =>
    obtain ⟨c, hos⟩ := h
    cases t with
    | connective | closing => cases hs
    | reference name => cases hs; exact ⟨⟨c, hos, .reference ht⟩, rfl⟩
    | quotedReference name => cases hs; exact ⟨⟨c, hos, .quoted ht⟩, rfl⟩
    | top => cases hs; exact ⟨⟨c, hos, .top⟩, rfl⟩
    | bottom => cases hs; exact ⟨⟨c, hos, .bottom⟩, rfl⟩
    | negation => cases hs; exact ⟨⟨_, .negation hos⟩, rfl⟩
    | opening => cases hs; exact ⟨⟨_, .opening hos⟩, rfl⟩
  | having os p =>
    obtain ⟨c, hos, hp⟩ := h
    cases t with
    | connective op =>
      cases hs
      have hsmall : op.yieldsTo ≤ 4 := by cases op <;> decide
      obtain ⟨c₁, c₁', hos₁, hp₁, -, hle⟩ := derives_reduce hos hp
        (Nat.le_trans hos.rank_le (by decide)) (Nat.le_trans hsmall (by decide)) hsmall
      refine ⟨⟨_, .left op hos₁ (hp₁.weaken (by simpa using hle))
        (rank_le_of_expects hos₁ rfl)⟩, ?_⟩
      rw [tokens, tokens, Open.allTokens, Open.tokens, ← List.append_assoc, allTokens_reduce]
    | closing =>
      obtain ⟨c₁, c₁', hos₁, hp₁, hrank, -⟩ := derives_reduce hos hp
        (Nat.le_trans hos.rank_le (by decide)) (Nat.zero_le _) (Nat.zero_le _)
      have htokens := allTokens_reduce 0 os p
      rw [Progress.step?] at hs
      split at hs
      · next os' q he =>
        rw [he] at hos₁ hp₁ htokens
        cases hs
        cases hos₁ with
        | opening hos' =>
          refine ⟨⟨_, hos', .parentheses (hp₁.weaken (Nat.zero_le _))⟩, ?_⟩
          rw [tokens, tokens, ← htokens]
          simp [Phrase.tokens, Open.allTokens, Open.tokens]
      · cases hs
    | _ => cases hs

theorem Sound.run? {s s' : Progress} (h : s.Sound) {ts : List Token} (ht : ∀ t ∈ ts, t.Valid)
    (hs : s.run? ts = some s') : s'.Sound ∧ s'.tokens = s.tokens ++ ts := by
  induction ts generalizing s with
  | nil =>
    cases hs
    exact ⟨h, (List.append_nil _).symm⟩
  | cons t ts ih =>
    obtain ⟨s₁, hs₁, hs⟩ := Option.bind_eq_some_iff.mp hs
    obtain ⟨ht₁, ht⟩ := List.forall_mem_cons.mp ht
    obtain ⟨h₁, htokens₁⟩ := h.step? ht₁ hs₁
    obtain ⟨h', htokens⟩ := ih h₁ ht hs
    refine ⟨h', ?_⟩
    rw [htokens, htokens₁, List.append_assoc, List.singleton_append]

theorem Sound.finish? {s : Progress} (h : s.Sound) {p : Phrase} (hp : s.finish? = some p) :
    Derives .equivalence p ∧ p.tokens = s.tokens := by
  cases s with
  | wanting os => cases hp
  | having os q =>
    obtain ⟨c, hos, hq⟩ := h
    obtain ⟨c₁, c₁', -, hq₁, -, -⟩ := derives_reduce hos hq
      (Nat.le_trans hos.rank_le (by decide)) (Nat.zero_le _) (Nat.zero_le _)
    have htokens := allTokens_reduce 0 os q
    rw [Progress.finish?] at hp
    split at hp
    · next q' he =>
      rw [he] at hq₁ htokens
      cases hp
      exact ⟨hq₁.weaken (Nat.zero_le _), htokens⟩
    · cases hp

/-- Tokens are read as a phrase iff they are the tokens of the phrase, which is a sentence. -/
theorem finish?_run_iff {ts : List Token} (ht : ∀ t ∈ ts, t.Valid) {p : Phrase} :
    ((wanting []).run? ts).bind finish? = some p ↔ Derives .equivalence p ∧ p.tokens = ts := by
  constructor
  · intro h
    obtain ⟨s, hs, hp⟩ := Option.bind_eq_some_iff.mp h
    have hstart : (wanting []).Sound := ⟨_, .nil⟩
    obtain ⟨hsound, htokens⟩ := hstart.run? ht hs
    obtain ⟨hderives, hp⟩ := hsound.finish? hp
    exact ⟨hderives, hp.trans htokens⟩
  · rintro ⟨h, rfl⟩
    exact finish?_run_tokens h

end Progress

/-- No tokens belong to two sentences. -/
theorem Derives.eq_of_tokens_eq {p q : Phrase} (hp : Derives .equivalence p)
    (hq : Derives .equivalence q) (h : p.tokens = q.tokens) : p = q := by
  have hread := Progress.finish?_run_tokens hp
  rw [h, Progress.finish?_run_tokens hq] at hread
  exact (Option.some.inj hread).symm

end Variability.Constraint
