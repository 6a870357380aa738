import Variability.Proofs.Constraint.Reading

/-!
Which tokens can be completed to a sentence.

The reader goes on as long as the tokens can be completed, and stops at the first
one with which they cannot any more (`completable_iff`). For whatever is open,
there are tokens that close it: an operand where one is wanted, and a parenthesis
for each one that was opened (`exists_closings`).
-/

namespace Variability.Constraint

/-- The tokens are those of a sentence of the grammar. -/
def IsSentence (ts : List Token) : Prop := ∃ p, Derives .equivalence p ∧ p.tokens = ts

/-- With some tokens behind them, the tokens are those of a sentence. -/
def Completable (ts : List Token) : Prop := ∃ us, IsSentence (ts ++ us)

namespace Progress

theorem suffix_reduce (least : Nat) (os : List Open) (p : Phrase) :
    (reduce least os p).1 <:+ os := by
  fun_induction reduce least os p with
  | case1 p os ih => exact ih.trans (List.suffix_cons ..)
  | case2 q op os p hle ih => exact ih.trans (List.suffix_cons ..)
  | case3 | case4 => exact List.suffix_refl _

/-- Behind an operand, as many closing parentheses complete a sentence as are open. -/
theorem exists_closings (os : List Open) (p : Phrase) :
    ∃ n q, ((having os p).run? (List.replicate n .closing)).bind finish? = some q := by
  generalize hlength : os.length = n
  induction n using Nat.strongRecOn generalizing os p with
  | ind n ih =>
    rcases hreduce : reduce 0 os p with ⟨_ | ⟨o, os'⟩, q⟩
    · refine ⟨0, q, ?_⟩
      rw [List.replicate_zero, run?, Option.bind_some, finish?, hreduce]
    · have hopen : o = .opening := by
        rcases head_reduce (by rw [hreduce]) with ho | ⟨_, op, -, hlt⟩
        · exact ho
        · exact absurd hlt (Nat.not_lt_zero _)
      have hshorter : os'.length < n := by
        have hsuffix := (suffix_reduce 0 os p).length_le
        rw [hreduce, List.length_cons, hlength] at hsuffix
        exact hsuffix
      obtain ⟨k, q', hk⟩ := ih os'.length hshorter os' (.parentheses q) rfl
      refine ⟨k + 1, q', ?_⟩
      rw [List.replicate_succ, run?, step?, hreduce, hopen]
      exact hk

/-- What was read can be completed. -/
theorem exists_completion (s : Progress) :
    ∃ us, (∀ u ∈ us, u.Valid) ∧ ∃ q, (s.run? us).bind finish? = some q := by
  have hclosings : ∀ n, ∀ u ∈ List.replicate n Token.closing, u.Valid := by
    intro n u hu
    rw [List.eq_of_mem_replicate hu]
    trivial
  cases s with
  | wanting os =>
    obtain ⟨n, q, hq⟩ := exists_closings os .top
    exact ⟨.top :: List.replicate n .closing, List.forall_mem_cons.mpr ⟨trivial, hclosings n⟩,
      q, hq⟩
  | having os p =>
    obtain ⟨n, q, hq⟩ := exists_closings os p
    exact ⟨List.replicate n .closing, hclosings n, q, hq⟩

end Progress

theorem isSentence_iff {ts : List Token} (ht : ∀ t ∈ ts, t.Valid) :
    IsSentence ts ↔ ∃ p, ((Progress.wanting []).run? ts).bind Progress.finish? = some p :=
  exists_congr (fun _ => (Progress.finish?_run_iff ht).symm)

/-- Tokens can be completed iff each of them can be read. -/
theorem completable_iff {ts : List Token} (ht : ∀ t ∈ ts, t.Valid) :
    Completable ts ↔ ∃ s, (Progress.wanting []).run? ts = some s := by
  constructor
  · rintro ⟨us, p, hp, htokens⟩
    have hread := Progress.finish?_run_tokens hp
    rw [htokens, Progress.run?_append, Option.bind_assoc] at hread
    obtain ⟨s, hs, -⟩ := Option.bind_eq_some_iff.mp hread
    exact ⟨s, hs⟩
  · rintro ⟨s, hs⟩
    obtain ⟨us, hus, q, hq⟩ := s.exists_completion
    refine ⟨us, (isSentence_iff (List.forall_mem_append.mpr ⟨ht, hus⟩)).mpr ⟨q, ?_⟩⟩
    rw [Progress.run?_append, hs]
    exact hq

end Variability.Constraint
