import Variability.Constraint.Report
import Variability.Proofs.Constraint.Reading
import Variability.Proofs.Constraint.Scanning

/-!
The texts that are constraints, and the formulas that they are read as.

A text is read as a formula iff it is a rendering of a sentence of the grammar
with that value (`parse_eq_ok_iff`). It is a rendering of one sentence at most
(`Derives.eq_of_renders`), so it has one formula, and the truth value of the
formula is that of the sentence.
-/

namespace Variability.Constraint

/-- Behind a token that could go on, only a token that ends it is read. -/
theorem isBreak_of_run? {s s₁ s' : Progress} {t u : Token} {ts : List Token} (ht : t.isWord)
    (hs : s.step? t = some s₁) (hrun : s₁.run? (u :: ts) = some s') : u.isBreak := by
  obtain ⟨s₂, hs₂, -⟩ := Option.bind_eq_some_iff.mp hrun
  cases s with
  | having os p => cases t <;> cases ht <;> cases hs
  | wanting os => cases t <;> cases ht <;> cases hs <;> cases u <;> first | rfl | cases hs₂

/-- A rendering of tokens that can be read is split into these tokens. -/
theorem scanFrom_of_renders {ts : List Token} {cs : List Char} (h : Renders ts cs)
    (hvalid : ∀ t ∈ ts, t.Valid) {s s' : Progress} (hrun : s.run? ts = some s') (p : Place) :
    (scanFrom p cs).lexemes.map Lexeme.token = ts ∧ (scanFrom p cs).stray = none := by
  induction h generalizing s p with
  | @nil spaces h =>
    obtain ⟨p', hp'⟩ := scanFrom_spaces h p []
    rw [List.append_nil] at hp'
    rw [hp', scanFrom]
    exact ⟨rfl, rfl⟩
  | @cons spaces h t ts cs hts ih =>
    obtain ⟨s₁, hs₁, hrun⟩ := Option.bind_eq_some_iff.mp hrun
    obtain ⟨ht, hvalid⟩ := List.forall_mem_cons.mp hvalid
    have hends : t.isWord → Ends cs := by
      intro hword
      refine ends_of_renders hts (fun u hu => ?_)
      obtain ⟨us, rfl⟩ := List.head?_eq_some_iff.mp hu
      exact isBreak_of_run? hword hs₁ hrun
    obtain ⟨p', hp'⟩ := scanFrom_spaces h p (t.text.toList ++ cs)
    obtain ⟨htokens, hstray⟩ := ih hvalid hrun (p'.afterAll t.text.toList)
    rw [List.append_assoc, hp', scanFrom_token ht hends, List.map_cons, htokens]
    exact ⟨rfl, hstray⟩

/-- A rendering of a sentence is split into its tokens. -/
theorem Derives.scanFrom {p : Phrase} (h : Derives .equivalence p) {cs : List Char}
    (hcs : Renders p.tokens cs) (place : Place) :
    (scanFrom place cs).lexemes.map Lexeme.token = p.tokens ∧
      (Constraint.scanFrom place cs).stray = none := by
  obtain ⟨s, hs, -⟩ := Option.bind_eq_some_iff.mp (Progress.finish?_run_tokens h)
  exact scanFrom_of_renders hcs h.valid hs place

/-- No text is a rendering of two sentences. -/
theorem Derives.eq_of_renders {p q : Phrase} (hp : Derives .equivalence p)
    (hq : Derives .equivalence q) {cs : List Char} (hcs : Renders p.tokens cs)
    (hcs' : Renders q.tokens cs) : p = q :=
  hp.eq_of_tokens_eq hq ((hp.scanFrom hcs .start).1.symm.trans (hq.scanFrom hcs' .start).1)

theorem parse_eq_ok_iff {text : String} {f : Formula} :
    parse text = .ok f ↔
      ∃ p, Derives .equivalence p ∧ Renders p.tokens text.toList ∧ p.value = f := by
  show readAll (Progress.wanting []).reading _ _ _ = _ ↔ _
  rw [Progress.readAll_eq_ok_iff, scan]
  constructor
  · rintro ⟨hstray, p, hread, rfl⟩
    obtain ⟨hvalid, hrenders⟩ := renders_scanFrom hstray
    obtain ⟨hp, htokens⟩ := (Progress.finish?_run_iff hvalid).mp hread
    exact ⟨p, hp, htokens ▸ hrenders, rfl⟩
  · rintro ⟨p, hp, hrenders, rfl⟩
    obtain ⟨htokens, hstray⟩ := hp.scanFrom hrenders .start
    refine ⟨hstray, p, ?_, rfl⟩
    rw [htokens]
    exact Progress.finish?_run_tokens hp

theorem parseResult_eq_iff {text : String} {f : Formula} :
    parseResult text = ⟨some f, []⟩ ↔ parse text = .ok f := by
  rw [parseResult]
  cases parse text with
  | ok g => simp
  | error e => simp [Result.empty]

theorem value_parseResult_iff {text : String} {f : Formula} :
    (parseResult text).value = some f ↔ parse text = .ok f := by
  rw [parseResult]
  cases parse text with
  | ok g => simp
  | error e => simp [Result.empty]

/-- There is a problem iff there is no formula. -/
theorem problems_parseResult_iff {text : String} :
    (parseResult text).problems = [] ↔ ∃ f, (parseResult text).value = some f := by
  rw [parseResult]
  cases parse text with
  | ok g => simp
  | error e => simp [Result.empty]

/-- A text is read as a formula iff it is a rendering of a sentence of the grammar with that value,
and then there is no problem. It is a rendering of one sentence at most, and the formula is true
under an assignment iff the sentence is. -/
theorem parseResult_iff_sentence (text : String) :
    (∀ f, (parseResult text).value = some f ↔
      ∃ p, Derives .equivalence p ∧ Renders p.tokens text.toList ∧ p.value = f) ∧
    ((parseResult text).problems = [] ↔ ∃ f, (parseResult text).value = some f) ∧
    (∀ p q, Derives .equivalence p → Derives .equivalence q → Renders p.tokens text.toList →
      Renders q.tokens text.toList → p = q) ∧
    ∀ p, Derives .equivalence p → Renders p.tokens text.toList →
      ∀ v, p.value.eval v = p.truth v := by
  refine ⟨fun f => ?_, problems_parseResult_iff, fun p q hp hq => hp.eq_of_renders hq,
    fun p _ _ v => p.eval_value v⟩
  rw [value_parseResult_iff, parse_eq_ok_iff]

/-- A conjunction in parentheses is continued, and a quoted name stands for what is between the
quotes. -/
theorem parseResult_iff_sentence_chain :
    ∃ p, Derives .equivalence p ∧ Renders p.tokens "(A&B) & \"c d\"".toList ∧
      p.value = .conj [.literal "A", .literal "B", .literal "c d"] ∧
      ∀ v, p.value.eval v = p.truth v := by
  obtain ⟨hread, -, -, htruth⟩ := parseResult_iff_sentence "(A&B) & \"c d\""
  have hvalue : (parseResult "(A&B) & \"c d\"").value =
      some (.conj [.literal "A", .literal "B", .literal "c d"]) := by decide +kernel
  obtain ⟨p, hp, hrenders, hvalue⟩ := (hread _).mp hvalue
  exact ⟨p, hp, hrenders, hvalue, htruth p hp hrenders⟩

end Variability.Constraint
