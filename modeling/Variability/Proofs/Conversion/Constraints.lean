import Variability.Proofs.Constraint.Accounting
import Variability.Proofs.Conversion.Model

/-!
The constraints of a document and the constraints of its model.

Every constraint text of a document is accounted for once: it is a formula of the
model, or it is reported as a comparison or as malformed
(`constraints_accounted`). A text that the grammar accepts is a formula of the
model, unless it is taken for a comparison because of an operator that it quotes
(`accepted_reported`).
-/

namespace Variability.Conversion

open Constraint

variable {d : Document} {c : Conversion}

/-! ## The model of a document -/

theorem document_of_ofDocument (h : ofDocument (some d) = .ok c) : c.document = d := by
  obtain ⟨root, m, -, rfl⟩ := ofDocument_eq_ok.mp h
  rfl

theorem problems_of_ofDocument (h : ofDocument (some d) = .ok c) :
    c.model.problems = (report d.constraints).problems := by
  obtain ⟨root, m, -, rfl⟩ := ofDocument_eq_ok.mp h
  rfl

/-- How the constraints of a document are split, and what has become of the parts. -/
structure Split (c : Conversion) : Prop where
  boolean_sublist : c.booleanConstraints.Sublist c.document.constraints
  arithmetic_sublist : c.arithmeticConstraints.Sublist c.document.constraints
  /-- Every text is in one of the parts, as often as it is given. -/
  perm : (c.booleanConstraints ++ c.arithmeticConstraints).Perm c.document.constraints
  boolean : ∀ s ∈ c.booleanConstraints, isArithmetic s = false
  arithmetic : ∀ s ∈ c.arithmeticConstraints, isArithmetic s = true
  problems : c.model.problems = (report c.document.constraints).problems
  length_arithmetic : c.arithmeticConstraints.length =
    (c.model.problems.filter (fun p => p.severity = .info)).length
  length_boolean : c.booleanConstraints.length = c.model.constraints.length +
    (c.model.problems.filter (fun p => p.severity = .error)).length
  /-- The constraints of the model are the formulas, with their references resolved. -/
  constraint : ∀ i : Nat, c.model.constraints[i]? =
    (report c.document.constraints).formulas[i]?.map (resolve c.model.hasFeature)

theorem split_of_ofDocument (h : ofDocument (some d) = .ok c) : Split c := by
  have hbuilt := built_of_ofDocument h
  have hproblems := problems_of_ofDocument h
  obtain rfl := document_of_ofDocument h
  have haccounts := accounts_report c.document.constraints
  refine {
    boolean_sublist := List.filter_sublist
    arithmetic_sublist := List.filter_sublist
    perm := ?perm
    boolean := ?boolean
    arithmetic := fun s hs => (List.mem_filter.mp hs).2
    problems := hproblems
    length_arithmetic := ?length_arithmetic
    length_boolean := ?length_boolean
    constraint := ?constraint }
  case perm =>
    apply List.perm_append_comm.trans
    exact List.filter_append_perm isArithmetic c.document.constraints
  case boolean =>
    intro s hs
    simpa using (List.mem_filter.mp hs).2
  case length_arithmetic =>
    rw [hproblems]
    exact haccounts.length_arithmetic
  case length_boolean =>
    rw [hproblems, hbuilt.constraints, List.length_map]
    exact haccounts.length_boolean
  case constraint =>
    intro i
    rw [hbuilt.constraints, List.getElem?_map]

/-- Every text of a list yields one formula or one problem, in the order of the list, and the
problems are announced in the log, in their order. Lists that are reported on one after the other
have their reports one after the other. In a document that is converted, the texts are split
accordingly, and the formulas are the constraints of the model. -/
theorem constraints_accounted (texts others : List String) :
    Accounts texts (report texts) ∧
    (report texts).formulas.length + (report texts).problems.length = texts.length ∧
    report (texts ++ others) = report texts ++ report others ∧
    List.Forall₂ Announces ((report texts).log.filter (fun e => e.level ≠ .debug))
      (report texts).problems ∧
    ∀ d c, ofDocument (some d) = .ok c → c.document = d ∧ Split c := by
  have haccounts := accounts_report texts
  refine ⟨haccounts, haccounts.length_eq, report_append texts others, haccounts.announced, ?_⟩
  intro d c h
  exact ⟨document_of_ofDocument h, split_of_ofDocument h⟩

/-- A document with a constraint that is accepted, a comparison, and a malformed one. -/
def constrainedRoot : Document where
  count := 1
  features := #v[{ name := some "R", scope := some "ns" }]
  root := .last 0
  constraints := ["ns.R => R", "R.Price > 3", "R &"]

theorem exists_of_constraints (d : Document) (fs : List Formula)
    (h : (ofDocument (some d)).toOption.map (fun c => c.model.constraints) = some fs) :
    ∃ c, ofDocument (some d) = .ok c ∧ c.model.constraints = fs := by
  cases hc : ofDocument (some d) with
  | error e =>
    rw [hc] at h
    cases h
  | ok c =>
    rw [hc] at h
    exact ⟨c, rfl, Option.some.inj h⟩

/-- Two texts are boolean, of which one is malformed, and the reference is resolved. -/
theorem constraints_accounted_root : ∃ c, ofDocument (some constrainedRoot) = .ok c ∧
    c.booleanConstraints = ["ns.R => R", "R &"] ∧ c.arithmeticConstraints = ["R.Price > 3"] ∧
    c.model.constraints = [.implies (.literal "ns::R") (.literal "R")] ∧ Split c := by
  obtain ⟨c, hc, hconstraints⟩ := exists_of_constraints constrainedRoot
    [.implies (.literal "ns::R") (.literal "R")] (by decide +kernel)
  obtain ⟨-, -, -, -, hall⟩ := constraints_accounted constrainedRoot.constraints []
  obtain ⟨hdocument, hsplit⟩ := hall constrainedRoot c hc
  have hboolean : c.booleanConstraints = ["ns.R => R", "R &"] := by
    rw [booleanConstraints, hdocument]
    decide +kernel
  have harithmetic : c.arithmeticConstraints = ["R.Price > 3"] := by
    rw [arithmeticConstraints, hdocument]
    decide +kernel
  exact ⟨c, hc, hboolean, harithmetic, hconstraints, hsplit⟩

/-! ## Accepted texts -/

/-- The report on a list has the report on each text in its place. -/
theorem report_eq_of_getElem? {texts : List String} {i : Nat} {text : String}
    (h : texts[i]? = some text) :
    report texts = report (texts.take i) ++ (report [text] ++ report (texts.drop (i + 1))) := by
  obtain ⟨hi, rfl⟩ := List.getElem?_eq_some_iff.mp h
  rw [← report_append, ← report_append, List.singleton_append, ← List.drop_eq_getElem_cons hi,
    List.take_append_drop]

/-- A text that the grammar accepts is taken for a comparison iff it quotes an operator and has no
arrow. Any other accepted text has its formula in the report, behind those of the texts before it,
and in the model of a document with these constraints. One that is taken for a comparison is
reported as ignored, and the formulas are those of the other texts. -/
theorem accepted_reported {texts : List String} {i : Nat} {text : String} {f : Formula}
    (hi : texts[i]? = some text) (hf : (parseResult text).value = some f) :
    isArithmetic text = quotesComparison text ∧
    (quotesComparison text = false →
      (report texts).formulas[(report (texts.take i)).formulas.length]? = some f ∧
      ∀ d c, ofDocument (some d) = .ok c → d.constraints = texts →
        c.model.constraints[(report (texts.take i)).formulas.length]? =
          some (resolve c.model.hasFeature f)) ∧
    (quotesComparison text = true →
      (report texts).problems[(report (texts.take i)).problems.length]? = some (ignored text) ∧
      (report texts).formulas = (report (texts.eraseIdx i)).formulas) := by
  have hparse := value_parseResult_iff.mp hf
  have hclass := isArithmetic_eq_quotesComparison hparse
  have hreport := report_eq_of_getElem? hi
  have hyields := yields_report text
  refine ⟨hclass, fun hquotes => ?_, fun hquotes => ?_⟩
  · have hone := hyields.formulas_of_parsed (hclass.trans hquotes) hf
    have hformula : (report texts).formulas[(report (texts.take i)).formulas.length]? = some f := by
      rw [hreport]
      simp [hone]
    refine ⟨hformula, fun d c hc hd => ?_⟩
    have hsplit := split_of_ofDocument hc
    obtain rfl := document_of_ofDocument hc
    rw [hsplit.constraint, hd, hformula, Option.map_some]
  · obtain ⟨hnone, hone⟩ := hyields.of_arithmetic (hclass.trans hquotes)
    constructor
    · rw [hreport]
      simp [hone]
    · rw [List.eraseIdx_eq_take_drop_succ, report_append, hreport]
      simp [hnone]

/-- Constraints that quote an operator, without and with an arrow, and one that quotes a blank. -/
def quotingTexts : List String := ["\"a<b\"", "\"a<b\" => A", "\"a b\" | A"]

/-- The first text is taken for a comparison, so the first formula is that of the second one. -/
theorem accepted_reported_quoted :
    (report quotingTexts).formulas[0]? = some (.implies (.literal "a<b") (.literal "A")) ∧
    (report quotingTexts).problems[0]? = some (ignored "\"a<b\"") := by
  have hfirst : quotingTexts[0]? = some "\"a<b\"" := rfl
  have hsecond : quotingTexts[1]? = some "\"a<b\" => A" := rfl
  have hdropped := accepted_reported (f := .literal "a<b") hfirst (by decide +kernel)
  have hkept := accepted_reported (f := .implies (.literal "a<b") (.literal "A")) hsecond
    (by decide +kernel)
  exact ⟨(hkept.2.1 (by decide +kernel)).1, (hdropped.2.2 (by decide +kernel)).1⟩

/-- Not every text that the grammar accepts has its formula in the report. -/
theorem not_accepted_mem_report :
    ¬∀ (texts : List String) (text : String) (f : Formula), text ∈ texts →
      (parseResult text).value = some f → f ∈ (report texts).formulas := by
  intro h
  have hmem := h ["\"a<b\""] "\"a<b\"" (.literal "a<b") List.mem_cons_self (by decide +kernel)
  have hnone : (report ["\"a<b\""]).formulas = [] := by decide +kernel
  rw [hnone] at hmem
  cases hmem

end Variability.Conversion
