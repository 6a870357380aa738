import Mathlib.Data.List.Forall2
import Variability.Proofs.Constraint.Classification

/-!
What becomes of each constraint of a list.

A text yields one formula or one problem, and one entry of the log (`Yields`).
The report on a list is put together from what its texts yield, in their order
(`accounts_report`). Whatever is counted in a report is therefore counted text by
text: the formulas and problems (`Accounts.length_eq`), the problems of each
severity (`Accounts.length_arithmetic`, `Accounts.length_boolean`), and the
entries of the log that announce problems (`Accounts.announced`).
-/

namespace Variability.Constraint

namespace Report

/-- The report on no constraints. -/
def empty : Report := ⟨[], [], []⟩

/-- Two reports, one after the other. -/
def append (r s : Report) : Report :=
  ⟨r.formulas ++ s.formulas, r.problems ++ s.problems, r.log ++ s.log⟩

instance : Append Report := ⟨append⟩

@[simp] theorem formulas_append (r s : Report) : (r ++ s).formulas = r.formulas ++ s.formulas := rfl

@[simp] theorem problems_append (r s : Report) : (r ++ s).problems = r.problems ++ s.problems := rfl

@[simp] theorem log_append (r s : Report) : (r ++ s).log = r.log ++ s.log := rfl

end Report

/-! ## One text -/

/-- The problem that a comparison is reported as. -/
def ignored (text : String) : Problem :=
  ⟨"Ignored arithmetic constraint '" ++ Text.trim text ++ "'", .info⟩

@[simp] theorem severity_ignored (text : String) : (ignored text).severity = .info := rfl

/-- What a text adds to a report: its formula, or that it is a comparison, or what is wrong
with it. -/
inductive Yields (text : String) : Report → Prop
  | formula {f : Formula} (boolean : isArithmetic text = false)
      (parsed : parseResult text = ⟨some f, []⟩) :
      Yields text ⟨[f], [], [⟨.debug, "Parsed constraint: " ++ f.text⟩]⟩
  | arithmetic (arithmetic : isArithmetic text = true) :
      Yields text
        ⟨[], [ignored text], [⟨.info, "Ignoring arithmetic constraint: " ++ Text.trim text⟩]⟩
  | malformed {p : Problem} (boolean : isArithmetic text = false)
      (failed : parseResult text = .empty [p]) (severity : p.severity = .error) :
      Yields text ⟨[], [p], [⟨.warning, p.message⟩]⟩

theorem report_singleton (text : String) :
    report [text] = ⟨(outcome text).formula?.toList, (outcome text).problem?.toList,
      [(outcome text).logEntry]⟩ := by
  simp only [report, List.map_cons, List.map_nil]
  cases outcome text <;> rfl

/-- A text adds just one thing. -/
theorem yields_report (text : String) : Yields text (report [text]) := by
  rw [report_singleton]
  cases harithmetic : isArithmetic text with
  | true =>
    have houtcome : outcome text = .arithmetic text := by rw [outcome, if_pos harithmetic]
    rw [houtcome]
    exact .arithmetic harithmetic
  | false =>
    cases hparse : parse text with
    | ok f =>
      have houtcome : outcome text = .formula f := by simp [outcome, harithmetic, hparse]
      have hresult : parseResult text = ⟨some f, []⟩ := by rw [parseResult, hparse]
      rw [houtcome]
      exact .formula harithmetic hresult
    | error e =>
      have houtcome : outcome text = .malformed text e := by simp [outcome, harithmetic, hparse]
      have hresult : parseResult text = .empty [⟨malformedMessage text e, .error⟩] := by
        rw [parseResult, hparse]
      rw [houtcome]
      exact .malformed harithmetic hresult rfl

namespace Yields

variable {text : String} {r : Report}

theorem formulas_of_parsed (h : Yields text r) (hboolean : isArithmetic text = false)
    {f : Formula} (hf : (parseResult text).value = some f) : r.formulas = [f] := by
  cases h with
  | formula _ parsed =>
    rw [parsed] at hf
    rw [Option.some.inj hf]
  | arithmetic arithmetic =>
    rw [hboolean] at arithmetic
    cases arithmetic
  | malformed _ failed =>
    rw [failed] at hf
    cases hf

theorem of_arithmetic (h : Yields text r) (harithmetic : isArithmetic text = true) :
    r.formulas = [] ∧ r.problems = [ignored text] := by
  cases h with
  | formula boolean | malformed boolean =>
    rw [harithmetic] at boolean
    cases boolean
  | arithmetic => exact ⟨rfl, rfl⟩

end Yields

/-! ## Lists of texts -/

theorem report_append (texts others : List String) :
    report (texts ++ others) = report texts ++ report others := by
  show report (texts ++ others) = (report texts).append (report others)
  simp [report, Report.append]

/-- The report is put together from what the texts yield, in their order. -/
inductive Accounts : List String → Report → Prop
  | nil : Accounts [] .empty
  | cons {text : String} {texts : List String} {part rest : Report} (head : Yields text part)
      (tail : Accounts texts rest) : Accounts (text :: texts) (part ++ rest)

theorem accounts_report (texts : List String) : Accounts texts (report texts) := by
  induction texts with
  | nil => exact .nil
  | cons text texts ih =>
    rw [← List.singleton_append, report_append]
    exact .cons (yields_report text) ih

/-- The entry of the log announces the problem. -/
inductive Announces : LogEntry → Problem → Prop
  | arithmetic (text : String) :
      Announces ⟨.info, "Ignoring arithmetic constraint: " ++ Text.trim text⟩ (ignored text)
  | malformed {p : Problem} (severity : p.severity = .error) : Announces ⟨.warning, p.message⟩ p

namespace Accounts

variable {texts : List String} {r : Report}

/-- Every text is accounted for once. -/
theorem length_eq (h : Accounts texts r) :
    r.formulas.length + r.problems.length = texts.length := by
  induction h with
  | nil => rfl
  | cons head tail ih => cases head <;> simp <;> omega

/-- There is one notice or warning for each problem, in the same order. -/
theorem announced (h : Accounts texts r) :
    List.Forall₂ Announces (r.log.filter (fun e => e.level ≠ .debug)) r.problems := by
  induction h with
  | nil => exact .nil
  | cons head tail ih =>
    cases head with
    | formula => simpa using ih
    | arithmetic => exact .cons (.arithmetic _) ih
    | malformed _ _ severity => exact .cons (.malformed severity) ih

/-- The comparisons are the notices among the problems. -/
theorem length_arithmetic (h : Accounts texts r) :
    (texts.filter isArithmetic).length =
      (r.problems.filter (fun p => p.severity = .info)).length := by
  induction h with
  | nil => rfl
  | cons head tail ih =>
    cases head with
    | formula boolean => simpa [boolean] using ih
    | arithmetic arithmetic => simpa [arithmetic] using ih
    | malformed boolean _ severity => simpa [boolean, severity] using ih

/-- The other texts are formulas, or errors among the problems. -/
theorem length_boolean (h : Accounts texts r) :
    (texts.filter (fun s => !isArithmetic s)).length =
      r.formulas.length + (r.problems.filter (fun p => p.severity = .error)).length := by
  induction h with
  | nil => rfl
  | cons head tail ih =>
    cases head with
    | formula boolean => simp [boolean] at ih ⊢; omega
    | arithmetic arithmetic => simpa [arithmetic] using ih
    | malformed boolean _ severity => simp [boolean, severity] at ih ⊢; omega

end Accounts

end Variability.Constraint
