import Variability.Build.Tree
import Variability.Cnf
import Variability.Constraint.Report
import Variability.Lowering

/-!
Converting a document: its feature model, the formula of the tree and the
constraints, and the conjunctive normal form of that formula.
-/

namespace Variability

/-- The feature model of a document, with its constraints resolved, and the number of its root. -/
def Document.toFeatureModel (d : Document) : Except Build.Error (FeatureModel × Nat) :=
  match (Build.tree d).run {} with
  | .error e _ => .error e
  | .ok root m =>
    let report := Constraint.report d.constraints
    let constraints := report.formulas.map (Constraint.resolve m.hasFeature)
    .ok ({ m with constraints := m.constraints ++ constraints, problems := report.problems }, root)

/-- A document and the feature model that was built from it. -/
structure Conversion where
  document : Document
  model : FeatureModel
  root : Nat

namespace Conversion

/-- Why a document cannot be converted. -/
inductive Error where
  | noDocument
  | build (e : Build.Error)

/-- The error as it reaches a caller. -/
def Error.raised : Error → Raised
  | noDocument => .of .value "from_model parameter is required"
  | build e => e.raised

/-- Builds the model of a document. -/
def ofDocument : Option Document → Except Error Conversion
  | none => .error .noDocument
  | some d =>
    match d.toFeatureModel with
    | .ok (model, root) => .ok ⟨d, model, root⟩
    | .error e => .error (.build e)

/-- The names of the features, in the order of their nodes. -/
def features (c : Conversion) : List (Option String) := c.model.nodeNames

/-- The constraint texts that are not comparisons. -/
def booleanConstraints (c : Conversion) : List String :=
  c.document.constraints.filter (fun s => !Constraint.isArithmetic s)

/-- The constraint texts that are comparisons over attributes. -/
def arithmeticConstraints (c : Conversion) : List String :=
  c.document.constraints.filter Constraint.isArithmetic

/-- All constraint texts, the comparisons last. -/
def constraints (c : Conversion) : List String := c.booleanConstraints ++ c.arithmeticConstraints

/-- The formula of the tree, together with the constraints if there are any. -/
def formula (c : Conversion) : Result Formula :=
  let tree := c.model.lower c.root
  if c.model.constraints.isEmpty then tree
  else { tree with value := tree.value.map (fun f => .conj (f :: c.model.constraints)) }

/-- The number of each feature: its place among the nodes, counted from 1. -/
def numbering (c : Conversion) : Numbering :=
  Table.ofList (c.features.zipIdx.filterMap (fun p =>
    p.1.map (fun name => (name, (p.2 : Int) + 1))))

/-- What is said about the constraints that are left out. -/
def notice (c : Conversion) (verbose : Bool) : String :=
  if verbose && !c.arithmeticConstraints.isEmpty then
    "Info: Ignored " ++ toString c.arithmeticConstraints.length ++ " arithmetic constraints\n"
  else ""

/-- Why there is no conjunctive normal form. -/
inductive CnfError where
  /-- The tree has no formula. -/
  | noFormula (e : Result.Error)
  | cnf (e : Cnf.Error)

/-- The text of an error. -/
def CnfError.message : CnfError → String
  | noFormula e => e.message
  | cnf e => e.message

/-- The conjunctive normal form of the formula, by a strategy of distribution, and what is said on
the way to it. -/
def toCnf (c : Conversion) (strategy : BoolExpr.Strategy) (verbose : Bool := true) :
    Except CnfError Cnf × String :=
  match c.formula.get with
  | .error e => (.error (.noFormula e), "")
  | .ok f => ((f.toCnf strategy c.numbering).mapError .cnf, c.notice verbose)

end Conversion

end Variability
