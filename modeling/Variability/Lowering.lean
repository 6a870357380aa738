import Variability.FeatureModel.Basic
import Variability.Formula.Choice

/-!
The formula of a feature tree.

A leaf stands for its literal. A node with children depends on the type of its
last group: each child for alternatives, any child for an or-group, and the
mandatory children otherwise; cardinality groups have no formula. An optional
node implies the formula of its children, a mandatory one holds together with
it, and the root adds nothing.
-/

namespace Variability

namespace Lowering

/-- Why a node has no formula. -/
inductive Defect where
  | noName
  | noGroup (name : String)
  /-- The node is neither optional nor mandatory. -/
  | badCardinality (name : String)
deriving DecidableEq, Repr

/-- The text of a defect. -/
def Defect.message : Defect → String
  | noName => "Feature has no name"
  | noGroup name => name ++ " has no group."
  | badCardinality name => name ++ " is neither an optional nor a mandatory feature."

/-- The formula of the children of a node with a last group of the given type, if it has one;
`formulas` gives the formulas of children. -/
def childrenFormula? (m : FeatureModel) (formulas : List Nat → List Formula)
    (children : List Nat) : GroupType → Option Formula
  | .alternative => some (.everyChoice (formulas children) 1)
  | .or => some (.disj (formulas children))
  | .and =>
    some (.conj (formulas (children.filter (fun c => m.nodes[c]?.any Node.isMandatory))))
  | .cardinality => none

/-- The formula of a node with a name and the formula of its children. -/
def combine (isRoot : Bool) (n : Node) (name : String) (below : Formula) : Except Defect Formula :=
  if isRoot then .ok (if below.children.isEmpty then .top else below)
  else if below.children.isEmpty then .ok (.literal name)
  else if n.isOptional then .ok (.implies (.literal name) below)
  else if n.isMandatory then .ok (.conj [.literal name, below])
  else .error (.badCardinality name)

/-- The formula of a node, given the formulas of its children. -/
def nodeFormula (m : FeatureModel) (formulas : List Nat → List Formula) (isRoot : Bool)
    (n : Node) : Except Defect Formula :=
  match n.name with
  | none | some "" => .error .noName
  | some name =>
    match n.groups.getLast? with
    | none => .error (.noGroup name)
    | some last =>
      if n.children.isEmpty then
        if n.isOptional || n.isMandatory then .ok (.literal name)
        else .error (.badCardinality name)
      else
        match childrenFormula? m formulas n.children last.type with
        | some below => combine isRoot n name below
        | none => .error (.noGroup name)

/-- What a traversal of the tree has found so far. -/
structure State where
  /-- The formulas of the nodes that have been left, by node number. -/
  formulas : Array (Option Formula) := #[]
  /-- The formula of the node that was left last. -/
  latest : Option Formula := none
  problems : List Problem := []
deriving Inhabited

/-- The formulas of the given nodes. -/
def State.formulasOf (s : State) (m : FeatureModel) (nodes : List Nat) : List Formula :=
  nodes.filterMap (fun i => m.nodes[i]?.bind (fun n => s.formulas[n.index]?.join))

/-- The result of a traversal. -/
def State.result (s : State) : Result Formula := ⟨s.latest, s.problems⟩

/-- Makes room for the formulas when the root is entered. -/
def enter (m : FeatureModel) (path : List Nat) (s : State) : Traversal.Action × State :=
  (.proceed, if path.length = 1 then { s with formulas := Array.replicate m.size none } else s)

/-- Computes the formula of a node when it is left, or ends the traversal with its defect. -/
def leave (m : FeatureModel) (path : List Nat) (s : State) : Traversal.Action × State :=
  match path with
  | [] => (.proceed, s)
  | index :: above =>
    match m.nodes[index]? with
    | none => (.proceed, s)
    | some n =>
      match nodeFormula m (s.formulasOf m) above.isEmpty n with
      | .ok f =>
        let formulas := s.formulas.setIfInBounds n.index (some f)
        (.proceed, { s with formulas, latest := some f })
      | .error defect =>
        (.fail, { s with latest := none, problems := s.problems ++ [⟨defect.message, .error⟩] })

/-- The visitor that computes the formulas of a tree bottom up. -/
def visitor (m : FeatureModel) : Traversal.Visitor Nat State where
  reset := fun _ => {}
  enter := enter m
  leave := leave m

end Lowering

namespace FeatureModel

/-- Visits the tree below a node, which counts as its root, and gives the last state. -/
def lowerFrom (m : FeatureModel) (index : Nat) (s : Lowering.State) : Lowering.State :=
  (m.subtree index).traverse (Lowering.visitor m) s

/-- The formula of the tree below a node, which counts as its root. -/
def lower (m : FeatureModel) (index : Nat) : Result Formula := (m.lowerFrom index {}).result

end FeatureModel

end Variability
