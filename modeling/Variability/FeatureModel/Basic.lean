import Variability.Cardinality.Basic
import Variability.Diagnostic
import Variability.Feature
import Variability.Formula.Basic
import Variability.Traversal

/-!
Feature models: a tree of features, cross-tree constraints and declared
attributes.

The nodes of the tree are numbered in the order of their creation, so a child has
a greater number than its parent. The children of a node are arranged in groups;
every node but the root knows its parent and the number of the group of the parent
that it belongs to.
-/

namespace Variability

/-- The feature of a node: one that is registered under its name, or one that is not. -/
inductive FeatureRef where
  | registered (name : Option String)
  | unregistered (name : Option String)
deriving DecidableEq, Repr

/-- The name of the feature. -/
def FeatureRef.name : FeatureRef → Option String
  | registered name => name
  | unregistered name => name

/-- A group of sibling nodes and how many of them are to be selected. -/
structure Group where
  id : Nat
  range : Range
  children : List Nat := []
deriving DecidableEq

namespace Group

/-- The type of a group. -/
def type (g : Group) : GroupType := .ofRange g.range

/-- A group with the given number, type and range text as a constructor. -/
def constructorTextOf (id : Nat) (type : GroupType) (range : String) : String :=
  "Group(id=" ++ toString id ++ ", " ++ type.name ++ ", " ++ range ++ ")"

/-- The group as a constructor, if its range can be written. -/
def constructorText? (g : Group) : Option String :=
  g.range.text?.map (constructorTextOf g.id g.type)

end Group

/-- The place of a node below its parent. -/
structure ParentLink where
  node : Nat
  group : Nat
deriving DecidableEq, Repr

/-- A node of the feature tree. -/
structure Node where
  feature : FeatureRef
  /-- The place of the node in the list of nodes. -/
  index : Nat
  parent : Option ParentLink
  cardinality : Range := .optional
  groups : List Group := [⟨0, .atLeast 0, []⟩]
  /-- The number of the next group; numbers are not used again. -/
  nextGroup : Nat := 1
deriving DecidableEq

namespace Node

/-- The name of the feature of a node. -/
def name (n : Node) : Option String := n.feature.name

/-- The children of a node, group by group. -/
def children (n : Node) : List Nat := n.groups.flatMap Group.children

/-- Whether a node has no parent. -/
def isRoot (n : Node) : Bool := n.parent.isNone

/-- Whether a node has no children. -/
def isLeaf (n : Node) : Bool := n.groups.all (fun g => g.children.isEmpty)

/-- Whether a node has to be selected with its parent. -/
def isMandatory (n : Node) : Bool := n.cardinality = .mandatory

/-- Whether a node may be selected with its parent. -/
def isOptional (n : Node) : Bool := n.cardinality = .optional

/-- The group with the given number. -/
def group? (n : Node) (id : Int) : Option Group := n.groups.find? (fun g => (g.id : Int) = id)

/-- The node as a constructor, given its number. -/
def constructorText (n : Node) (index : Nat) : String :=
  "FeatureTree(" ++ nameLiteral n.name ++ ", index=" ++ toString index ++ ")"

end Node

/-- A feature model. -/
structure FeatureModel where
  nodes : Array Node := #[]
  features : Table (Option String) Feature := .empty
  registry : AttributeRegistry := .builtIn
  root : Option Nat := none
  constraints : List Formula := []
  problems : List Problem := []

namespace FeatureModel

instance : Inhabited FeatureModel := ⟨{}⟩

/-- The number of nodes. -/
def size (m : FeatureModel) : Nat := m.nodes.size

/-- The children of a node, group by group. -/
def childrenOf (m : FeatureModel) (index : Nat) : List Nat :=
  match m.nodes[index]? with
  | some n => n.children
  | none => []

/-- The names of the nodes, in the order of their creation. -/
def nodeNames (m : FeatureModel) : List (Option String) := m.nodes.toList.map Node.name

/-- Whether a feature with the given name is registered. -/
def hasFeature (m : FeatureModel) (name : String) : Bool := m.features.contains (some name)

/-- The feature of a node; an unregistered one is plain. -/
def featureOf (m : FeatureModel) : FeatureRef → Feature
  | .registered name => (m.features.find? name).getD { name }
  | .unregistered name => { name }

/-- The tree below a node, with the numbers of the nodes as labels. -/
def subtree (m : FeatureModel) (index : Nat) : Tree Nat :=
  .node index ((m.childrenOf index).filterMap (fun child =>
    if index < child ∧ child < m.size then some (m.subtree child) else none))
termination_by m.size - index

end FeatureModel

end Variability
