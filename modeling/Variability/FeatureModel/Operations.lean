import Variability.FeatureModel.Basic

/-!
The operations that build and change a feature model.

An operation is an edit of the model, and what an edit did before it failed stays
done. Every operation looks up what it needs before it changes anything.
-/

namespace Variability

/-- An edit of a feature model, which may fail. What it did before it failed stays done. -/
abbrev Edit (ε : Type) : Type → Type := EStateM ε FeatureModel

namespace FeatureModel

/-- Why an operation is refused. -/
inductive Error where
  | duplicateFeature (name : Option String)
  | hasRoot
  /-- There is no node with the given number. -/
  | noNode
  | noGroup (owner : Option String) (id : Int)
  | groupNotEmpty (owner : Option String) (id : Int)
  /-- The root belongs to no group. -/
  | rootInNoGroup
  /-- The group that a node belongs to does not list it. -/
  | notListed
deriving DecidableEq, Repr

/-- The kind of an error. -/
def Error.kind : Error → ErrorKind
  | noNode => .index
  | noGroup _ _ => .key
  | duplicateFeature _ | hasRoot | groupNotEmpty _ _ | rootInNoGroup | notListed => .value

/-- The text of an error, if the number in it can be written. -/
def Error.message? : Error → Option String
  | duplicateFeature name => some ("feature " ++ nameText name ++ " already exists")
  | hasRoot => some "feature model already has a root"
  | noNode => some "list index out of range"
  | noGroup owner id => do
    return nameText owner ++ " has no group with id " ++ (← Number.writeInteger? id)
  | groupNotEmpty owner id => do
    return "group " ++ (← Number.writeInteger? id) ++ " of " ++ nameText owner ++
      " still has children"
  | rootInNoGroup => some "the root node has no parent group"
  | notListed => some "list.remove(x): x not in list"

/-- The error as it reaches a caller. -/
def Error.raised (e : Error) : Raised := .of e.kind e.message?

/-! ## Looking up -/

/-- The node with the given number. -/
def node (m : FeatureModel) (index : Nat) : Except Error Node :=
  match m.nodes[index]? with
  | some n => .ok n
  | none => .error .noNode

/-- The group of a node with the given number. -/
def group (m : FeatureModel) (index : Nat) (id : Int) : Except Error Group := do
  let n ← m.node index
  match n.group? id with
  | some g => return g
  | none => throw (.noGroup n.name id)

/-- The group that a node belongs to; the root belongs to none. -/
def parentGroup (m : FeatureModel) (index : Nat) : Except Error (Option Group) := do
  let n ← m.node index
  match n.parent with
  | none => return none
  | some link => return some (← m.group link.node link.group)

/-- Looks something up in the model. -/
def lookUp {α : Type} (find : FeatureModel → Except Error α) : Edit Error α := do
  match find (← get) with
  | .ok a => return a
  | .error e => throw e

/-! ## Features -/

/-- Stores a changed feature under its name. -/
def storeFeature (m : FeatureModel) (f : Feature) : FeatureModel :=
  { m with features := m.features.insert f.name f }

/-- Registers a new feature. -/
def addFeature (name : Option String) (type : FeatureType := .boolean) : Edit Error Feature := do
  if (← get).features.contains name then throw (.duplicateFeature name)
  else
    let f : Feature := { name, type }
    modify (·.storeFeature f)
    return f

/-! ## Nodes and groups -/

/-- The model with another node, which no group lists. -/
def pushNode (m : FeatureModel) (n : Node) : FeatureModel := { m with nodes := m.nodes.push n }

/-- Changes a node. -/
def modifyNode (m : FeatureModel) (index : Nat) (change : Node → Node) : FeatureModel :=
  { m with nodes := m.nodes.modify index change }

/-- Changes the group of a node with the given number. -/
def modifyGroup (m : FeatureModel) (index id : Nat) (change : Group → Group) : FeatureModel :=
  m.modifyNode index (fun n =>
    { n with groups := n.groups.map (fun g => if g.id = id then change g else g) })

/-- Creates a node without a parent for a feature, and gives its number. -/
def newNode (feature : FeatureRef) : Edit Error Nat := do
  let index := (← get).size
  modify (·.pushNode { feature, index, parent := none })
  return index

/-- Makes a new node for a feature the root of the tree, and gives its number. -/
def addRoot (feature : FeatureRef) : Edit Error Nat := do
  if (← get).root.isSome then throw .hasRoot
  else
    let index ← newNode feature
    modify (fun m => { m with root := some index })
    return index

/-- Adds a new node for a feature to a group of another node, and gives its number. -/
def addBelow (index : Nat) (feature : FeatureRef) (id : Int := 0) : Edit Error Nat := do
  let g ← lookUp (·.group index id)
  let child ← newNode feature
  modify (·.modifyNode child (fun n => { n with parent := some ⟨index, g.id⟩ }))
  modify (·.modifyGroup index g.id (fun g => { g with children := g.children ++ [child] }))
  return child

/-- Adds a group to a node. -/
def addGroup (index : Nat) (range : Range) : Edit Error Group := do
  let n ← lookUp (·.node index)
  let g : Group := ⟨n.nextGroup, range, []⟩
  modify (·.modifyNode index (fun n =>
    { n with groups := n.groups ++ [g], nextGroup := n.nextGroup + 1 }))
  return g

/-- Removes a group without children from a node. -/
def removeGroup (index : Nat) (id : Int) : Edit Error Unit := do
  let n ← lookUp (·.node index)
  let g ← lookUp (·.group index id)
  if g.children.isEmpty then
    modify (·.modifyNode index (fun n =>
      { n with groups := n.groups.filter (fun g' => g'.id != g.id) }))
  else throw (.groupNotEmpty n.name id)

/-- Moves a node to another group of its parent. -/
def moveToGroup (index : Nat) (id : Int) : Edit Error Unit := do
  let n ← lookUp (·.node index)
  match n.parent with
  | none => throw .rootInNoGroup
  | some link =>
    let target ← lookUp (·.group link.node id)
    if target.id = link.group then return ()
    else
      let old ← lookUp (·.group link.node link.group)
      if index ∈ old.children then
        modify (·.modifyGroup link.node old.id (fun g =>
          { g with children := g.children.erase index }))
        modify (·.modifyGroup link.node target.id (fun g =>
          { g with children := g.children ++ [index] }))
        modify (·.modifyNode index (fun n => { n with parent := some ⟨link.node, target.id⟩ }))
      else throw .notListed

/-- Gives a node another cardinality. -/
def setCardinality (index : Nat) (cardinality : Range) : Edit Error Unit := do
  let _ ← lookUp (·.node index)
  modify (·.modifyNode index (fun n => { n with cardinality }))

/-- Lets a node be selected whenever its parent is. -/
def makeMandatory (index : Nat) : Edit Error Unit := setCardinality index .mandatory

/-- Lets a node be selected or not when its parent is. -/
def makeOptional (index : Nat) : Edit Error Unit := setCardinality index .optional

/-! ## Constraints -/

/-- Adds a constraint. -/
def addConstraint (m : FeatureModel) (f : Formula) : FeatureModel :=
  { m with constraints := m.constraints ++ [f] }

end FeatureModel

end Variability
