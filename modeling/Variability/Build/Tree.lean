import Variability.Build.Feature

/-!
Building the feature tree of a document.

Every feature gets its node when its group is built, and its cardinality and its
own groups later: the features that wait for these form a list, and the one that
was added last is taken first. A feature that is reached twice has the name of
an earlier one, so there are at most as many rounds as features.
-/

namespace Variability.Build

/-- A feature of a document whose groups are still to be built, and its node. -/
structure Waiting (n : Nat) where
  feature : Fin n
  node : Nat

variable (d : Document)

/-- Builds the member of a group below a node. -/
def addMember (node group : Nat) (i : Fin d.count) : Build (Waiting d.count) := do
  let name ← addFeature (d.feature i)
  let child ← onModel (FeatureModel.addBelow node (.registered name) group)
  return ⟨i, child⟩

/-- Builds the members of a group below a node; they wait with the last one first. -/
def addMembers (node group : Nat) (waiting : List (Waiting d.count)) :
    List (Fin d.count) → Build (List (Waiting d.count))
  | [] => pure waiting
  | i :: rest => do
    let w ← addMember d node group i
    addMembers node group (w :: waiting) rest

/-- Builds groups below a node. -/
def addGroups (owner : Option String) (node : Nat) (waiting : List (Waiting d.count)) :
    List (Document.Group d.count) → Build (List (Waiting d.count))
  | [] => pure waiting
  | g :: rest => do
    let range ← orThrow id (groupRange owner g)
    let built ← onModel (FeatureModel.addGroup node range)
    let waiting ← addMembers d node built.id waiting g.members
    addGroups owner node waiting rest

/-- Gives a node its cardinality and builds its groups. -/
def complete (w : Waiting d.count) (waiting : List (Waiting d.count)) :
    Build (List (Waiting d.count)) := do
  let cardinality ← orThrow .bound (featureCardinality d w.feature)
  onModel (FeatureModel.setCardinality w.node cardinality)
  let f := d.feature w.feature
  addGroups d f.name w.node waiting f.groups

/-- Completes waiting nodes, in so many rounds at most. -/
def completeAll : Nat → List (Waiting d.count) → Build Unit
  | _, [] => pure ()
  | 0, _ => pure ()
  | rounds + 1, w :: waiting => do
    let waiting ← complete d w waiting
    completeAll rounds waiting

/-- Builds the feature tree of a document, and gives the number of its root. -/
def tree : Build Nat := do
  let name ← addFeature (d.feature d.root)
  let root ← onModel (FeatureModel.addRoot (.registered name))
  completeAll d d.count [⟨d.root, root⟩]
  return root

end Variability.Build
