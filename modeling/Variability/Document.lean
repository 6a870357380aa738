import Variability.Feature

/-!
Documents: features with their groups as a parser found them, and constraints.

The groups of a feature name their members by number. Nothing keeps a feature
from being a member of several groups or from lying below itself.
-/

namespace Variability

namespace Document

/-- A group of features below another one, in a document of `n` features. -/
structure Group (n : Nat) where
  kind : Value
  lower : Value := .null
  upper : Value := .null
  members : List (Fin n) := []

/-- A feature in a document of `n` features. -/
structure Feature (n : Nat) where
  name : Option String := none
  scope : Option String := none
  type : Value := .null
  lower : Value := .null
  upper : Value := .null
  attributes : Table String Value := .empty
  groups : List (Group n) := []

namespace Feature

variable {n : Nat}

/-- The name of a feature in the whole document: with its scope in front, unless that is blank. -/
def fullName (f : Feature n) : Option String :=
  match f.scope with
  | some scope => if Text.hasInk scope then some (scope ++ "::" ++ nameText f.name) else f.name
  | none => f.name

/-- The feature as a constructor. -/
def constructorText (f : Feature n) : String := "UVLFeature(" ++ nameLiteral f.name ++ ")"

end Feature

end Document

/-- A document: features, the one to start from, and constraint texts. -/
structure Document where
  count : Nat
  features : Vector (Document.Feature count) count
  root : Fin count
  constraints : List String := []

namespace Document

/-- The feature with the given number. -/
def feature (d : Document) (i : Fin d.count) : Feature d.count := d.features.get i

/-- All groups, in the order of the features and of their groups. -/
def groups (d : Document) : List (Group d.count) :=
  d.features.toList.flatMap Feature.groups

/-- The group that a feature belongs to: the last one that names it. -/
def parentGroup? (d : Document) (i : Fin d.count) : Option (Group d.count) :=
  (d.groups.filter (fun g => i ∈ g.members)).getLast?

/-- A group as a constructor, if its kind can be written. -/
def groupText? (d : Document) (g : Group d.count) : Option String := do
  return "UVLGroup(" ++ (← g.kind.literal?) ++ ", [" ++
    String.intercalate ", " (g.members.map (fun i => nameLiteral (d.feature i).name)) ++ "])"

end Document

end Variability
