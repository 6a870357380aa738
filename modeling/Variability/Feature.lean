import Variability.Attribute

/-!
Features: named configuration options with a type and attribute values.
-/

namespace Variability

/-- The type of the value that a configuration gives to a feature. -/
inductive FeatureType where
  | boolean
  | integer
  | real
  | string
deriving DecidableEq, Repr, Inhabited

namespace FeatureType

/-- All feature types. -/
def all : List FeatureType := [boolean, integer, real, string]

/-- The name of a type in documents. -/
def name : FeatureType → String
  | boolean => "Boolean"
  | integer => "Integer"
  | real => "Real"
  | string => "String"

/-- The type as a constant. -/
def constant : FeatureType → String
  | boolean => "BOOLEAN"
  | integer => "INTEGER"
  | real => "REAL"
  | string => "STRING"

/-- The type of the values of such a feature. -/
def valueType : FeatureType → ValueType
  | boolean => .bool
  | integer => .int
  | real => .float
  | string => .text

/-- The type with the given name. -/
def ofName? (s : String) : Option FeatureType := all.find? (fun t => t.name = s)

/-- The type that a value names. -/
def ofValue? : Value → Option FeatureType
  | .text s => ofName? s
  | _ => none

theorem ofName?_name (t : FeatureType) : ofName? t.name = some t := by
  cases t <;> decide

end FeatureType

/-- The name of a feature as a literal in messages; it may be missing. -/
def nameLiteral : Option String → String
  | some name => Text.quoted name
  | none => "None"

/-- The name of a feature as running text; it may be missing. -/
def nameText : Option String → String
  | some name => name
  | none => "None"

/-- A configuration option. -/
structure Feature where
  name : Option String
  type : FeatureType := .boolean
  attributes : Table Attribute Value := .empty

namespace Feature

instance : Inhabited Feature := ⟨⟨none, .boolean, .empty⟩⟩

/-- The value of an attribute, or another one if it has none. -/
def valueD (f : Feature) (a : Attribute) (other : Value) : Value :=
  (f.attributes.find? a).getD other

/-- The value of the built-in attribute for features without artefacts. -/
def abstract (f : Feature) : Value := f.valueD .abstract (.bool false)

/-- The value of the built-in attribute for features that are not shown. -/
def hidden (f : Feature) : Value := f.valueD .hidden (.bool false)

/-- Gives a value to an attribute. -/
def setValue (f : Feature) (a : Attribute) (value : Value) : Except Attribute.Error Feature := do
  let value ← a.cast value
  return { f with attributes := f.attributes.insert a value }

/-- The feature as a constructor. -/
def constructorText (f : Feature) : String :=
  "Feature(" ++ nameLiteral f.name ++ ", " ++ f.type.constant ++ ")"

end Feature

end Variability
