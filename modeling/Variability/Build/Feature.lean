import Variability.Attribute
import Variability.Build.Bound

/-!
Building one feature: its name, its attributes in the order of the document,
and its type.
-/

namespace Variability.Build

/-- An action that may fail for one reason of several, as part of a construction. -/
def orThrow {α ε : Type} (cause : ε → Error) : Except ε α → Build α
  | .ok a => pure a
  | .error e => throw (cause e)

/-- An operation on the model, as part of a construction. -/
def onModel {α : Type} (op : Edit FeatureModel.Error α) : Build α := op.adaptExcept .model

/-- The attribute with the given scope, name and type. It is declared if it is new. -/
def declare (scope : Option String) (name : String) (type : ValueType) : Build Attribute := do
  let m ← get
  let (a, registry) ← orThrow .attributeType (m.registry.declare scope name type)
  set { m with registry }
  return a

/-- The attribute that a key stands for, for values of the given type. -/
def resolveAttribute (key : String) (type : ValueType) : Build Attribute :=
  match Attribute.ofPlainKey? key with
  | some a => pure a
  | none =>
    match AttributeKey.decode? key with
    | none => throw (.invalidKey key)
    | some (scope, name) => declare scope name type

/-- Gives a value to an attribute of the feature with the given name. -/
def setValue (name : Option String) (a : Attribute) (value : Value) : Build Unit := do
  let m ← get
  let f ← orThrow .attributeType ((m.featureOf (.registered name)).setValue a value)
  set (m.storeFeature f)

/-- Gives the feature with the given name the attributes of the document. -/
def setAttributes (name : Option String) : List (String × Value) → Build Unit
  | [] => pure ()
  | (key, value) :: rest => do
    if value.isPresent then
      let a ← resolveAttribute key value.type
      setValue name a value
      setAttributes name rest
    else throw (.missingValue key name)

/-- The type of a feature; without one it is Boolean. -/
def featureType (type : Value) : Except Error FeatureType :=
  if type.isPresent then
    match FeatureType.ofValue? type with
    | some t => .ok t
    | none => .error (.unknownType type)
  else .ok .boolean

/-- The value that decides whether a feature is abstract; a missing one counts as false. -/
def abstractValue {n : Nat} (f : Document.Feature n) : Value :=
  match f.attributes.find? Attribute.abstract.name with
  | none | some .null => .bool false
  | some value => value

/-- Registers the feature of a document, and gives its name. -/
def addFeature {n : Nat} (f : Document.Feature n) : Build (Option String) := do
  let name := f.fullName
  if (← get).features.contains name then throw (.duplicateName name)
  let _ ← onModel (FeatureModel.addFeature name)
  setValue name .abstract (abstractValue f)
  setAttributes name f.attributes.entries
  let type ← orThrow id (featureType f.type)
  modify (fun m => m.storeFeature { m.featureOf (.registered name) with type })
  return name

end Variability.Build
