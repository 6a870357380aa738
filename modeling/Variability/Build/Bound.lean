import Variability.Document
import Variability.FeatureModel.Operations

/-!
Why no feature model can be built from a document, and the cardinalities that the
bounds of a document stand for.

A bound is whatever stands for a natural number; a star stands for a missing
upper end. Members of mandatory and optional groups and groups of any other
kind than `cardinality` have fixed cardinalities, whatever their bounds.
-/

namespace Variability.Build

/-- Why a bound is no bound. -/
inductive BoundError where
  /-- The value stands for no whole number. -/
  | invalid (bound : Value) (context : String)
  | negative (bound : Value) (context : String)
  /-- The upper bound is below the lower one. -/
  | inverted (lower upper : Nat) (context : String)
  /-- The value is infinite. -/
  | infinite

/-- The kind of an error. -/
def BoundError.kind : BoundError → ErrorKind
  | invalid _ _ | negative _ _ | inverted _ _ _ => .parse
  | infinite => .overflow

/-- The text of an error, if the values in it can be written. -/
def BoundError.message? : BoundError → Option String
  | invalid bound context => do return "invalid bound " ++ (← bound.literal?) ++ " in " ++ context
  | negative bound context => do return "negative bound " ++ (← bound.literal?) ++ " in " ++ context
  | inverted lower upper context => do
    return "invalid bounds [" ++ (← Number.writeInteger? lower) ++ ".." ++
      (← Number.writeInteger? upper) ++ "] in " ++ context
  | infinite => some "cannot convert float infinity to integer"

/-- Why no feature model can be built. -/
inductive Error where
  | duplicateName (name : Option String)
  | unknownKind (kind : Value)
  | unknownType (type : Value)
  /-- The attribute key has more than one separator. -/
  | invalidKey (key : String)
  /-- The attribute has no value. -/
  | missingValue (key : String) (feature : Option String)
  | bound (e : BoundError)
  | attributeType (e : Attribute.Error)
  /-- The model refuses an operation. -/
  | model (e : FeatureModel.Error)

/-- The kind of an error. -/
def Error.kind : Error → ErrorKind
  | duplicateName _ | unknownKind _ | unknownType _ | invalidKey _ | missingValue _ _ => .parse
  | bound e => e.kind
  | attributeType _ => .attributeType
  | model e => e.kind

/-- The text of an error, if the values in it can be written. -/
def Error.message? : Error → Option String
  | duplicateName name => some ("duplicate feature name: " ++ nameText name)
  | unknownKind kind => do return "unrecognized group kind: " ++ (← kind.display?)
  | unknownType type => do return "unrecognized feature type: " ++ (← type.display?)
  | invalidKey key => some ("invalid attribute key: " ++ key)
  | missingValue key feature =>
    some ("attribute " ++ key ++ " of " ++ nameText feature ++ " has no value")
  | bound e => e.message?
  | attributeType e => e.message?
  | model e => e.message?

/-- The error as it reaches a caller. -/
def Error.raised (e : Error) : Raised := .of e.kind e.message?

end Variability.Build

namespace Variability

/-- A part of the construction of a model. -/
abbrev Build := Edit Build.Error

end Variability

namespace Variability.Build

/-- The kind of a group, by the name that documents give it. -/
inductive GroupKind where
  | mandatory
  | optional
  | alternative
  | or
  | cardinality
deriving DecidableEq, Repr

/-- The kind that a value names. -/
def GroupKind.ofValue? : Value → Option GroupKind
  | .text "mandatory" => some mandatory
  | .text "optional" => some optional
  | .text "alternative" => some alternative
  | .text "or" => some or
  | .text "cardinality" => some cardinality
  | _ => none

/-- Whether the bound is the star. -/
def isStar : Value → Bool
  | .text s => s = "*"
  | _ => false

/-- The natural number that a bound stands for. -/
def natural (bound : Value) (context : String) : Except BoundError Nat :=
  match bound.toInteger with
  | .ok n => if 0 ≤ n then .ok n.toNat else .error (.negative bound context)
  | .error .notNumeric => .error (.invalid bound context)
  | .error .infinite => .error .infinite

/-- The upper end that a bound stands for; the star and a missing bound stand for none. -/
def upperEnd (bound : Value) (context : String) : Except BoundError (Option Nat) :=
  if isStar bound || !bound.isPresent then .ok none
  else do return some (← natural bound context)

/-- The range between two ends. -/
def rangeBetween (lower : Nat) (upper : Option Nat) (context : String) : Except BoundError Range :=
  match Range.between? lower upper with
  | some r => .ok r
  | none => .error (.inverted lower (upper.getD 0) context)

/-- The range that the bounds of a feature stand for; without bounds it is optional. -/
def boundedCardinality {n : Nat} (f : Document.Feature n) : Except BoundError Range := do
  let context := nameText f.name
  if f.lower.isPresent then
    let lower ← natural f.lower context
    let upper ← upperEnd f.upper context
    rangeBetween lower upper context
  else if f.upper.isPresent then
    return .atMost (← upperEnd f.upper context)
  else return .atMost (some 1)

/-- The cardinality of a feature: the one that the kind of its group decides, or else the one of
its bounds. -/
def featureCardinality (d : Document) (i : Fin d.count) : Except BoundError Range :=
  match (d.parentGroup? i).bind (fun g => GroupKind.ofValue? g.kind) with
  | some .mandatory => .ok .mandatory
  | some .optional => .ok .optional
  | _ => boundedCardinality (d.feature i)

/-- The range of a group below a feature with the given name. -/
def groupRange {n : Nat} (owner : Option String) (g : Document.Group n) : Except Error Range :=
  match GroupKind.ofValue? g.kind with
  | some .mandatory | some .optional => .ok (.atLeast 0)
  | some .alternative => .ok (.exactly 1)
  | some .or => .ok (.atLeast 1)
  | some .cardinality =>
    let context := "group cardinality of " ++ nameText owner
    let range := do
      let lower ← natural g.lower context
      let upper ← upperEnd g.upper context
      rangeBetween lower upper context
    range.mapError .bound
  | none => .error (.unknownKind g.kind)

end Variability.Build
