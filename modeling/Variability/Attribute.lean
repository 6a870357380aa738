import Variability.Table
import Variability.Value

/-!
Attributes of features. An attribute has a scope, a name and the type of its
values; a registry holds one attribute for each scope and name.

Documents store attributes under keys: a name, or a scope and a name with a colon
between them. Inside a scope or name every run of colons is written one colon
longer, so that a single colon always separates.
-/

namespace Variability

/-- An attribute and the type of its values. -/
structure Attribute where
  scope : Option String
  name : String
  type : ValueType
deriving DecidableEq, Repr

namespace Attribute

/-- Why an attribute could not be used. -/
inductive Error where
  /-- The value is of another type than the attribute. -/
  | mismatch (declared : Attribute) (value : Value)
  /-- The attribute is declared, and not with this type. -/
  | conflict (declared : Attribute) (type : ValueType)

/-- The scope and the name of an attribute in messages. -/
def label (a : Attribute) : String :=
  match a.scope with
  | none => a.name
  | some scope => scope ++ ":" ++ a.name

/-- The text of an error, if the value in it can be written. -/
def Error.message? : Error → Option String
  | mismatch a value => do
    return "attribute " ++ a.label ++ " expects " ++ a.type.name ++ ", got " ++ value.type.name ++
      ": " ++ (← value.literal?)
  | conflict a type =>
    some ("attribute " ++ a.label ++ " is already declared as " ++ a.type.name ++ ", not " ++
      type.name)

/-- The value, if it has the type of the attribute; no type includes another one. -/
def cast (a : Attribute) (value : Value) : Except Error Value :=
  if value.type = a.type then .ok value else .error (.mismatch a value)

/-- The scope of the built-in attributes. -/
def builtInScope : String := "feature_model"

/-- The built-in attribute of features that stand for no artefact. -/
def abstract : Attribute := ⟨some builtInScope, "abstract", .bool⟩

/-- The built-in attribute of features that are not shown. -/
def hidden : Attribute := ⟨some builtInScope, "hidden", .bool⟩

/-- The built-in attribute that a plain key stands for. -/
def ofPlainKey? (key : String) : Option Attribute :=
  if key = abstract.name then some abstract
  else if key = hidden.name then some hidden
  else none

end Attribute

/-- The types of the declared attributes, by scope and name. -/
structure AttributeRegistry where
  types : Table (Option String × String) ValueType

namespace AttributeRegistry

/-- The registry of the built-in attributes. -/
def builtIn : AttributeRegistry :=
  ⟨Table.ofList
    ([Attribute.abstract, Attribute.hidden].map (fun a => ((a.scope, a.name), a.type)))⟩

instance : Inhabited AttributeRegistry := ⟨builtIn⟩

/-- Whether an attribute is declared. -/
def contains (r : AttributeRegistry) (scope : Option String) (name : String) : Bool :=
  r.types.contains (scope, name)

/-- The number of declared attributes. -/
def size (r : AttributeRegistry) : Nat := r.types.size

/-- The attribute with the given scope and name. It is declared with the type if it is new, and
refused if it is declared with another one. -/
def declare (r : AttributeRegistry) (scope : Option String) (name : String) (type : ValueType) :
    Except Attribute.Error (Attribute × AttributeRegistry) :=
  match r.types.find? (scope, name) with
  | none => .ok (⟨scope, name, type⟩, ⟨r.types.insert (scope, name) type⟩)
  | some declared =>
    if declared = type then .ok (⟨scope, name, type⟩, r)
    else .error (.conflict ⟨scope, name, declared⟩ type)

end AttributeRegistry

end Variability

/-! ## Keys -/

namespace Variability.AttributeKey

/-- The parts between the colons that have no colon beside them; `afterColon` tells whether a
colon stands in front. -/
def parts (afterColon : Bool) : List Char → List Char × List (List Char)
  | [] => ([], [])
  | c :: cs =>
    if c = ':' && !afterColon && cs.head? != some ':' then
      let (first, others) := parts true cs
      ([], first :: others)
    else
      let (first, others) := parts (c = ':') cs
      (c :: first, others)

/-- The characters with every run of two or more colons one colon shorter. -/
def shortenRuns (afterColon : Bool) : List Char → List Char
  | [] => []
  | c :: cs =>
    if c = ':' && !afterColon && cs.head? == some ':' then shortenRuns true cs
    else c :: shortenRuns (c = ':') cs

/-- The text that a part of a key stands for. -/
def decodePart (cs : List Char) : String := String.ofList (shortenRuns false cs)

/-- The scope and the name that a key stands for, if it has at most one separator. -/
def decode? (key : String) : Option (Option String × String) :=
  match parts false key.toList with
  | (name, []) => some (none, decodePart name)
  | (scope, [name]) => some (some (decodePart scope), decodePart name)
  | _ => none

end Variability.AttributeKey
