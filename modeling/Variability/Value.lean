import Variability.Number.Numeral

/-!
Values that a document gives to attributes and bounds.

A value has a type and a text: text in quotes, lists in brackets, dictionaries in
braces, real numbers by their shortest decimal. Only whole numbers of too many
digits cannot be written. A value may stand for a whole number.
Numbers of any type compare by what they are worth, and nothing else compares.
-/

namespace Variability

/-- A value of a document. The keys of a dictionary differ from each other. -/
inductive Value where
  | null
  | bool (b : Bool)
  | int (n : Int)
  | float (x : Float)
  | text (s : String)
  | list (items : List Value)
  | dict (entries : List (String × Value))
deriving Inhabited

/-- The type of a value; no value has two types. -/
inductive ValueType where
  | null
  | bool
  | int
  | float
  | text
  | list
  | dict
deriving DecidableEq, Repr

/-- The name of a type in messages. -/
def ValueType.name : ValueType → String
  | null => "NoneType"
  | bool => "bool"
  | int => "int"
  | float => "float"
  | text => "str"
  | list => "list"
  | dict => "dict"

namespace Value

/-- The type of a value. -/
def type : Value → ValueType
  | null => .null
  | bool _ => .bool
  | int _ => .int
  | float _ => .float
  | text _ => .text
  | list _ => .list
  | dict _ => .dict

/-- Whether the value is present. -/
def isPresent : Value → Bool
  | null => false
  | _ => true

/-- Why a value stands for no whole number. -/
inductive IntegerError where
  | notNumeric
  | infinite
deriving DecidableEq, Repr

/-- The whole number a value stands for: a truth value counts as 0 or 1, a
fraction is cut off, a text is read. -/
def toInteger : Value → Except IntegerError Int
  | bool b => .ok (if b then 1 else 0)
  | int n => .ok n
  | float x =>
    match Number.Binary.ofFloat x with
    | .notANumber => .error .notNumeric
    | .infinite _ => .error .infinite
    | .finite negative m q =>
      let n : Int := Number.Binary.wholePart m q
      .ok (if negative then -n else n)
  | text s =>
    match Number.readInteger? s with
    | some n => .ok n
    | none => .error .notNumeric
  | null | list _ | dict _ => .error .notNumeric

/-- The number that a value is; a truth value is 0 or 1. -/
def number? : Value → Option Number.Binary
  | bool b => some (.ofInt (if b then 1 else 0))
  | int n => some (.ofInt n)
  | float x => some (.ofFloat x)
  | null | text _ | list _ | dict _ => none

/-! ## Texts -/

/-- Real numbers are positional from 10^-4 up to 10^16, and an exponent has two digits or more. -/
def realLayout : Number.Layout := ⟨-4, 16, 2⟩

mutual

/-- The value as a literal, with quotes around text. A whole number of too many digits has none, and
neither has a value that holds one. -/
def literal? : Value → Option String
  | null => some "None"
  | bool b => some (if b then "True" else "False")
  | int n => Number.writeInteger? n
  | float x => some (realLayout.text (Number.Binary.ofFloat x))
  | text s => some (Text.quoted s)
  | list items => do return "[" ++ String.intercalate ", " (← literals? items) ++ "]"
  | dict entries => do
    return "\x7b" ++ String.intercalate ", " (← entryLiterals? entries) ++ "\x7d"

/-- The literals of a list of values. -/
def literals? : List Value → Option (List String)
  | [] => some []
  | v :: rest => do return (← v.literal?) :: (← literals? rest)

/-- The literals of the entries of a dictionary, each a key and a value. -/
def entryLiterals? : List (String × Value) → Option (List String)
  | [] => some []
  | (k, v) :: rest => do return (Text.quoted k ++ ": " ++ (← v.literal?)) :: (← entryLiterals? rest)

end

/-- The value as running text: text stands without quotes. -/
def display? : Value → Option String
  | text s => some s
  | v => v.literal?

end Value

/-! ## Comparisons -/

/-- A comparison of two values. -/
inductive Comparison where
  | less
  | atMost
  | atLeast
deriving DecidableEq, Repr

namespace Comparison

/-- The sign of a comparison. -/
def sign : Comparison → String
  | less => "<"
  | atMost => "<="
  | atLeast => ">="

/-- Whether the comparison holds of two numbers in this order. -/
def accepts : Comparison → Ordering → Bool
  | less, o => o == .lt
  | atMost, o => o != .gt
  | atLeast, o => o != .lt

end Comparison

namespace Value

/-- Values of these types do not compare. -/
structure Incomparable where
  comparison : Comparison
  left : ValueType
  right : ValueType
deriving DecidableEq, Repr

/-- The text of an error. -/
def Incomparable.message (e : Incomparable) : String :=
  "'" ++ e.comparison.sign ++ "' not supported between instances of '" ++ e.left.name ++
    "' and '" ++ e.right.name ++ "'"

/-- Whether the comparison holds of two values. It holds of nothing that is not a number. -/
def compares (c : Comparison) (v w : Value) : Except Incomparable Bool :=
  match v.number?, w.number? with
  | some x, some y => .ok ((x.compare? y).any c.accepts)
  | _, _ => .error ⟨c, v.type, w.type⟩

/-- Whether a value is the given number. -/
def isNumber (n : Nat) (v : Value) : Bool :=
  v.number?.any (fun x => x.compare? (.ofInt n) == some .eq)

end Value

end Variability
