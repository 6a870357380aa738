import Variability.Number.Numeral

/-!
Problems found while a document is converted, results that carry them, and the
errors that reach a caller.
-/

namespace Variability

/-- How serious a problem is. -/
inductive Severity where
  | error
  | warning
  | info
deriving DecidableEq, Repr

namespace Severity

/-- The severity in running text. -/
def label : Severity → String
  | error => "error"
  | warning => "warning"
  | info => "info"

/-- The severity as a constant. -/
def constant : Severity → String
  | error => "ERROR"
  | warning => "WARNING"
  | info => "INFO"

end Severity

/-- A message about something that went wrong. -/
structure Problem where
  message : String
  severity : Severity := .error
deriving DecidableEq, Repr

namespace Problem

/-- The problem as running text. -/
def text (p : Problem) : String := p.severity.label ++ ": " ++ p.message

/-- The problem as a constructor. -/
def constructorText (p : Problem) : String :=
  "Problem(" ++ Text.quoted p.message ++ ", " ++ p.severity.constant ++ ")"

end Problem

/-- A value that may be missing, with the problems found on the way to it. -/
structure Result (α : Type) where
  value : Option α
  problems : List Problem := []

namespace Result

/-- Why no value could be put into a result, or taken out of it. -/
inductive Error where
  | noValue
  /-- The result is empty because of these problems. -/
  | isEmpty (problems : List Problem)
deriving DecidableEq, Repr

/-- The text of an error. -/
def Error.message : Error → String
  | noValue => "Result.of requires a value, use Result.empty instead"
  | isEmpty problems =>
    let details := String.intercalate "; " (problems.map Problem.text)
    if details.isEmpty then "Result is empty" else "Result is empty: " ++ details

variable {α : Type}

/-- A result with a value; it is refused if there is none. -/
def ofValue (value : Option α) (problems : List Problem := []) : Except Error (Result α) :=
  if value.isNone then .error .noValue else .ok ⟨value, problems⟩

/-- A result without a value. -/
def empty (problems : List Problem := []) : Result α := ⟨none, problems⟩

/-- Whether there is a value. -/
def isPresent (r : Result α) : Bool := r.value.isSome

/-- Whether there is no value. -/
def isEmpty (r : Result α) : Bool := r.value.isNone

/-- Whether there are problems. -/
def hasProblems (r : Result α) : Bool := !r.problems.isEmpty

/-- The value; the problems explain why there is none. -/
def get (r : Result α) : Except Error α :=
  match r.value with
  | some a => .ok a
  | none => .error (.isEmpty r.problems)

/-- The value, or another one if there is none. -/
def getD (r : Result α) (other : α) : α := r.value.getD other

/-- The result as a constructor, given the text of a value, if that can be written. -/
def constructorText? (literal? : α → Option String) (r : Result α) : Option String := do
  let value ← match r.value with
    | some a => literal? a
    | none => some "None"
  return "Result(" ++ value ++ ", problems=[" ++
    String.intercalate ", " (r.problems.map Problem.constructorText) ++ "])"

end Result

/-- The kinds of errors that a caller tells apart. -/
inductive ErrorKind where
  | parse
  | attributeType
  | value
  | key
  | index
  | overflow
deriving DecidableEq, Repr

/-- The name of a kind of errors. -/
def ErrorKind.name : ErrorKind → String
  | parse => "ParseError"
  | attributeType => "AttributeTypeError"
  | value => "ValueError"
  | key => "KeyError"
  | index => "IndexError"
  | overflow => "OverflowError"

/-- An error as it reaches a caller. -/
structure Raised where
  kind : ErrorKind
  message : String
deriving DecidableEq, Repr

/-- The error of the given kind, with its message. The message is written before the error is made:
if it holds a whole number of too many digits, that is the error that reaches the caller. -/
def Raised.of (kind : ErrorKind) (message? : Option String) : Raised :=
  match message? with
  | some message => ⟨kind, message⟩
  | none => ⟨.value, Number.tooLongText⟩

end Variability
