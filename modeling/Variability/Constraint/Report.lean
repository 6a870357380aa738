import Variability.Constraint.Parser
import Variability.Diagnostic
import Variability.Formula.Literals
import Variability.Formula.Printer

/-!
What becomes of the constraints of a document: a formula, or a problem.

Comparisons over attributes are recognised by their operators and left out;
everything else has to be a formula. In a formula a dotted reference `ns.A` stands
for the feature `ns::A` if there is one and no feature has the dotted name itself.
-/

namespace Variability.Constraint

/-! ## Kinds of constraints -/

/-- Whether the pattern occurs in the text. -/
def occurs (pattern : List Char) : List Char → Bool
  | [] => pattern.isEmpty
  | c :: cs => pattern.isPrefixOf (c :: cs) || occurs pattern cs

/-- Whether the pattern occurs in the text. -/
def mentions (text pattern : String) : Bool := occurs pattern.toList text.toList

/-- The operators that mark a comparison. -/
def comparisonOperators : List String := ["==", "!=", "<=", ">=", "<", ">"]

/-- The operators that mark a formula, whatever else occurs. -/
def formulaOperators : List String := ["=>", "<=>"]

/-- Whether the text is taken for a comparison over attributes. -/
def isArithmetic (text : String) : Bool :=
  comparisonOperators.any (mentions text) && !formulaOperators.any (mentions text)

/-- What one constraint text turns out to be. -/
inductive Outcome where
  /-- A comparison over attributes. -/
  | arithmetic (text : String)
  | formula (f : Formula)
  | malformed (text : String) (error : ParseError)
deriving Repr

/-- What a constraint text turns out to be. -/
def outcome (text : String) : Outcome :=
  if isArithmetic text then .arithmetic text
  else
    match parse text with
    | .ok f => .formula f
    | .error e => .malformed text e

/-- The message about a text that is not a constraint. -/
def malformedMessage (text : String) (error : ParseError) : String :=
  "Could not parse constraint '" ++ text ++ "': " ++ error.message

/-- The formula of a constraint text, or the problem with it. -/
def parseResult (text : String) : Result Formula :=
  match parse text with
  | .ok f => ⟨some f, []⟩
  | .error e => .empty [⟨malformedMessage text e, .error⟩]

/-- The levels of log entries, the least important one first. -/
inductive LogLevel where
  | debug
  | info
  | warning
deriving DecidableEq, Repr

/-- The name of a level. -/
def LogLevel.name : LogLevel → String
  | debug => "DEBUG"
  | info => "INFO"
  | warning => "WARNING"

/-- An entry of the log. -/
structure LogEntry where
  level : LogLevel
  message : String
deriving DecidableEq, Repr

namespace Outcome

/-- The formula, if the constraint is one. -/
def formula? : Outcome → Option Formula
  | formula f => some f
  | arithmetic _ | malformed _ _ => none

/-- The problem, if the constraint is no formula. -/
def problem? : Outcome → Option Problem
  | formula _ => none
  | arithmetic text => some ⟨"Ignored arithmetic constraint '" ++ Text.trim text ++ "'", .info⟩
  | malformed text e => some ⟨malformedMessage text e, .error⟩

/-- The log entry about a constraint. -/
def logEntry : Outcome → LogEntry
  | formula f => ⟨.debug, "Parsed constraint: " ++ f.text⟩
  | arithmetic text => ⟨.info, "Ignoring arithmetic constraint: " ++ Text.trim text⟩
  | malformed text e => ⟨.warning, malformedMessage text e⟩

end Outcome

/-- What becomes of a list of constraints, each list in their order. -/
structure Report where
  formulas : List Formula
  problems : List Problem
  log : List LogEntry

/-- What becomes of a list of constraint texts. -/
def report (texts : List String) : Report :=
  let outcomes := texts.map outcome
  { formulas := outcomes.filterMap Outcome.formula?
    problems := outcomes.filterMap Outcome.problem?
    log := outcomes.map Outcome.logEntry }

/-! ## References -/

/-- The characters before and after the last occurrence of `c`. -/
def splitAtLast? (c : Char) : List Char → Option (List Char × List Char)
  | [] => none
  | d :: ds =>
    match splitAtLast? c ds with
    | some (before, after) => some (d :: before, after)
    | none => if d = c then some ([], ds) else none

/-- The name with its last dot replaced by a double colon. -/
def qualifiedName? (name : String) : Option String :=
  (splitAtLast? '.' name.toList).map (fun p => String.ofList (p.1 ++ ':' :: ':' :: p.2))

/-- The feature that a reference means, or the reference itself. -/
def resolveName (isFeature : String → Bool) (name : String) : String :=
  if isFeature name then name
  else
    match qualifiedName? name with
    | some qualified => if isFeature qualified then qualified else name
    | none => name

/-- The formula with all references resolved. -/
def resolve (isFeature : String → Bool) (f : Formula) : Formula :=
  f.substitute (fun name => .literal (resolveName isFeature name))

end Variability.Constraint
