import Variability.Cardinality.Basic
import Variability.Value

/-!
Spans: ranges as they are given, whose ends may be numbers of any type.

A span with whole ends is a range.
-/

namespace Variability

/-- The numbers between two ends; a missing upper end is `null`. -/
structure Span where
  lower : Value
  upper : Value := .null

namespace Span

/-- Why two values are no ends of a span. -/
inductive Error where
  | negativeLower (lower : Value)
  | inverted (lower upper : Value)
  | incomparable (e : Value.Incomparable)

/-- The text of an error, if its values can be written. -/
def Error.message? : Error → Option String
  | negativeLower lower => do return "lower bound must not be negative: " ++ (← lower.display?)
  | inverted lower upper => do
    return "upper bound " ++ (← upper.display?) ++ " is below lower bound " ++ (← lower.display?)
  | incomparable e => some e.message

/-- The span with the given ends. -/
def ofEnds (lower upper : Value) : Except Error Span := do
  if ← (lower.compares .less (.int 0)).mapError .incomparable then throw (.negativeLower lower)
  if upper.isPresent then
    if ← (upper.compares .less lower).mapError .incomparable then throw (.inverted lower upper)
  return ⟨lower, upper⟩

/-- All numbers from `lower` on. -/
def atLeast (lower : Value) : Except Error Span := ofEnds lower .null

/-- The single number `count`. -/
def exactly (count : Value) : Except Error Span := ofEnds count count

/-- The numbers from 0 to `upper`; without one, all from 0 on. -/
def atMost (upper : Value) : Except Error Span := ofEnds (.int 0) upper

/-- Whether there is no upper end. -/
def isUnbounded (s : Span) : Bool := !s.upper.isPresent

/-- Whether a number lies in the span. -/
def contains (s : Span) (v : Value) : Except Value.Incomparable Bool := do
  if ← v.compares .atLeast s.lower then
    if s.upper.isPresent then v.compares .atMost s.upper else return true
  else return false

/-- The span as text, with a star for a missing end, if its ends can be written. -/
def text? (s : Span) : Option String := do
  let lower ← s.lower.display?
  let upper ← if s.upper.isPresent then s.upper.display? else some "*"
  return "[" ++ lower ++ ".." ++ upper ++ "]"

/-- The type of a group with the given span. -/
def groupType (s : Span) : GroupType :=
  if s.isUnbounded then
    if s.lower.isNumber 0 then .and else if s.lower.isNumber 1 then .or else .cardinality
  else if s.lower.isNumber 1 && s.upper.isNumber 1 then .alternative
  else .cardinality

/-- The end as a natural number, if it is one. -/
def wholeEnd? : Value → Option Nat
  | .int n => if 0 ≤ n then some n.toNat else none
  | _ => none

/-- The range with the same ends, if these are whole numbers. -/
def toRange? (s : Span) : Option Range := do
  let lower ← wholeEnd? s.lower
  if s.upper.isPresent then
    let upper ← wholeEnd? s.upper
    Range.between? lower (some upper)
  else Range.between? lower none

end Span

end Variability
