import Variability.Number.Numeral

/-!
Cardinalities: inclusive ranges of natural numbers, possibly without an upper
end, and the four types of a group that they distinguish.
-/

namespace Variability

/-- The numbers from `lower` to `upper`, or from `lower` on. -/
structure Range where
  lower : Nat
  upper : Option Nat
  lower_le_upper : ∀ u, upper = some u → lower ≤ u
deriving DecidableEq

namespace Range

/-- All numbers from `lower` on. -/
def atLeast (lower : Nat) : Range := ⟨lower, none, by simp⟩

/-- The single number `count`. -/
def exactly (count : Nat) : Range := ⟨count, some count, by simp⟩

/-- The numbers up to `upper`; without one, all numbers. -/
def atMost (upper : Option Nat) : Range := ⟨0, upper, by simp⟩

instance : Inhabited Range := ⟨atLeast 0⟩

/-- The numbers between two natural bounds, if the upper one is not below the lower one. -/
def between? (lower : Nat) (upper : Option Nat) : Option Range :=
  match upper with
  | none => some (atLeast lower)
  | some u => if h : lower ≤ u then some ⟨lower, some u, by simpa using h⟩ else none

/-- The range as text, with a star for a missing end, if its ends can be written. -/
def text? (r : Range) : Option String := do
  let lower ← Number.writeInteger? r.lower
  let upper ← match r.upper with
    | some u => Number.writeInteger? u
    | none => some "*"
  return "[" ++ lower ++ ".." ++ upper ++ "]"

/-- The cardinality of what has to be selected. -/
def mandatory : Range := exactly 1

/-- The cardinality of what may be selected or not. -/
def optional : Range := ⟨0, some 1, by simp⟩

end Range

/-- What a group asks of its children. -/
inductive GroupType where
  | and
  | or
  | alternative
  | cardinality
deriving DecidableEq, Repr

namespace GroupType

/-- The type of a group with the given range. -/
def ofRange (r : Range) : GroupType :=
  if r = .atLeast 0 then and
  else if r = .atLeast 1 then or
  else if r = .exactly 1 then alternative
  else cardinality

/-- The name of a group type. -/
def name : GroupType → String
  | and => "and"
  | or => "or"
  | alternative => "alternative"
  | cardinality => "cardinality"

end GroupType

end Variability
