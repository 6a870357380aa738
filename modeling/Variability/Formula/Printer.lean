import Variability.Formula.Basic
import Variability.Text

/-!
The two texts of a formula: the constraint text, with as few parentheses as the
ranks of the connectives allow, and the constructor text, which names every
node.

A negation binds tightest, then conjunction, disjunction and implication; an
implication groups to the right. An empty conjunction reads `true` and an empty
disjunction `false`.
-/

namespace Variability.Formula

/-- How tightly the outermost connective binds; what has no operands binds tightest. -/
def rank : Formula → Nat
  | implies _ _ => 1
  | disj _ => 2
  | conj _ => 3
  | neg _ => 4
  | literal _ | top | bottom | hole => 5

/-- The text of `f`, in parentheses if `f` has operands and binds less tightly than `least`. -/
def enclosed (least : Nat) (f : Formula) (text : String) : String :=
  if !f.children.isEmpty && f.rank < least then "(" ++ text ++ ")" else text

mutual

/-- The formula as constraint text. -/
def text : Formula → String
  | literal name => name
  | top => "true"
  | bottom => "false"
  | hole => "Formula()"
  | neg f => "!" ++ enclosed 4 f f.text
  | conj fs => if fs.isEmpty then "true" else String.intercalate " & " (texts 4 fs)
  | disj fs => if fs.isEmpty then "false" else String.intercalate " | " (texts 3 fs)
  | implies f g => enclosed 2 f f.text ++ " => " ++ enclosed 1 g g.text

/-- The constraint texts of operands that have to bind at least as tightly as `least`. -/
def texts (least : Nat) : List Formula → List String
  | [] => []
  | f :: fs => enclosed least f f.text :: texts least fs

end

mutual

/-- The formula as nested constructors. -/
def constructorText : Formula → String
  | literal name => "Literal(name=" ++ Text.quoted name ++ ")"
  | top => "Tautology()"
  | bottom => "Contradiction()"
  | hole => "Formula()"
  | neg f => "Not(child=" ++ f.constructorText ++ ")"
  | conj fs => "And(" ++ String.intercalate ", " (constructorTexts fs) ++ ")"
  | disj fs => "Or(" ++ String.intercalate ", " (constructorTexts fs) ++ ")"
  | implies f g =>
    "Implies(left=" ++ f.constructorText ++ ", right=" ++ g.constructorText ++ ")"

/-- The constructor texts of a list of formulas. -/
def constructorTexts : List Formula → List String
  | [] => []
  | f :: fs => f.constructorText :: constructorTexts fs

end

end Variability.Formula
