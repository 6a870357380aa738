import Variability.Constraint.Lexeme
import Variability.Formula.Basic
import Variability.Text

/-!
Reading the tokens of a constraint as a formula, one token after the other.

Negation binds tightest, then conjunction, disjunction, implication and
equivalence. Implications group to the right, the others to the left; a chain
of conjunctions or of disjunctions is one formula with all its operands. An
equivalence stands for the implications in both directions.

Between two tokens the reader either wants an operand or has one. What is still
open in front of it is a list of frames, the innermost first: a parenthesis, a
negation, or a left operand with its connective. The first token that cannot
come next ends the reading.
-/

namespace Variability.Constraint

namespace Connective

/-- How tightly a connective binds. -/
def rank : Connective → Nat
  | equivalence => 0
  | implication => 1
  | disjunction => 2
  | conjunction => 3

/-- The least rank of a connective to the left whose operation comes first. -/
def yieldsTo : Connective → Nat
  | implication => 2
  | op => op.rank

/-- The formula of two operands; a conjunction or disjunction on the left is continued. -/
def apply : Connective → Formula → Formula → Formula
  | equivalence, f, g => .conj [.implies f g, .implies g f]
  | implication, f, g => .implies f g
  | disjunction, .disj fs, g => .disj (fs ++ [g])
  | disjunction, f, g => .disj [f, g]
  | conjunction, .conj fs, g => .conj (fs ++ [g])
  | conjunction, f, g => .conj [f, g]

end Connective

/-- What is open in front of a place in a constraint. -/
inductive Frame where
  | opening
  | negation
  | left (operand : Formula) (op : Connective)
deriving DecidableEq, Repr

/-- What has been read up to a place between two tokens. -/
inductive Reading where
  /-- An operand has to come next. -/
  | wanting (frames : List Frame)
  /-- An operand has come last. -/
  | having (frames : List Frame) (operand : Formula)
deriving DecidableEq, Repr

namespace Reading

/-- Carries out the negations and the connectives of at least the given rank that stand directly
in front of an operand. -/
def reduce (least : Nat) : List Frame → Formula → List Frame × Formula
  | .negation :: frames, f => reduce least frames (.neg f)
  | .left g op :: frames, f =>
    if least ≤ op.rank then reduce least frames (op.apply g f) else (.left g op :: frames, f)
  | frames, f => (frames, f)

/-- Reads the next token, if it can come next. -/
def step? : Reading → Token → Option Reading
  | wanting frames, .reference name => some (having frames (.literal name))
  | wanting frames, .quotedReference name => some (having frames (.literal name))
  | wanting frames, .top => some (having frames .top)
  | wanting frames, .bottom => some (having frames .bottom)
  | wanting frames, .negation => some (wanting (.negation :: frames))
  | wanting frames, .opening => some (wanting (.opening :: frames))
  | having frames f, .connective op =>
    let (frames', g) := reduce op.yieldsTo frames f
    some (wanting (.left g op :: frames'))
  | having frames f, .closing =>
    match reduce 0 frames f with
    | (.opening :: frames', g) => some (having frames' g)
    | _ => none
  | wanting _, _ | having _ _, _ => none

/-- The formula that has been read, if nothing is open. -/
def finish? : Reading → Option Formula
  | wanting _ => none
  | having frames f =>
    match reduce 0 frames f with
    | ([], g) => some g
    | _ => none

end Reading

/-- Why a text is not a constraint. -/
inductive ParseError where
  /-- The token cannot come next. -/
  | unexpected (lexeme : Lexeme)
  /-- The text ends too early; its last token is at the place. -/
  | unexpectedEnd (last : Place)
  /-- The character starts no token. -/
  | stray (stray : Stray)
deriving DecidableEq, Repr

/-- The text of an error. -/
def ParseError.message : ParseError → String
  | unexpected ⟨token, place⟩ =>
    "Unexpected token Token('" ++ token.terminal ++ "', " ++ Text.quoted token.text ++
      ") at line " ++ toString place.line ++ ", column " ++ toString place.column ++ "."
  | unexpectedEnd place =>
    "Unexpected token Token('$END', '') at line " ++ toString place.line ++ ", column " ++
      toString place.column ++ "."
  | stray ⟨char, place⟩ =>
    "No terminal matches '" ++ String.singleton char ++
      "' in the current parser context, at line " ++ toString place.line ++ " col " ++
      toString place.column

/-- Reads the remaining tokens; `last` is the place of the token before them. -/
def readAll (reading : Reading) (last : Place) (stray : Option Stray) :
    List Lexeme → Except ParseError Formula
  | [] =>
    match stray, reading.finish? with
    | some c, _ => .error (.stray c)
    | none, some f => .ok f
    | none, none => .error (.unexpectedEnd last)
  | lexeme :: lexemes =>
    match reading.step? lexeme.token with
    | some next => readAll next lexeme.place stray lexemes
    | none => .error (.unexpected lexeme)

/-- The formula of a constraint text. -/
def parse (s : String) : Except ParseError Formula :=
  let scanned := scan s
  readAll (.wanting []) .start scanned.stray scanned.lexemes

end Variability.Constraint
