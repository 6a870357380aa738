import Variability.Text

/-!
The tokens of constraint texts, and how the next one is read.

Each token is the longest match of its pattern. A reference is a name, or names
joined by a point or a double colon; between double quotes it is any text
without a double quote. `true` and `false` are constants only if a reference
spells nothing else.
-/

namespace Variability.Constraint

/-- The connectives written between two operands. -/
inductive Connective where
  | equivalence
  | implication
  | disjunction
  | conjunction
deriving DecidableEq, Repr

/-- A token of a constraint. -/
inductive Token where
  | reference (name : String)
  | quotedReference (name : String)
  | top
  | bottom
  | negation
  | connective (op : Connective)
  | opening
  | closing
deriving DecidableEq, Repr

/-- The characters of a connective. -/
def Connective.text : Connective → String
  | equivalence => "<=>"
  | implication => "=>"
  | disjunction => "|"
  | conjunction => "&"

/-- The name of a connective in messages. -/
def Connective.terminal : Connective → String
  | equivalence => "__ANON_0"
  | implication => "__ANON_1"
  | disjunction => "VBAR"
  | conjunction => "AMPERSAND"

namespace Token

/-- The characters of a token. -/
def text : Token → String
  | reference name => name
  | quotedReference name => "\"" ++ name ++ "\""
  | top => "true"
  | bottom => "false"
  | negation => "!"
  | connective op => op.text
  | opening => "("
  | closing => ")"

/-- The name of the kind of a token in messages. -/
def terminal : Token → String
  | reference _ => "REFERENCE"
  | quotedReference _ => "QUOTED_REFERENCE"
  | top => "TRUE"
  | bottom => "FALSE"
  | negation => "BANG"
  | connective op => op.terminal
  | opening => "LPAR"
  | closing => "RPAR"

end Token

/-! ## Character classes; all of them are ASCII. -/

/-- Whether a character stands between tokens. -/
def isSpace (c : Char) : Bool := c == ' ' || c == '\t' || c == '\x0c' || c == '\r' || c == '\n'

/-- Whether a name may start with the character. -/
def isNameStart (c : Char) : Bool := c.isAlpha || c == '_'

/-- Whether a name may go on with the character. -/
def isNamePart (c : Char) : Bool := c.isAlphanum || c == '_'

/-! ## References -/

/-- The number of characters at the start that are a mark between names, with a name after it. -/
def joinerLength : List Char → Nat
  | '.' :: c :: _ => if isNameStart c then 1 else 0
  | ':' :: ':' :: c :: _ => if isNameStart c then 2 else 0
  | _ => 0

theorem joinerLength_le (cs : List Char) : joinerLength cs ≤ cs.length := by
  unfold joinerLength
  split <;> (try split) <;> simp

/-- The number of characters at the start that go on a name. -/
def nameLength (cs : List Char) : Nat := (cs.takeWhile isNamePart).length

/-- The number of characters at the start that go on a reference. -/
def restLength (cs : List Char) : Nat :=
  if joinerLength (cs.drop (nameLength cs)) = 0 then nameLength cs
  else
    let joined := nameLength cs + joinerLength (cs.drop (nameLength cs))
    joined + restLength (cs.drop joined)
termination_by cs.length
decreasing_by
  have := joinerLength_le (cs.drop (nameLength cs))
  simp only [List.length_drop] at *
  omega

/-- The token that a reference spells. -/
def Token.ofName (name : String) : Token :=
  if name = "true" then .top else if name = "false" then .bottom else .reference name

/-! ## The next token -/

/-- The token at the start of a text without leading spaces, and its length. -/
def nextToken? : List Char → Option (Token × Nat)
  | '<' :: '=' :: '>' :: _ => some (.connective .equivalence, 3)
  | '=' :: '>' :: _ => some (.connective .implication, 2)
  | '|' :: _ => some (.connective .disjunction, 1)
  | '&' :: _ => some (.connective .conjunction, 1)
  | '!' :: _ => some (.negation, 1)
  | '(' :: _ => some (.opening, 1)
  | ')' :: _ => some (.closing, 1)
  | '"' :: cs =>
    let name := cs.takeWhile (· != '"')
    if name.isEmpty || name.length = cs.length then none
    else some (.quotedReference (String.ofList name), name.length + 2)
  | c :: cs =>
    if isNameStart c then
      let rest := restLength cs
      some (Token.ofName (String.ofList (c :: cs.take rest)), rest + 1)
    else none
  | [] => none

theorem nextToken?_length_pos {cs : List Char} {t : Token} {n : Nat}
    (h : nextToken? cs = some (t, n)) : 0 < n := by
  unfold nextToken? at h
  split at h <;> (try dsimp only at h) <;> (try split at h) <;> grind

end Variability.Constraint
