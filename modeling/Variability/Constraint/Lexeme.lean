import Variability.Constraint.Token

/-!
Splitting a constraint text into tokens with their places, up to the first
character that starts no token.
-/

namespace Variability.Constraint

/-- A place in a text: line and column, counted from 1. Only a line feed starts a line. -/
structure Place where
  line : Nat
  column : Nat
deriving DecidableEq, Repr

namespace Place

/-- The place of the first character. -/
def start : Place := ⟨1, 1⟩

/-- The place behind a character. -/
def after (p : Place) (c : Char) : Place :=
  if c = '\n' then ⟨p.line + 1, 1⟩ else ⟨p.line, p.column + 1⟩

/-- The place behind some characters. -/
def afterAll (p : Place) (cs : List Char) : Place := cs.foldl after p

end Place

/-- A token and the place of its first character. -/
structure Lexeme where
  token : Token
  place : Place
deriving DecidableEq, Repr

/-- A character that starts no token, and its place. -/
structure Stray where
  char : Char
  place : Place
deriving DecidableEq, Repr

/-- The tokens of a text up to its end, or up to a stray character. -/
structure Lexemes where
  lexemes : List Lexeme
  stray : Option Stray
deriving DecidableEq, Repr

/-- The tokens of the characters from a place on. -/
def scanFrom (p : Place) : List Char → Lexemes
  | [] => ⟨[], none⟩
  | c :: cs =>
    if isSpace c then scanFrom (p.after c) cs
    else
      match _h : nextToken? (c :: cs) with
      | none => ⟨[], some ⟨c, p⟩⟩
      | some (token, n) =>
        let rest := scanFrom (p.afterAll ((c :: cs).take n)) ((c :: cs).drop n)
        { rest with lexemes := ⟨token, p⟩ :: rest.lexemes }
termination_by cs => cs.length
decreasing_by
  · simp
  · have := nextToken?_length_pos _h
    simp only [List.length_drop, List.length_cons]
    omega

/-- The tokens of a text. -/
def scan (s : String) : Lexemes := scanFrom .start s.toList

end Variability.Constraint
