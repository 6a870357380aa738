import Variability.BoolExpr.NormalForm
import Variability.BoolExpr.OfFormula

/-!
Formulas in conjunctive normal form over numbered variables.

A clause is a list of signed variable numbers; a number that is given to a name
may be negative or belong to several names.
-/

namespace Variability

/-- The number of each variable, in the order of the variables. -/
abbrev Numbering := Table String Int

/-- Numbers the names from 1 on. -/
def Numbering.ofNames (names : List String) : Numbering :=
  Table.ofList (names.zipIdx.map (fun p => (p.1, (p.2 : Int) + 1)))

/-- A list of clauses, and the names of its variables. -/
structure Cnf where
  clauses : List (List Int)
  numbering : Numbering

namespace Cnf

/-- Why a formula has no clauses. -/
inductive Error where
  /-- These names have no number. -/
  | unnumbered (names : List String)
  /-- A place holder occurs in the formula. -/
  | placeHolder
deriving DecidableEq, Repr

/-- The text of an error. -/
def Error.message : Error → String
  | unnumbered names => "no variable id for: " ++ String.intercalate ", " names
  | placeHolder => "unsupported formula node: Formula()"

/-- The greatest variable number: of the literals in the clauses by absolute value, and of the
numbering as it is. -/
def variableCount (c : Cnf) : Nat :=
  let used := c.clauses.flatten.foldl (fun n l => max n l.natAbs) 0
  c.numbering.values.foldl (fun n i => max n i.toNat) used

/-- One comment for each variable: its number and its name. -/
def comments (c : Cnf) : List String :=
  c.numbering.entries.map (fun e => "c " ++ toString e.2 ++ " " ++ e.1)

/-- The signed number of a variable or of a negated variable. -/
def literalOf? (number : String → Int) : BoolExpr → Option Int
  | .var x => some (number x)
  | .neg (.var x) => some (-number x)
  | _ => none

/-- The clause of a disjunction, or of a single literal. -/
def clauseOf (number : String → Int) : BoolExpr → List Int
  | .junction .any es => es.filterMap (literalOf? number)
  | e => (literalOf? number e).toList

/-- The clauses of an expression in conjunctive normal form. -/
def clausesOf (number : String → Int) : BoolExpr → List (List Int)
  | .const true => []
  | .const false => [[]]
  | .junction .all es => es.map (clauseOf number)
  | e => [clauseOf number e]

/-- The names of a formula that have no number, in order of first appearance. -/
def unnumbered (f : Formula) (numbering : Numbering) : List String :=
  f.literals.filter (fun x => !numbering.contains x)

end Cnf

/-- The clauses of a formula over the given variable numbers, by a strategy of distribution. -/
def Formula.clauses (f : Formula) (numbering : Numbering) (strategy : BoolExpr.Strategy) :
    Except Cnf.Error (List (List Int)) :=
  match Cnf.unnumbered f numbering with
  | [] =>
    match BoolExpr.ofFormula? f with
    | some e =>
      .ok (Cnf.clausesOf (fun x => (numbering.find? x).getD 0) (e.conjunctive strategy))
    | none => .error .placeHolder
  | names => .error (.unnumbered names)

/-- The conjunctive normal form of a formula, by a strategy of distribution. Without a numbering its
variables are numbered in the order of first appearance. -/
def Formula.toCnf (f : Formula) (strategy : BoolExpr.Strategy)
    (numbering : Option Numbering := none) : Except Cnf.Error Cnf := do
  let numbering := numbering.getD (Numbering.ofNames f.literals)
  let clauses ← f.clauses numbering strategy
  return ⟨clauses, numbering⟩

end Variability
