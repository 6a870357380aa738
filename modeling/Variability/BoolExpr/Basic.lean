/-!
Boolean expressions in which the operands of a conjunction or disjunction form
a set: they are kept in ascending order without repetition, so that two
expressions with the same operands are equal.
-/

namespace Variability

/-- The two ways of joining operands: all of them hold, or any of them. -/
inductive Junctor where
  | all
  | any
deriving DecidableEq, Repr

namespace Junctor

/-- The junctor that negation turns this one into. -/
def dual : Junctor → Junctor
  | all => any
  | any => all

/-- The junctor, or its dual under a negation. -/
def under (positive : Bool) (op : Junctor) : Junctor := if positive then op else op.dual

/-- The value of the junction of no operands. -/
def neutral : Junctor → Bool
  | all => true
  | any => false

end Junctor

/-- A Boolean expression. -/
inductive BoolExpr where
  | const (value : Bool)
  | var (name : String)
  | neg (operand : BoolExpr)
  | junction (op : Junctor) (operands : List BoolExpr)
  | implies (left right : BoolExpr)
deriving Inhabited, Repr

namespace BoolExpr

mutual

/-- The number of nodes of an expression. -/
def size : BoolExpr → Nat
  | const _ | var _ => 1
  | neg e => e.size + 1
  | junction _ es => sizes es + 1
  | implies a b => a.size + b.size + 1

/-- The number of nodes of all expressions of a list. -/
def sizes : List BoolExpr → Nat
  | [] => 0
  | e :: es => e.size + sizes es

end

theorem sizes_perm {es es' : List BoolExpr} (h : es.Perm es') : sizes es = sizes es' := by
  induction h with
  | nil => rfl
  | cons e _ ih => rw [sizes, sizes, ih]
  | swap e e' es => simp only [sizes]; omega
  | trans _ _ ih ih' => exact ih.trans ih'

theorem size_pos (e : BoolExpr) : 0 < e.size := by cases e <;> simp [size]

/-! ## Order -/

/-- The place of the node's form in the order of expressions. -/
def form : BoolExpr → Nat
  | const _ => 0
  | var _ => 1
  | neg _ => 2
  | junction .all _ => 3
  | junction .any _ => 4
  | implies _ _ => 5

mutual

/-- Compares expressions by their forms, then by their parts from left to right. -/
def cmp : BoolExpr → BoolExpr → Ordering
  | const a, const b => compare a b
  | var a, var b => compare a b
  | neg e, neg e' => e.cmp e'
  | junction .all es, junction .all es' => cmpAll es es'
  | junction .any es, junction .any es' => cmpAll es es'
  | implies a b, implies a' b' => (a.cmp a').then (b.cmp b')
  | e, e' => compare e.form e'.form

/-- Compares lists of expressions, a shorter one first. -/
def cmpAll : List BoolExpr → List BoolExpr → Ordering
  | [], [] => .eq
  | [], _ :: _ => .lt
  | _ :: _, [] => .gt
  | e :: es, e' :: es' => (e.cmp e').then (cmpAll es es')

end

/-- Whether two expressions are equal. -/
def same (e e' : BoolExpr) : Bool := e.cmp e' == .eq

/-- Whether the first expression does not come after the second. -/
def le (e e' : BoolExpr) : Bool := e.cmp e' != .gt

/-! ## Sets of operands -/

/-- Leaves one of each run of equal expressions. -/
def collapseRuns : List BoolExpr → List BoolExpr
  | e :: e' :: es => if e.same e' then collapseRuns (e' :: es) else e :: collapseRuns (e' :: es)
  | es => es

/-- The set of the given expressions: ascending, without repetition. -/
def operandSet (es : List BoolExpr) : List BoolExpr := collapseRuns (es.mergeSort le)

theorem sizes_collapseRuns_le (es : List BoolExpr) : sizes (collapseRuns es) ≤ sizes es := by
  fun_induction collapseRuns es with
  | case1 e e' es h ih => simp only [sizes] at ih ⊢; omega
  | case2 e e' es h ih => simp only [sizes] at ih ⊢; omega
  | case3 es => omega

theorem sizes_operandSet_le (es : List BoolExpr) : sizes (operandSet es) ≤ sizes es := by
  exact Nat.le_trans (sizes_collapseRuns_le _)
    (Nat.le_of_eq (sizes_perm (List.mergeSort_perm es le)))

end BoolExpr

end Variability
