import Variability.BoolExpr.Basic

/-!
Connectives that simplify: constants are absorbed, a junction takes over the
operands of junctions of its own kind, and a double negation is dropped. A
junction of complementary operands is kept as it is.
-/

namespace Variability.BoolExpr

/-- The operands that `e` contributes to a junction: none if it is neutral. -/
def contributed (op : Junctor) : BoolExpr → List BoolExpr
  | const b => if b = op.neutral then [] else [const b]
  | junction op' es => if op' = op then es else [junction op' es]
  | e => [e]

/-- Whether `e` decides a junction alone. -/
def isAbsorbing (op : Junctor) : BoolExpr → Bool
  | const b => b != op.neutral
  | _ => false

/-- The junction of a set of operands; none or one of them needs no junctor. -/
def ofOperands (op : Junctor) : List BoolExpr → BoolExpr
  | [] => const op.neutral
  | [e] => e
  | es => junction op es

/-- The junction of the given expressions. -/
def join (op : Junctor) (es : List BoolExpr) : BoolExpr :=
  if es.any (isAbsorbing op) then const (!op.neutral)
  else ofOperands op (operandSet (es.flatMap (contributed op)))

/-- The negation of an expression. -/
def negate : BoolExpr → BoolExpr
  | const b => const (!b)
  | neg e => e
  | e => neg e

/-- Whether the expression is a constant. -/
def isConst : BoolExpr → Bool
  | const _ => true
  | _ => false

/-- The implication between two expressions, one of which may be a constant. -/
def imply (a b : BoolExpr) : BoolExpr :=
  if a.isConst || b.isConst then join .any [a.negate, b]
  else if a.same b then const true
  else implies a b

/-! ## Size -/

theorem sizes_contributed_le (op : Junctor) (e : BoolExpr) :
    sizes (contributed op e) ≤ e.size := by
  cases e with
  | const b => simp only [contributed]; split <;> simp [sizes, size]
  | junction op' es => simp only [contributed]; split <;> simp [sizes, size]
  | _ => simp [contributed, sizes]

theorem sizes_append (es es' : List BoolExpr) : sizes (es ++ es') = sizes es + sizes es' := by
  induction es with
  | nil => rw [List.nil_append, sizes, Nat.zero_add]
  | cons e es ih => rw [List.cons_append, sizes, sizes, ih, Nat.add_assoc]

theorem sizes_flatMap_contributed_le (op : Junctor) (es : List BoolExpr) :
    sizes (es.flatMap (contributed op)) ≤ sizes es := by
  induction es with
  | nil => simp [sizes]
  | cons e es ih =>
    have := sizes_contributed_le op e
    simp only [List.flatMap_cons, sizes_append, sizes]
    omega

theorem size_ofOperands_le (op : Junctor) (es : List BoolExpr) :
    (ofOperands op es).size ≤ sizes es + 1 := by
  unfold ofOperands
  split <;> simp [sizes, size]

theorem size_join_le (op : Junctor) (es : List BoolExpr) : (join op es).size ≤ sizes es + 1 := by
  unfold join
  split
  · simp [size]
  · have h₁ := size_ofOperands_le op (operandSet (es.flatMap (contributed op)))
    have h₂ := sizes_operandSet_le (es.flatMap (contributed op))
    have h₃ := sizes_flatMap_contributed_le op es
    omega

end Variability.BoolExpr
