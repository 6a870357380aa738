import Variability.BoolExpr.Connective
import Variability.Formula.Literals

/-!
The Boolean expression of a formula.

A junction takes the operands of nested junctions of its own kind for its own,
at any depth, before they are converted. The nodes still to be visited wait on
a list of tasks and the converted operands on a second one, from which a
finished connective takes its own; deep formulas need no deep recursion.
-/

namespace Variability.BoolExpr

/-- The operands of a junction `op`, with nested junctions of the same kind replaced by theirs. -/
def spliced (op : Junctor) : List Formula → List Formula
  | [] => []
  | .conj fs :: pending =>
    match op with
    | .all => spliced op (fs ++ pending)
    | .any => .conj fs :: spliced op pending
  | .disj fs :: pending =>
    match op with
    | .all => .disj fs :: spliced op pending
    | .any => spliced op (fs ++ pending)
  | f :: pending => f :: spliced op pending
termination_by pending => Formula.sizes pending
decreasing_by
  any_goals (simp only [Formula.sizes, Formula.size, Formula.sizes_append]; omega)
  have h := Formula.size_pos f
  simp only [Formula.sizes]
  omega

/-- The operands that are converted before a node: the spliced ones of a junction. -/
def operandsOf : Formula → List Formula
  | .conj fs => spliced .all fs
  | .disj fs => spliced .any fs
  | f => f.children

theorem sizes_spliced_le (op : Junctor) (fs : List Formula) :
    Formula.sizes (spliced op fs) ≤ Formula.sizes fs := by
  fun_induction spliced op fs with
  | case1 => exact Nat.le_refl _
  | _ => simp_all only [Formula.sizes, Formula.size, Formula.sizes_append]; omega

theorem sizes_operandsOf_lt (f : Formula) : Formula.sizes (operandsOf f) < f.size := by
  cases f with
  | conj fs => have := sizes_spliced_le .all fs; simp only [operandsOf, Formula.size]; omega
  | disj fs => have := sizes_spliced_le .any fs; simp only [operandsOf, Formula.size]; omega
  | _ => simp [operandsOf, Formula.children, Formula.sizes, Formula.size, Nat.add_assoc]

/-- The expression of a node over its converted operands; a place holder has none. -/
def ofNode? : Formula → List BoolExpr → Option BoolExpr
  | .literal name, _ => some (var name)
  | .top, _ => some (const true)
  | .bottom, _ => some (const false)
  | .neg _, [e] => some e.negate
  | .conj _, es => some (join .all es)
  | .disj _, es => some (join .any es)
  | .implies _ _, [a, b] => some (imply a b)
  | .hole, _ | .neg _, _ | .implies _ _, _ => none

namespace Conversion

/-- What is still to be done with a node. -/
inductive Task where
  /-- Convert the node. -/
  | visit (f : Formula)
  /-- Put the node together over its converted operands, so many of them. -/
  | close (f : Formula) (count : Nat)

/-- An upper bound of the steps that a task takes. -/
def Task.weight : Task → Nat
  | visit f => 2 * f.size
  | close _ _ => 1

/-- An upper bound of the steps that the tasks take. -/
def weight : List Task → Nat
  | [] => 0
  | task :: tasks => task.weight + weight tasks

theorem weight_append (tasks tasks' : List Task) :
    weight (tasks ++ tasks') = weight tasks + weight tasks' := by
  induction tasks with
  | nil => rw [List.nil_append, weight, Nat.zero_add]
  | cons task tasks ih => rw [List.cons_append, weight, weight, ih, Nat.add_assoc]

theorem weight_visits (fs : List Formula) : weight (fs.map .visit) = 2 * Formula.sizes fs := by
  induction fs with
  | nil => rfl
  | cons f fs ih =>
    simp only [weight, List.map_cons, Task.weight, Formula.sizes] at ih ⊢
    omega

/-- Carries out the tasks; `done` holds the converted nodes, the latest first. -/
def run (done : List BoolExpr) : List Task → Option (List BoolExpr)
  | [] => some done
  | .visit f :: tasks =>
    let operands := operandsOf f
    if operands.isEmpty then
      match ofNode? f [] with
      | some e => run (e :: done) tasks
      | none => none
    else run done (operands.map .visit ++ .close f operands.length :: tasks)
  | .close f count :: tasks =>
    match ofNode? f (done.take count).reverse with
    | some e => run (e :: done.drop count) tasks
    | none => none
termination_by tasks => weight tasks
decreasing_by
  all_goals simp only [weight, weight_append, weight_visits, Task.weight]
  · have := sizes_operandsOf_lt f
    omega
  · have := sizes_operandsOf_lt f
    omega
  · omega

end Conversion

/-- The expression of a formula, unless a place holder occurs in it. -/
def ofFormula? (f : Formula) : Option BoolExpr :=
  (Conversion.run [] [.visit f]).bind (fun done => done.getLast?)

/-- The variables in use after the conversion of a formula: the ones known before, then the
others in the order in which the conversion meets them. -/
def variablesWith (known : List String) (f : Formula) : List String :=
  f.literals.foldl appendNew (known.foldl appendNew [])

end Variability.BoolExpr
