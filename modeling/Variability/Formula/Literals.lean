import Variability.Formula.Basic
import Variability.Table

/-!
The literals of a formula: the names that it mentions, each once, in the order of
first appearance from left to right, and the replacement of its literals by
formulas, all at once.

Both search a deep formula without deep recursion. Formulas that are still to be
searched wait on a list; for a replacement, the nodes still to be visited wait on
a list of tasks and the replaced operands on a second one, from which a finished
connective takes its own.
-/

namespace Variability.Formula

/-! ## Names -/

/-- Adds the names in `pending`, searched in order, to the names `found` before. -/
def collectNames (found : List String) : List Formula → List String
  | [] => found
  | literal name :: pending => collectNames (appendNew found name) pending
  | top :: pending => collectNames found pending
  | bottom :: pending => collectNames found pending
  | hole :: pending => collectNames found pending
  | neg f :: pending => collectNames found (f :: pending)
  | conj fs :: pending => collectNames found (fs ++ pending)
  | disj fs :: pending => collectNames found (fs ++ pending)
  | implies f g :: pending => collectNames found (f :: g :: pending)
termination_by pending => sizes pending
decreasing_by all_goals simp only [sizes, size, sizes_append]; omega

/-- The names of the literals, in the order of first appearance. -/
def literals (f : Formula) : List String := collectNames [] [f]

/-! ## Replacing literals -/

/-- The connective of `f` over other operands, if their number fits; otherwise `f`. -/
def withChildren (f : Formula) (operands : List Formula) : Formula :=
  match f, operands with
  | neg _, [g] => neg g
  | conj _, gs => conj gs
  | disj _, gs => disj gs
  | implies _ _, [g, h] => implies g h
  | f, _ => f

namespace Substitution

/-- What is still to be done with a node. -/
inductive Task where
  /-- Replace the literals of the node. -/
  | visit (f : Formula)
  /-- Put the node together over its replaced operands. -/
  | close (f : Formula)

/-- An upper bound of the steps that a task takes. -/
def Task.weight : Task → Nat
  | visit f => 2 * f.size
  | close _ => 1

/-- An upper bound of the steps that the tasks take. -/
def weight : List Task → Nat
  | [] => 0
  | task :: tasks => task.weight + weight tasks

theorem weight_append (tasks tasks' : List Task) :
    weight (tasks ++ tasks') = weight tasks + weight tasks' := by
  induction tasks with
  | nil => rw [List.nil_append, weight, Nat.zero_add]
  | cons task tasks ih => rw [List.cons_append, weight, weight, ih, Nat.add_assoc]

theorem weight_visits (fs : List Formula) : weight (fs.map .visit) = 2 * sizes fs := by
  induction fs with
  | nil => rfl
  | cons f fs ih =>
    simp only [weight, List.map_cons, Task.weight, sizes] at ih ⊢
    omega

/-- Carries out the tasks; `done` holds the replaced nodes, the latest first. -/
def run (σ : String → Formula) (done : List Formula) : List Task → List Formula
  | [] => done
  | .visit (literal name) :: tasks => run σ (σ name :: done) tasks
  | .visit f :: tasks =>
    if f.children.isEmpty then run σ (f :: done) tasks
    else run σ done (f.children.map .visit ++ .close f :: tasks)
  | .close f :: tasks =>
    let count := f.children.length
    run σ (f.withChildren (done.take count).reverse :: done.drop count) tasks
termination_by tasks => weight tasks
decreasing_by
  all_goals simp only [weight, weight_append, weight_visits, Task.weight]
  · simp [size]
  · have := size_eq_sizes_children f; omega
  · have := size_eq_sizes_children f; omega
  · omega

end Substitution

/-- The formula with every literal `name` replaced by `σ name`. -/
def substitute (f : Formula) (σ : String → Formula) : Formula :=
  (Substitution.run σ [] [.visit f]).getLastD f

end Variability.Formula
