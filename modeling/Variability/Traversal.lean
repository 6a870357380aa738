/-!
Trees, and visiting their nodes depth first.

A visitor is called when a node is entered and again when it is left, each time
with the path of the node, and decides how to go on. The nodes still to be
entered or left wait on a list, so that deep trees need no deep recursion.
-/

namespace Variability

universe u v

/-- A tree with a label at each node. -/
inductive Tree (α : Type u) where
  | node (label : α) (children : List (Tree α))

namespace Tree

variable {α : Type u}

/-- The label of the topmost node. -/
def label : Tree α → α
  | node a _ => a

/-- The trees directly below the topmost node. -/
def children : Tree α → List (Tree α)
  | node _ ts => ts

mutual

/-- The number of nodes of a tree. -/
def size : Tree α → Nat
  | node _ ts => sizes ts + 1

/-- The number of nodes of all trees of a list. -/
def sizes : List (Tree α) → Nat
  | [] => 0
  | t :: ts => t.size + sizes ts

end

end Tree

namespace Traversal

/-- How a traversal goes on after a visit. -/
inductive Action where
  /-- Go on with the children. -/
  | proceed
  /-- Leave the node at once. -/
  | skipChildren
  /-- End the traversal. -/
  | skipAll
  /-- End the traversal, which has failed. -/
  | fail
deriving DecidableEq, Repr

/-- Whether the action ends the traversal. -/
def Action.ends : Action → Bool
  | skipAll | fail => true
  | proceed | skipChildren => false

/-- What is done at the nodes of a tree. A path starts at the current node and ends at the root. -/
structure Visitor (α : Type u) (σ : Type v) where
  /-- What comes before the first visit. -/
  reset : σ → σ := id
  /-- What is done when a node is entered. -/
  enter : List α → σ → Action × σ
  /-- What is done when a node is left. -/
  leave : List α → σ → Action × σ

/-- A step that is still to be taken. -/
inductive Step (α : Type u) where
  | enter (t : Tree α)
  /-- Leave the node at the start of the path. -/
  | leave

variable {α : Type u} {σ : Type v}

/-- An upper bound of the steps that a step leads to. -/
def Step.weight : Step α → Nat
  | enter t => 2 * t.size
  | leave => 1

/-- An upper bound of the steps that the steps lead to. -/
def weight : List (Step α) → Nat
  | [] => 0
  | step :: steps => step.weight + weight steps

theorem weight_append (steps steps' : List (Step α)) :
    weight (steps ++ steps') = weight steps + weight steps' := by
  induction steps with
  | nil => rw [List.nil_append, weight, Nat.zero_add]
  | cons step steps ih => rw [List.cons_append, weight, weight, ih, Nat.add_assoc]

/-- Enter the trees from left to right. -/
def enterAll (ts : List (Tree α)) : List (Step α) := ts.map .enter

theorem weight_enterAll (ts : List (Tree α)) : weight (enterAll ts) = 2 * Tree.sizes ts := by
  induction ts with
  | nil => rfl
  | cons t ts ih =>
    simp only [enterAll, weight, List.map_cons, Step.weight, Tree.sizes] at ih ⊢
    omega

/-- Takes the steps one after the other, as long as the visitor does not end the traversal. -/
def run (v : Visitor α σ) (path : List α) (state : σ) : List (Step α) → σ
  | [] => state
  | .leave :: steps =>
    let (action, state) := v.leave path state
    if action.ends then state else run v path.tail state steps
  | .enter (.node a ts) :: steps =>
    match v.enter (a :: path) state with
    | (.proceed, state) => run v (a :: path) state (enterAll ts ++ .leave :: steps)
    | (.skipChildren, state) => run v (a :: path) state (.leave :: steps)
    | (_, state) => state
termination_by steps => weight steps
decreasing_by
  all_goals simp only [weight, weight_append, weight_enterAll, Step.weight, Tree.size]
  all_goals omega

end Traversal

/-- Visits the nodes of a tree depth first, and gives the last state of the visitor. -/
def Tree.traverse {α : Type u} {σ : Type v} (t : Tree α) (v : Traversal.Visitor α σ)
    (state : σ) : σ :=
  Traversal.run v [] (v.reset state) [.enter t]

end Variability
