import Variability.Traversal

/-!
Depth-first traversal as a recursion over the tree.

The steps that wait on the list stand for the calls that a recursion still has
to make: `visit` enters a node, visits its children from left to right, and
leaves the node, and it hands the state on until an action of the visitor ends
the traversal. `run_enter` and `run_enterAll` say that the list of steps does
the same, for every visitor, and `traverse_eq` says it of a whole traversal.
-/

namespace Variability

universe u v

variable {α : Type u} {σ : Type v}

namespace Tree

/-- Induction over a tree: a property holds of a tree if it does of the trees below the topmost
node. -/
@[induction_eliminator] theorem inductionOn {motive : Tree α → Prop}
    (node : ∀ a ts, (∀ t ∈ ts, motive t) → motive (.node a ts)) (t : Tree α) : motive t := by
  refine @Tree.rec α motive (fun ts => ∀ t ∈ ts, motive t) node ?_ ?_ t
  · intro t ht
    cases ht
  · intro t ts ht hts t' ht'
    rcases List.mem_cons.mp ht' with rfl | ht'
    · exact ht
    · exact hts t' ht'

mutual

/-- The labels of a tree, those of the children before that of the node. -/
def postorder : Tree α → List α
  | node a ts => postorders ts ++ [a]

/-- The labels of all trees of a list. -/
def postorders : List (Tree α) → List α
  | [] => []
  | t :: ts => t.postorder ++ postorders ts

end

@[simp] theorem postorders_eq (ts : List (Tree α)) : postorders ts = ts.flatMap postorder := by
  induction ts with
  | nil => rfl
  | cons t ts ih => rw [postorders, ih, List.flatMap_cons]

mutual

/-- The labels of a tree, that of the node before those of the children. -/
def preorder : Tree α → List α
  | node a ts => a :: preorders ts

/-- The labels of all trees of a list. -/
def preorders : List (Tree α) → List α
  | [] => []
  | t :: ts => t.preorder ++ preorders ts

end

@[simp] theorem preorders_eq (ts : List (Tree α)) : preorders ts = ts.flatMap preorder := by
  induction ts with
  | nil => rfl
  | cons t ts ih => rw [preorders, ih, List.flatMap_cons]

theorem mem_preorder {t : Tree α} {a : α} : a ∈ t.preorder ↔ a ∈ t.postorder := by
  induction t with
  | node b ts ih =>
    rw [preorder, postorder, preorders_eq, postorders_eq, List.mem_cons, List.mem_append,
      List.mem_singleton, or_comm, List.mem_flatMap, List.mem_flatMap]
    exact or_congr_left (exists_congr fun t => and_congr_right fun ht => ih t ht)

end Tree

namespace Traversal

/-- Leaves the node at the start of the path; an error carries the state in which the traversal
ends. -/
def Visitor.finish (v : Visitor α σ) (path : List α) (state : σ) : Except σ σ :=
  let (action, state) := v.leave path state
  if action.ends then .error state else .ok state

mutual

/-- Visits a tree below the nodes of a path. -/
def visit (v : Visitor α σ) (path : List α) (state : σ) : Tree α → Except σ σ
  | .node a ts =>
    match v.enter (a :: path) state with
    | (.proceed, state) =>
      match visits v (a :: path) state ts with
      | .ok state => v.finish (a :: path) state
      | .error state => .error state
    | (.skipChildren, state) => v.finish (a :: path) state
    | (_, state) => .error state

/-- Visits trees from left to right. -/
def visits (v : Visitor α σ) (path : List α) (state : σ) : List (Tree α) → Except σ σ
  | [] => .ok state
  | t :: ts =>
    match visit v path state t with
    | .ok state => visits v path state ts
    | .error state => .error state

end

/-- The steps that follow, unless the traversal has ended. -/
def resume (v : Visitor α σ) (path : List α) (steps : List (Step α)) : Except σ σ → σ
  | .ok state => run v path state steps
  | .error state => state

variable (v : Visitor α σ)

theorem run_leave (path : List α) (state : σ) (steps : List (Step α)) :
    run v path state (.leave :: steps) = resume v path.tail steps (v.finish path state) := by
  rw [run, Visitor.finish]
  rcases v.leave path state with ⟨action, s⟩
  cases action <;> rfl

/-- The steps of several trees are the recursion, if those of each of them are. -/
theorem run_enterAll_of {ts : List (Tree α)}
    (h : ∀ t ∈ ts, ∀ path state steps,
      run v path state (.enter t :: steps) = resume v path steps (visit v path state t))
    (path : List α) (state : σ) (steps : List (Step α)) :
    run v path state (enterAll ts ++ steps) = resume v path steps (visits v path state ts) := by
  induction ts generalizing state with
  | nil => rfl
  | cons t ts ih =>
    have ht := h t List.mem_cons_self path state (enterAll ts ++ steps)
    rw [enterAll, List.map_cons, List.cons_append, ← enterAll, ht, visits]
    cases visit v path state t with
    | error s => rfl
    | ok s => exact ih (fun t' ht' => h t' (List.mem_cons_of_mem _ ht')) s

theorem run_enter (t : Tree α) (path : List α) (state : σ) (steps : List (Step α)) :
    run v path state (.enter t :: steps) = resume v path steps (visit v path state t) := by
  induction t generalizing path state steps with
  | node a ts ih =>
    rw [run, visit]
    rcases v.enter (a :: path) state with ⟨action, s⟩
    cases action with
    | proceed =>
      -- The node is left after its children, with the path that it was entered with.
      simp only [run_enterAll_of v ih]
      cases visits v (a :: path) s ts with
      | error s' => rfl
      | ok s' => exact run_leave v (a :: path) s' steps
    | skipChildren => exact run_leave v (a :: path) s steps
    | skipAll => rfl
    | fail => rfl

/-- What every visit keeps, whatever its action is, holds at the end if it holds before. -/
theorem run_invariant {v : Visitor α σ} {P : σ → Prop}
    (henter : ∀ path s, P s → P (v.enter path s).2)
    (hleave : ∀ path s, P s → P (v.leave path s).2) {path : List α} {state : σ}
    {steps : List (Step α)} (h : P state) : P (run v path state steps) := by
  fun_induction run v path state steps with
  | case1 => exact h
  | case2 path state steps action state' hv hends =>
    have hnext := hleave path state h
    rwa [hv] at hnext
  | case3 path state steps action state' hv hends ih =>
    refine ih ?_
    have hnext := hleave path state h
    rwa [hv] at hnext
  | case4 path state a ts steps state' hv ih | case5 path state a ts steps state' hv ih =>
    refine ih ?_
    have hnext := henter (a :: path) state h
    rwa [hv] at hnext
  | case6 path state a ts steps action state' hproceed hskip hv =>
    have hnext := henter (a :: path) state h
    rwa [hv] at hnext

/-- The state in which a recursion ends. -/
def finalState : Except σ σ → σ
  | .ok state => state
  | .error state => state

theorem resume_nil (path : List α) (outcome : Except σ σ) :
    resume v path [] outcome = finalState outcome := by
  cases outcome with
  | ok s => rw [resume, run]; rfl
  | error s => rfl

end Traversal

/-- A traversal is the recursion over the tree. -/
theorem Tree.traverse_eq (v : Traversal.Visitor α σ) (t : Tree α) (state : σ) :
    t.traverse v state = Traversal.finalState (Traversal.visit v [] (v.reset state) t) := by
  rw [Tree.traverse, Traversal.run_enter, Traversal.resume_nil]

end Variability
