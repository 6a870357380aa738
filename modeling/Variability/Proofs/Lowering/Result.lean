import Variability.Proofs.FeatureModel.Reachable
import Variability.Proofs.Lowering.Rule

/-!
The lowering of a feature tree as a recursion.

The visitor keeps the formulas of the nodes that it has left in an array, under
the numbers of the nodes, and the last of them apart. The invariant is that a
formula in the array is the one that the recursion gives (`Sound`), and that a
formula that is there stays there, so the formulas of all children are found
when their parent is left. The first node that is bad ends the traversal, and
takes the last formula away.

What is proved:
  1. `lowerFrom_result_eq`: for a well-formed model, the result is the formula of
     the recursion, or the message of the first bad node in postorder.
  2. `lowerFrom_reachable`: the same for every model that operations lead to.
-/

namespace Variability

namespace FeatureModel

open Lowering

/-- The first thing that is wrong with a node of the tree below `root`. -/
def defectAt? (m : FeatureModel) (root i : Nat) : Option Defect :=
  m.nodes[i]?.bind (defect? m (decide (i = root)))

/-- What is wrong with a node of the tree below `root`. -/
def BadAt (m : FeatureModel) (root i : Nat) : Prop :=
  ∃ n, m.nodes[i]? = some n ∧ Bad m (decide (i = root)) n

theorem isSome_defectAt?_iff {m : FeatureModel} {root i : Nat} :
    (m.defectAt? root i).isSome = true ↔ m.BadAt root i := by
  rw [defectAt?, BadAt]
  cases m.nodes[i]? with
  | none => simp
  | some n => simp [isSome_defect?_iff]

/-- The formula of the tree below a node that is not the root of the traversal. -/
def formulaBelow (m : FeatureModel) (i : Nat) : Formula := m.treeFormula false (m.subtree i)

end FeatureModel

namespace Lowering

open Traversal

variable {m : FeatureModel}

/-! ## The formulas in the array -/

/-- Whether the formula of a node is in the array. -/
def Stored (s : State) (i : Nat) : Prop := ∃ f, s.formulas[i]? = some (some f)

/-- There is a place for each node, and the formulas in the array are those of the recursion. -/
structure Sound (m : FeatureModel) (s : State) : Prop where
  size : s.formulas.size = m.size
  formula : ∀ i f, s.formulas[i]? = some (some f) → f = m.formulaBelow i

theorem lt_size_of_stored {s : State} (hs : Sound m s) {i : Nat} (hi : Stored s i) :
    i < m.size := by
  obtain ⟨f, hf⟩ := hi
  rw [← hs.size]
  exact (Array.getElem?_eq_some_iff.mp hf).1

theorem formulasOf_eq (h : m.WellFormed) {s : State} (hs : Sound m s) {cs : List Nat}
    (hstored : ∀ c ∈ cs, Stored s c) : s.formulasOf m cs = cs.map m.formulaBelow := by
  rw [State.formulasOf, ← List.filterMap_eq_map]
  refine List.filterMap_congr (fun c hc => ?_)
  have hc' : c < m.size := lt_size_of_stored hs (hstored c hc)
  have hn : m.nodes[c]? = some m.nodes[c] := Array.getElem?_eq_getElem hc'
  obtain ⟨f, hf⟩ := hstored c hc
  rw [hn, Option.bind_some, h.index_eq hn, hf, hs.formula c f hf]
  rfl

/-! ## Leaving a node -/

/-- What happens when a node is left after its children. -/
theorem finish_eq (h : m.WellFormed) {s : State} (hs : Sound m s) {i : Nat} {n : Node}
    (hn : m.nodes[i]? = some n) (hstored : ∀ c ∈ n.children, Stored s c) (above : List Nat) :
    (visitor m).finish (i :: above) s = match defect? m above.isEmpty n with
      | some d => .error { s with latest := none, problems := s.problems ++ [⟨d.message, .error⟩] }
      | none =>
        let f := ruleFormula m above.isEmpty n (n.children.map (fun c => (c, m.formulaBelow c)))
        .ok { s with formulas := s.formulas.setIfInBounds i (some f), latest := some f } := by
  have hf : ∀ cs, cs ⊆ n.children → s.formulasOf m cs = cs.map m.formulaBelow :=
    fun cs hsub => formulasOf_eq h hs (fun c hc => hstored c (hsub hc))
  simp only [Visitor.finish, visitor, leave, hn, h.index_eq hn, nodeFormula_eq hf]
  cases defect? m above.isEmpty n <;> rfl

/-! ## What a visit does -/

/-- What a visit from the state `s` has done when the nodes of the list have been left, or when
one of them was bad. -/
def Outcome (m : FeatureModel) (root : Nat) (s : State) (left : List Nat) :
    Except State State → Prop
  | .ok s' =>
    left.findSome? (m.defectAt? root) = none ∧ Sound m s' ∧ s'.problems = s.problems ∧
      (∀ i, Stored s i → Stored s' i) ∧ ∀ i ∈ left, Stored s' i
  | .error s' =>
    ∃ d, left.findSome? (m.defectAt? root) = some d ∧
      s'.result = ⟨none, s.problems ++ [⟨d.message, .error⟩]⟩

variable {root : Nat} {s s₁ : State} {left left₁ : List Nat} {outcome : Except State State}

theorem Outcome.nil (h : Sound m s) : Outcome m root s [] (.ok s) :=
  ⟨rfl, h, rfl, fun _ hi => hi, fun _ hi => by cases hi⟩

theorem Outcome.append (h : Outcome m root s left (.ok s₁))
    (h₁ : Outcome m root s₁ left₁ outcome) : Outcome m root s (left ++ left₁) outcome := by
  obtain ⟨hnone, -, hproblems, hkeep, hleft⟩ := h
  cases outcome with
  | ok s₂ =>
    obtain ⟨hnone₁, hsound₁, hproblems₁, hkeep₁, hleft₁⟩ := h₁
    refine ⟨by rw [List.findSome?_append, hnone, hnone₁]; rfl, hsound₁,
      hproblems₁.trans hproblems, fun i hi => hkeep₁ i (hkeep i hi), fun i hi => ?_⟩
    rcases List.mem_append.mp hi with hi | hi
    · exact hkeep₁ i (hleft i hi)
    · exact hleft₁ i hi
  | error s₂ =>
    obtain ⟨d, hd, hresult⟩ := h₁
    exact ⟨d, by rw [List.findSome?_append, hnone, hd]; rfl, by rw [hresult, hproblems]⟩

theorem Outcome.error_append {s' : State} (h : Outcome m root s left (.error s')) :
    Outcome m root s (left ++ left₁) (.error s') := by
  obtain ⟨d, hd, hresult⟩ := h
  exact ⟨d, by rw [List.findSome?_append, hd]; rfl, hresult⟩

/-- The visitor enters every node, so a visit fails only where a node is left. -/
theorem visit_eq (path : List Nat) (s : State) (i : Nat) (ts : List (Tree Nat)) :
    visit (visitor m) path s (.node i ts) =
      match visits (visitor m) (i :: path) (enter m (i :: path) s).2 ts with
      | .ok s' => (visitor m).finish (i :: path) s'
      | .error s' => .error s' := by
  have henter : (visitor m).enter (i :: path) s = (.proceed, (enter m (i :: path) s).2) := rfl
  rw [visit, henter]
  cases hv : visits (visitor m) (i :: path) (enter m (i :: path) s).2 ts <;> simp only [hv]

/-- Visiting trees one after the other does what visiting each of them does. -/
theorem outcome_visits {cs : List Nat} {path : List Nat}
    (h : ∀ c ∈ cs, ∀ s, Sound m s →
      Outcome m root s (m.subtree c).postorder (visit (visitor m) path s (m.subtree c)))
    (hs : Sound m s) :
    Outcome m root s (cs.flatMap (fun c => (m.subtree c).postorder))
      (visits (visitor m) path s (cs.map m.subtree)) := by
  induction cs generalizing s with
  | nil => exact .nil hs
  | cons c cs ih =>
    have hc := h c List.mem_cons_self s hs
    rw [List.map_cons, visits, List.flatMap_cons]
    cases hv : visit (visitor m) path s (m.subtree c) with
    | ok s₁ =>
      rw [hv] at hc
      exact hc.append (ih (fun c' hc' => h c' (List.mem_cons_of_mem _ hc')) hc.2.1)
    | error s₁ =>
      rw [hv] at hc
      exact hc.error_append

/-- Storing the formula of the recursion keeps the array sound. -/
theorem sound_store {f : Formula} {i : Nat} (h : Sound m s) (hf : f = m.formulaBelow i) :
    Sound m { s with formulas := s.formulas.setIfInBounds i (some f), latest := some f } := by
  constructor
  · rw [Array.size_setIfInBounds, h.size]
  · intro j g hj
    rw [Array.getElem?_setIfInBounds] at hj
    split at hj
    · next he =>
      split at hj
      · rw [← he, ← hf]
        exact (Option.some.inj (Option.some.inj hj)).symm
      · cases hj
    · exact h.formula j g hj

theorem stored_self {f : Formula} {i : Nat} (hi : i < s.formulas.size) :
    Stored { s with formulas := s.formulas.setIfInBounds i (some f), latest := some f } i :=
  ⟨f, by rw [Array.getElem?_setIfInBounds, if_pos rfl, if_pos hi]⟩

theorem stored_store {f : Formula} {i j : Nat} (h : Stored s j) :
    Stored { s with formulas := s.formulas.setIfInBounds i (some f), latest := some f } j := by
  obtain ⟨g, hg⟩ := h
  have hj : j < s.formulas.size := by
    obtain ⟨hj, -⟩ := Array.getElem?_eq_some_iff.mp hg
    exact hj
  by_cases he : i = j
  · subst he
    exact stored_self hj
  · exact ⟨g, by rw [Array.getElem?_setIfInBounds, if_neg he, hg]⟩

theorem treeFormula_subtree (h : m.WellFormed) {i : Nat} {n : Node} (hn : m.nodes[i]? = some n)
    (isRoot : Bool) : m.treeFormula isRoot (m.subtree i) =
      ruleFormula m isRoot n (n.children.map (fun c => (c, m.formulaBelow c))) := by
  have hlabel : ∀ c, (m.subtree c).label = c := by
    intro c
    rw [h.subtree_eq]
    rfl
  rw [h.subtree_eq, FeatureModel.treeFormula, hn, FeatureModel.treeFormulas_eq, List.map_map,
    FeatureModel.childrenOf_of_getElem? hn]
  simp only [Function.comp_def, hlabel]
  rfl

/-- Once the trees below all children have been visited, the children are stored. -/
theorem stored_children (h : m.WellFormed) {i : Nat} {n : Node} (hn : m.nodes[i]? = some n)
    (hstored : ∀ j ∈ (m.childrenOf i).flatMap (fun c => (m.subtree c).postorder), Stored s j) :
    ∀ c ∈ n.children, Stored s c := by
  intro c hc
  rw [← FeatureModel.childrenOf_of_getElem? hn] at hc
  exact hstored c (List.mem_flatMap.mpr ⟨c, hc, h.self_mem_postorder_subtree c⟩)

/-- A visit below the root of the traversal finds the first bad node, or stores the formulas of
all nodes. -/
theorem outcome_visit (h : m.WellFormed) : ∀ i < m.size, root < i → ∀ (path : List Nat),
    path ≠ [] → ∀ s, Sound m s →
      Outcome m root s (m.subtree i).postorder (visit (visitor m) path s (m.subtree i)) := by
  -- From the leaves to the root: the children keep the invariant, then the node is left.
  refine h.node_induction (fun i hi ih hroot path hpath s hs => ?_)
  have hn : m.nodes[i]? = some m.nodes[i] := Array.getElem?_eq_getElem hi
  have henter : (enter m (i :: path) s).2 = s := by
    have hlen : (i :: path).length ≠ 1 := by simpa using hpath
    rw [enter, if_neg hlen]
  have hbelow : Outcome m root s ((m.childrenOf i).flatMap (fun c => (m.subtree c).postorder))
      (visits (visitor m) (i :: path) s ((m.childrenOf i).map m.subtree)) := by
    refine outcome_visits (fun c hc s hs => ?_) hs
    have hlt := (h.lt_of_mem_childrenOf hc).1
    exact ih c hc (Nat.lt_trans hroot hlt) (i :: path) (List.cons_ne_nil _ _) s hs
  -- A node comes last in its own postorder, after the trees below its children.
  rw [h.postorder_subtree, h.subtree_eq, visit_eq, henter]
  cases hv : visits (visitor m) (i :: path) s ((m.childrenOf i).map m.subtree) with
  | error s₁ =>
    rw [hv] at hbelow
    exact hbelow.error_append
  | ok s₁ =>
    rw [hv] at hbelow
    obtain ⟨-, hsound, -, -, hstored⟩ := id hbelow
    have hchild := stored_children h hn hstored
    have hempty : path.isEmpty = false := by simpa using hpath
    have hdefect : m.defectAt? root i = defect? m false m.nodes[i] := by
      have hne : decide (i = root) = false := decide_eq_false (Nat.ne_of_gt hroot)
      rw [FeatureModel.defectAt?, hn, hne]
      rfl
    refine hbelow.append ?_
    show Outcome m root s₁ [i] ((visitor m).finish (i :: path) s₁)
    rw [finish_eq h hsound hn hchild path, hempty]
    cases hd : defect? m false m.nodes[i] with
    | some d =>
      refine ⟨d, ?_, rfl⟩
      rw [List.findSome?_singleton, hdefect, hd]
    | none =>
      have hf := treeFormula_subtree h hn false
      refine ⟨?_, sound_store hsound hf.symm, rfl, fun j hj => stored_store hj, ?_⟩
      · rw [List.findSome?_singleton, hdefect, hd]
      · intro j hj
        rw [List.mem_singleton.mp hj]
        exact stored_self (by rw [hsound.size]; exact hi)

/-! ## The result of a traversal -/

/-- The result is the formula of the recursion, or the message of the first bad node in postorder,
whatever the visitor has done before. -/
theorem lowerFrom_result_eq (h : m.WellFormed) (hroot : root < m.size) (s : State) :
    (m.lowerFrom root s).result =
      match (m.subtree root).postorder.findSome? (m.defectAt? root) with
      | some d => ⟨none, [⟨d.message, .error⟩]⟩
      | none => ⟨some (m.treeFormula true (m.subtree root)), []⟩ := by
  have hn : m.nodes[root]? = some m.nodes[root] := Array.getElem?_eq_getElem hroot
  -- The traversal resets the visitor, so `s` is forgotten before the root is entered.
  have hsound : Sound m (enter m [root] {}).2 := by
    constructor
    · simp [enter]
    · intro i f hi
      simp [enter, Array.getElem?_replicate] at hi
  have hbelow : Outcome m root (enter m [root] {}).2
      ((m.childrenOf root).flatMap (fun c => (m.subtree c).postorder))
      (visits (visitor m) [root] (enter m [root] {}).2 ((m.childrenOf root).map m.subtree)) := by
    refine outcome_visits (fun c hc s hs => ?_) hsound
    obtain ⟨hlt, hsize⟩ := h.lt_of_mem_childrenOf hc
    exact outcome_visit h c hsize hlt [root] (List.cons_ne_nil _ _) s hs
  have hdefect : m.defectAt? root root = defect? m true m.nodes[root] := by
    rw [FeatureModel.defectAt?, hn, decide_eq_true rfl]
    rfl
  rw [FeatureModel.lowerFrom, Tree.traverse_eq, h.subtree_eq, visit_eq, ← h.subtree_eq,
    h.postorder_subtree]
  show (finalState (match visits (visitor m) [root] (enter m [root] {}).2 _ with
    | .ok s' => (visitor m).finish [root] s'
    | .error s' => .error s')).result = _
  cases hv : visits (visitor m) [root] (enter m [root] {}).2
      ((m.childrenOf root).map m.subtree) with
  | error s₁ =>
    rw [hv] at hbelow
    obtain ⟨d, hd, hresult⟩ := hbelow
    rw [List.findSome?_append, hd]
    exact hresult
  | ok s₁ =>
    rw [hv] at hbelow
    obtain ⟨hnone, hsound₁, hproblems, -, hstored⟩ := hbelow
    have hchild := stored_children h hn hstored
    -- The root is left like the others, but its formula takes the place of the result.
    have hproblems₁ : s₁.problems = [] := hproblems
    rw [List.findSome?_append, hnone, Option.none_or, List.findSome?_singleton, hdefect,
      treeFormula_subtree h hn true]
    simp only [finish_eq h hsound₁ hn hchild [], List.isEmpty_nil]
    cases defect? m true m.nodes[root] with
    | some d => simp only [finalState, State.result, hproblems₁, List.nil_append]
    | none => simp only [finalState, State.result, hproblems₁]

theorem findSome?_defectAt?_eq_none {left : List Nat} :
    left.findSome? (m.defectAt? root) = none ↔ ∀ i ∈ left, ¬ m.BadAt root i := by
  rw [List.findSome?_eq_none_iff]
  refine forall₂_congr (fun i _ => ?_)
  rw [← FeatureModel.isSome_defectAt?_iff]
  cases m.defectAt? root i <;> simp

/-- For every model that operations lead to, every node to start at and every state of the visitor:
the traversal gives no formula iff some node of the tree below is bad, and then one problem, that of
the first bad node in postorder; otherwise it gives the formula of the recursion over the tree. -/
theorem lowerFrom_reachable (hm : m.Reachable) (hroot : root < m.size) (s : State) :
    (∀ i, m.subtree i = .node i ((m.childrenOf i).map m.subtree)) ∧
    (∀ i, i ∈ (m.subtree root).postorder ↔
      Relation.ReflTransGen (fun p c => c ∈ m.childrenOf p) root i) ∧
    ((m.lowerFrom root s).result.value = none ↔
      ∃ i ∈ (m.subtree root).postorder, m.BadAt root i) ∧
    (∀ before i after, (m.subtree root).postorder = before ++ i :: after → m.BadAt root i →
      (∀ j ∈ before, ¬ m.BadAt root j) → ∃ d, m.defectAt? root i = some d ∧
        (m.lowerFrom root s).result = ⟨none, [⟨d.message, .error⟩]⟩) ∧
    ((∀ i ∈ (m.subtree root).postorder, ¬ m.BadAt root i) →
      (m.lowerFrom root s).result = ⟨some (m.treeFormula true (m.subtree root)), []⟩) := by
  have h := hm.wellFormed
  have hresult := lowerFrom_result_eq h hroot s
  refine ⟨h.subtree_eq, fun i => h.mem_postorder_subtree root hroot, ?_, ?_, ?_⟩
  · rw [hresult]
    cases hd : (m.subtree root).postorder.findSome? (m.defectAt? root) with
    | some d =>
      obtain ⟨i, hi, hdi⟩ := List.exists_of_findSome?_eq_some hd
      refine ⟨fun _ => ⟨i, hi, ?_⟩, fun _ => rfl⟩
      rw [← FeatureModel.isSome_defectAt?_iff, hdi]
      rfl
    | none =>
      constructor
      · intro hn
        cases hn
      · rintro ⟨i, hi, hbad⟩
        exact absurd hbad (findSome?_defectAt?_eq_none.mp hd i hi)
  · intro before i after hsplit hbad hbefore
    obtain ⟨d, hd⟩ := Option.isSome_iff_exists.mp (FeatureModel.isSome_defectAt?_iff.mpr hbad)
    refine ⟨d, hd, ?_⟩
    rw [hresult, hsplit, List.findSome?_append, findSome?_defectAt?_eq_none.mpr hbefore,
      List.findSome?_cons, hd]
    rfl
  · intro hnone
    rw [hresult, findSome?_defectAt?_eq_none.mpr hnone]

/-- Alternatives, of which the first has an or-group below it and the second a mandatory child. -/
def twoLevelOperations : List FeatureModel.Operation := [
  .addRoot (.registered (some "A")), .addGroup 0 (.exactly 1),
  .addBelow 0 (.registered (some "B")) 1, .addBelow 0 (.registered (some "C")) 1,
  .addGroup 1 (.atLeast 1), .addBelow 1 (.registered (some "D")) 1,
  .addBelow 1 (.registered (some "E")) 1, .makeMandatory 2,
  .addBelow 2 (.registered (some "F")) 0, .makeMandatory 5]

/-- The model of the two levels. -/
def twoLevels : FeatureModel := .run {} twoLevelOperations

/-- The same model with two bad nodes, of which the one with the greater number is left first. -/
def badTwoLevels : FeatureModel := .run {} (twoLevelOperations ++
  [.setCardinality 1 (.exactly 3), .setCardinality 4 (.atLeast 2)])

theorem subtree_twoLevels (h : m.WellFormed)
    (hchildren : (List.range 6).map m.childrenOf = [[1, 2], [3, 4], [5], [], [], []]) :
    m.subtree 0 = .node 0 [.node 1 [.node 3 [], .node 4 []], .node 2 [.node 5 []]] := by
  obtain ⟨h₀, h₁, h₂, h₃, h₄, h₅⟩ : m.childrenOf 0 = [1, 2] ∧ m.childrenOf 1 = [3, 4] ∧
      m.childrenOf 2 = [5] ∧ m.childrenOf 3 = [] ∧ m.childrenOf 4 = [] ∧ m.childrenOf 5 = [] := by
    simpa [List.range_succ] using hchildren
  simp only [h.subtree_eq, h₀, h₁, h₂, h₃, h₄, h₅, List.map_cons, List.map_nil]

/-- A visitor that has found a formula and a problem elsewhere finds the same as a new one. -/
theorem lowerFrom_reachable_twoLevels :
    let used : State := ⟨#[none, some (.literal "Z")], some (.literal "Z"),
      [⟨"Y has no group.", .error⟩]⟩
    (twoLevels.lowerFrom 0 used).result = ⟨some (.conj
        [.disj [.implies (.literal "B") (.disj [.literal "D", .literal "E"])],
          .disj [.conj [.literal "C", .conj [.literal "F"]]]]), []⟩ ∧
      (badTwoLevels.lowerFrom 0 used).result =
        ⟨none, [⟨"E is neither an optional nor a mandatory feature.", .error⟩]⟩ := by
  intro used
  constructor
  · have hm : twoLevels.Reachable := ⟨twoLevelOperations, rfl⟩
    have htree := subtree_twoLevels hm.wellFormed (by decide +kernel)
    have hroot : 0 < twoLevels.size := by decide +kernel
    obtain ⟨-, -, -, -, hgood⟩ := lowerFrom_reachable hm hroot used
    rw [hgood, htree]
    · rfl
    · rw [htree]
      intro i hi hbad
      have hi' : i ∈ [3, 4, 1, 5, 2, 0] := hi
      rw [← FeatureModel.isSome_defectAt?_iff] at hbad
      revert i
      decide +kernel
  · have hm : badTwoLevels.Reachable := ⟨_, rfl⟩
    have htree := subtree_twoLevels hm.wellFormed (by decide +kernel)
    have hroot : 0 < badTwoLevels.size := by decide +kernel
    obtain ⟨-, -, -, hbad, -⟩ := lowerFrom_reachable hm hroot used
    have hfirst : badTwoLevels.defectAt? 0 4 = some (.badCardinality "E") := by decide +kernel
    have hisBad : badTwoLevels.BadAt 0 4 := by
      rw [← FeatureModel.isSome_defectAt?_iff, hfirst]
      rfl
    have hbefore : ∀ j ∈ [3], ¬badTwoLevels.BadAt 0 j := by
      intro j hj
      rw [List.mem_singleton.mp hj, ← FeatureModel.isSome_defectAt?_iff]
      decide +kernel
    obtain ⟨d, hd, hresult⟩ := hbad [3] 4 [1, 5, 2, 0] (by rw [htree]; rfl) hisBad hbefore
    obtain rfl := Option.some.inj (hfirst.symm.trans hd)
    exact hresult

end Lowering

end Variability
