import Mathlib.Tactic.MkIffOfInductiveProp
import Variability.Proofs.Lowering.Result

/-!
The truth of the formula of a tree, one node at a time.

A node asks something of its children that depends on the type of its last group
alone (`Meets`). Below the topmost node, the formula of a node is true iff the
node is selected, or is optional and asks something, and its children are as it
asks if it is selected (`eval_formulaBelow_iff`). The formula of a tree is true
iff the children of its topmost node are as that node asks, or iff the node is
selected if it has no children (`eval_treeFormula_iff`).
-/

namespace Variability

/-- The type of the last group of a node. -/
def Node.lastType? (n : Node) : Option GroupType := n.groups.getLast?.map Group.type

/-- Whether the feature of a node is selected. -/
def FeatureModel.Selected (m : FeatureModel) (v : String → Bool) (i : Nat) : Prop :=
  (m.nodes[i]?.bind Node.name).any v = true

namespace Lowering

/-! ## One node -/

/-- The children of a node are as it asks, by the type of its last group; `holds` tells which
children count. -/
@[mk_iff] structure Meets (m : FeatureModel) (n : Node) (holds : Nat → Prop) : Prop where
  alternative : n.lastType? = some .alternative → ∀ c ∈ n.children, holds c
  or : n.lastType? = some .or → n.children ≠ [] → ∃ c ∈ n.children, holds c
  and : n.lastType? = some .and → ∀ c ∈ n.children,
    m.nodes[c]?.any Node.isMandatory = true → holds c

/-- Whether a node asks something of its children. -/
def asks (m : FeatureModel) (n : Node) : Bool := n.lastType?.any (hasOperands m n.children)

section
variable {m : FeatureModel} {n : Node} {F : Nat → Formula} {v : String → Bool}
  {holds holds' : Nat → Prop}

theorem Meets.mono (h : Meets m n holds) (hle : ∀ c ∈ n.children, holds c → holds' c) :
    Meets m n holds' where
  alternative := fun ht c hc => hle c hc (h.alternative ht c hc)
  or := fun ht hne => by
    obtain ⟨c, hc, hholds⟩ := h.or ht hne
    exact ⟨c, hc, hle c hc hholds⟩
  and := fun ht c hc hm => hle c hc (h.and ht c hc hm)

/-- Where nothing is asked, everything will do. -/
theorem meets_of_not_asks (h : asks m n = false) : Meets m n holds where
  alternative := by
    intro ht c hc
    have hnone : n.children = [] := by simpa [asks, ht, hasOperands] using h
    rw [hnone] at hc
    cases hc
  or := by
    intro ht hne
    have hnone : n.children = [] := by simpa [asks, ht, hasOperands] using h
    exact absurd hnone hne
  and := by
    intro ht c hc hm
    rw [asks, ht, Option.any_some, hasOperands, List.any_eq_false] at h
    exact absurd hm (h c hc)

theorem eval_childrenRule_iff {type : GroupType} (ht : n.lastType? = some type)
    (hcard : type ≠ .cardinality) (hne : n.children ≠ []) :
    (childrenRule m (n.children.map (fun c => (c, F c))) (some type)).eval v = true ↔
      Meets m n (fun c => (F c).eval v = true) := by
  cases type with
  | alternative => simp [childrenRule, Formula.eval, meets_iff, ht]
  | or => simp [childrenRule, Formula.eval, meets_iff, ht, hne]
  | and =>
    have hmandatory : Meets m n (fun c => (F c).eval v = true) ↔
        ∀ c ∈ n.children, m.nodes[c]?.any Node.isMandatory = true → (F c).eval v = true := by
      simp [meets_iff, ht]
    rw [hmandatory]
    show (Formula.conj (((n.children.map _).filter _).map Prod.snd)).eval v = true ↔ _
    rw [Formula.eval, Formula.evalAll_eq, List.all_map, List.all_filter, List.all_map,
      List.all_eq_true]
    refine forall₂_congr (fun c _ => ?_)
    cases hc : m.nodes[c]?.any Node.isMandatory <;> simp [hc]
  | cardinality => exact absurd rfl hcard

/-- A node that is not bad has a name, and the type of its last group says what it asks. -/
theorem exists_name_of_not_bad {isRoot : Bool} (h : ¬Bad m isRoot n) :
    ∃ name type, n.name = some name ∧ n.lastType? = some type ∧
      (n.children ≠ [] → type ≠ .cardinality) := by
  simp only [Bad, not_or] at h
  obtain ⟨hname, hgroups, -, hlast⟩ := h
  rw [← not_or] at hname
  obtain ⟨name, hname⟩ := Option.ne_none_iff_exists'.mp (fun hnone => hname (Or.inl hnone))
  have hsome : n.groups.getLast? ≠ none := by rwa [ne_eq, List.getLast?_eq_none_iff]
  obtain ⟨last, hl⟩ := Option.ne_none_iff_exists'.mp hsome
  refine ⟨name, last.type, hname, by rw [Node.lastType?, hl]; rfl, fun hne hcard => ?_⟩
  exact hlast ⟨last, hl, hne, Or.inl hcard⟩

theorem asks_of_leaf (h : n.children = []) : asks m n = false := by
  rw [asks, h]
  cases n.lastType? with
  | none => rfl
  | some type => cases type <;> rfl

/-- The formula of a node by its last group, for a node with children that is not bad. -/
theorem ruleFormula_of_children {isRoot : Bool} (h : ¬Bad m isRoot n) (hne : n.children ≠ []) :
    ∃ below : Formula,
      (∀ v, below.eval v = true ↔ Meets m n (fun c => (F c).eval v = true)) ∧
      ruleFormula m isRoot n (n.children.map (fun c => (c, F c))) =
        if isRoot then if asks m n then below else .top
        else if asks m n then
          if n.isOptional then .implies (.literal (n.name.getD "")) below
          else .conj [.literal (n.name.getD ""), below]
        else .literal (n.name.getD "") := by
  obtain ⟨name, type, -, ht, hcard⟩ := exists_name_of_not_bad h
  have htype : n.groups.getLast?.map Group.type = some type := ht
  have hempty : (n.children.map (fun c => (c, F c))).isEmpty = false := by simpa using hne
  refine ⟨_, fun v => eval_childrenRule_iff ht (hcard hne) hne, ?_⟩
  simp only [ruleFormula, htype, hempty, isEmpty_childrenRule _ (hcard hne), asks, ht,
    Option.any_some]
  cases hasOperands m n.children type <;> rfl

/-- The formula of a topmost node is true iff its children are as it asks, or iff it is selected if
it has none. -/
theorem eval_ruleFormula_top (h : ¬Bad m true n) :
    (ruleFormula m true n (n.children.map (fun c => (c, F c)))).eval v = true ↔
      (n.children = [] → v (n.name.getD "") = true) ∧
        Meets m n (fun c => (F c).eval v = true) := by
  by_cases hne : n.children = []
  · simp [ruleFormula, hne, Formula.eval, meets_of_not_asks (asks_of_leaf hne)]
  · obtain ⟨below, hbelow, hrule⟩ := ruleFormula_of_children (F := F) h hne
    rw [hrule, if_pos rfl, ← hbelow]
    cases ha : asks m n with
    | true => simp [hne]
    | false =>
      have hmeets : below.eval v = true := (hbelow v).mpr (meets_of_not_asks ha)
      simp [hne, hmeets, Formula.eval]

/-- The formula of another node is true iff the node is selected, or is optional and asks something,
and its children are as it asks if it is selected. -/
theorem eval_ruleFormula_below (h : ¬Bad m false n) :
    (ruleFormula m false n (n.children.map (fun c => (c, F c)))).eval v = true ↔
      (v (n.name.getD "") = true ∨ n.isOptional = true ∧ asks m n = true) ∧
        (v (n.name.getD "") = true → Meets m n (fun c => (F c).eval v = true)) := by
  by_cases hne : n.children = []
  · have hasks := asks_of_leaf (m := m) hne
    simp [ruleFormula, hne, Formula.eval, hasks, meets_of_not_asks hasks]
  · obtain ⟨below, hbelow, hrule⟩ := ruleFormula_of_children (F := F) h hne
    rw [hrule, if_neg Bool.false_ne_true, ← hbelow]
    cases ha : asks m n with
    | true => cases n.isOptional <;> cases hv : v (n.name.getD "") <;> simp [Formula.eval, hv]
    | false =>
      have hmeets : below.eval v = true := (hbelow v).mpr (meets_of_not_asks ha)
      simp [hmeets, Formula.eval]

end

/-! ## The nodes of a tree -/

section
variable {m : FeatureModel} {root i : Nat} {n : Node} {v : String → Bool}

/-- There is a formula iff no node of the tree is bad, and then it is that of the recursion. -/
theorem lower_eq_some_iff (hm : m.WellFormed) (hroot : root < m.size) {f : Formula} :
    (m.lower root).value = some f ↔
      (∀ i ∈ (m.subtree root).postorder, ¬m.BadAt root i) ∧
        m.treeFormula true (m.subtree root) = f := by
  rw [FeatureModel.lower, lowerFrom_result_eq hm hroot, ← findSome?_defectAt?_eq_none]
  cases (m.subtree root).postorder.findSome? (m.defectAt? root) <;> simp

theorem selected_iff {isRoot : Bool} (hn : m.nodes[i]? = some n) (h : ¬Bad m isRoot n) :
    m.Selected v i ↔ v (n.name.getD "") = true := by
  obtain ⟨name, -, hname, -⟩ := exists_name_of_not_bad h
  simp [FeatureModel.Selected, hn, hname]

theorem not_bad_of_not_badAt (h : ¬m.BadAt root i) (hn : m.nodes[i]? = some n) :
    ¬Bad m (decide (i = root)) n := fun hbad => h ⟨n, hn, hbad⟩

/-- The truth of the formula of a node below the topmost one. -/
theorem eval_formulaBelow_iff (hm : m.WellFormed) (h : ¬m.BadAt root i) (hi : i ≠ root)
    (hn : m.nodes[i]? = some n) :
    (m.formulaBelow i).eval v = true ↔
      (m.Selected v i ∨ n.isOptional = true ∧ asks m n = true) ∧
        (m.Selected v i → Meets m n (fun c => (m.formulaBelow c).eval v = true)) := by
  have hgood : ¬Bad m false n := by
    have hgood := not_bad_of_not_badAt h hn
    rwa [decide_eq_false hi] at hgood
  rw [selected_iff hn hgood, ← eval_ruleFormula_below hgood, ← treeFormula_subtree hm hn false]
  rfl

/-- The truth of the formula of a tree. -/
theorem eval_treeFormula_iff (hm : m.WellFormed) (h : ¬m.BadAt root root)
    (hn : m.nodes[root]? = some n) :
    (m.treeFormula true (m.subtree root)).eval v = true ↔
      (n.children = [] → m.Selected v root) ∧
        Meets m n (fun c => (m.formulaBelow c).eval v = true) := by
  have hgood : ¬Bad m true n := by
    have hgood := not_bad_of_not_badAt h hn
    rwa [decide_eq_true rfl] at hgood
  rw [selected_iff hn hgood, ← eval_ruleFormula_top hgood, ← treeFormula_subtree hm hn true]

end

end Lowering

end Variability
