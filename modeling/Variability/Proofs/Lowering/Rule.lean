import Variability.Lowering
import Variability.Proofs.Formula.Choice
import Variability.Proofs.Traversal

/-!
The rule for the formula of one node, apart from any traversal.

What is wrong with a node can be told from the node and the cardinalities of
its children (`Bad`, and `defect?` for the message), and for a node that is
not bad the formula is put together from those of its children (`ruleFormula`).
`nodeFormula_eq` says that the lowering does just that once the formulas of the
children are there, and `treeFormula` applies the rule all over a tree.
-/

namespace Variability

namespace Lowering

/-! ## Bad nodes -/

/-- Whether the formula of the children of a node with a last group of the given type has
operands. -/
def hasOperands (m : FeatureModel) (children : List Nat) : GroupType → Bool
  | .alternative | .or => !children.isEmpty
  | .and => children.any (fun c => m.nodes[c]?.any Node.isMandatory)
  | .cardinality => false

/-- Whether a node is neither optional nor mandatory. -/
def isUnusual (n : Node) : Bool := !(n.isOptional || n.isMandatory)

/-- What is wrong with a node by itself. -/
def Bad (m : FeatureModel) (isRoot : Bool) (n : Node) : Prop :=
  (n.name = none ∨ n.name = some "") ∨
  n.groups = [] ∨
  (n.children = [] ∧ n.cardinality ≠ .optional ∧ n.cardinality ≠ .mandatory) ∨
  ∃ last, n.groups.getLast? = some last ∧ n.children ≠ [] ∧
    (last.type = .cardinality ∨
      isRoot = false ∧ hasOperands m n.children last.type = true ∧
        n.cardinality ≠ .optional ∧ n.cardinality ≠ .mandatory)

/-- The first thing that is wrong with a node. -/
def defect? (m : FeatureModel) (isRoot : Bool) (n : Node) : Option Defect :=
  match n.name with
  | none | some "" => some .noName
  | some name =>
    match n.groups.getLast? with
    | none => some (.noGroup name)
    | some last =>
      if n.children.isEmpty then
        if isUnusual n then some (.badCardinality name) else none
      else if last.type = .cardinality then some (.noGroup name)
      else if !isRoot && hasOperands m n.children last.type && isUnusual n then
        some (.badCardinality name)
      else none

theorem isUnusual_iff {n : Node} :
    isUnusual n = true ↔ n.cardinality ≠ .optional ∧ n.cardinality ≠ .mandatory := by
  simp [isUnusual, Node.isOptional, Node.isMandatory]

/-- A node has a defect iff it is bad. -/
theorem isSome_defect?_iff {m : FeatureModel} {isRoot : Bool} {n : Node} :
    (defect? m isRoot n).isSome = true ↔ Bad m isRoot n := by
  unfold defect? Bad
  split
  · next h => simp [h]
  · next h => simp [h]
  · next name hne h =>
    have hname : ¬ (n.name = none ∨ n.name = some "") := by
      rw [h]
      simpa using hne
    rw [← List.getLast?_eq_none_iff]
    cases hl : n.groups.getLast? with
    | none => simp
    | some last =>
      by_cases hc : n.children = []
      · simp [hname, hc, isUnusual_iff]
      · by_cases ht : last.type = .cardinality
        · simp [hname, hc, ht]
        · simp [hname, hc, ht, isUnusual_iff, and_assoc]

/-! ## The formula of a node -/

/-- The formula of children, given with their formulas, by the type of the last group. -/
def childrenRule (m : FeatureModel) (below : List (Nat × Formula)) : Option GroupType → Formula
  | some .alternative => .conj (below.map (fun p => .disj [p.2]))
  | some .or => .disj (below.map Prod.snd)
  | _ => .conj ((below.filter (fun p => m.nodes[p.1]?.any Node.isMandatory)).map Prod.snd)

/-- The formula of a node, given its children with their formulas. -/
def ruleFormula (m : FeatureModel) (isRoot : Bool) (n : Node) (below : List (Nat × Formula)) :
    Formula :=
  let self := Formula.literal (n.name.getD "")
  let children := childrenRule m below (n.groups.getLast?.map Group.type)
  if below.isEmpty then self
  else if isRoot then if children.children.isEmpty then .top else children
  else if children.children.isEmpty then self
  else if n.isOptional then .implies self children
  else .conj [self, children]

section
variable {m : FeatureModel} {n : Node} {F : Nat → Formula} {formulas : List Nat → List Formula}

theorem childrenFormula?_eq (hf : ∀ cs, cs ⊆ n.children → formulas cs = cs.map F)
    (hne : n.children ≠ []) {type : GroupType} (ht : type ≠ .cardinality) :
    childrenFormula? m formulas n.children type =
      some (childrenRule m (n.children.map (fun c => (c, F c))) (some type)) := by
  have hall := hf n.children (List.Subset.refl _)
  cases type with
  | alternative =>
    have hmap : n.children.map F ≠ [] := by simpa using hne
    rw [childrenFormula?, hall, Formula.everyChoice_one hmap, childrenRule, List.map_map,
      List.map_map]
    rfl
  | or =>
    rw [childrenFormula?, hall, childrenRule, List.map_map]
    rfl
  | and =>
    have hsub := hf (n.children.filter (fun c => m.nodes[c]?.any Node.isMandatory))
      (fun c hc => (List.mem_filter.mp hc).1)
    show some (Formula.conj (formulas _)) = some (.conj (((n.children.map _).filter _).map _))
    rw [hsub, List.filter_map, List.map_map]
    rfl
  | cardinality => exact absurd rfl ht

theorem isEmpty_childrenRule (cs : List Nat) {type : GroupType} (ht : type ≠ .cardinality) :
    (childrenRule m (cs.map (fun c => (c, F c))) (some type)).children.isEmpty =
      !hasOperands m cs type := by
  cases type with
  | alternative | or => cases cs <;> rfl
  | and =>
    show (((cs.map (fun c => (c, F c))).filter _).map _).isEmpty = !cs.any _
    rw [List.filter_map, List.map_map, List.isEmpty_map, List.not_any_eq_all_not]
    induction cs with
    | nil => rfl
    | cons c cs ih =>
      rw [List.filter_cons, List.all_cons]
      simp only [Function.comp] at ih ⊢
      split
      · next h => simp [h]
      · next h => simpa [h] using ih
  | cardinality => exact absurd rfl ht

/-- With the formulas of its children, a node has the formula that the rule gives, or a defect. -/
theorem nodeFormula_eq (hf : ∀ cs, cs ⊆ n.children → formulas cs = cs.map F) (isRoot : Bool) :
    nodeFormula m formulas isRoot n = match defect? m isRoot n with
      | some d => .error d
      | none => .ok (ruleFormula m isRoot n (n.children.map (fun c => (c, F c)))) := by
  cases hn : n.name with
  | none => simp only [nodeFormula, defect?, hn]
  | some name =>
    by_cases he : name = ""
    · simp only [nodeFormula, defect?, hn, he]
    cases hl : n.groups.getLast? with
    | none => simp only [nodeFormula, defect?, hn, hl]
    | some last =>
      simp only [nodeFormula, defect?, ruleFormula, hn, hl, isUnusual, List.isEmpty_map,
        Option.map_some, Option.getD_some]
      by_cases hc : n.children = []
      · rw [hc]
        by_cases hu : (n.isOptional || n.isMandatory) = true <;> simp [hu]
      -- With children, the type of the last group decides first, then the cardinality.
      · have hce : n.children.isEmpty = false := by simpa using hc
        by_cases ht : last.type = .cardinality
        · rw [hce, ht]
          rfl
        · rw [childrenFormula?_eq hf hc ht]
          simp only [hce, if_neg ht, combine, isEmpty_childrenRule _ ht]
          cases isRoot <;> cases hasOperands m n.children last.type <;>
            by_cases ho : n.isOptional = true <;> by_cases hm : n.isMandatory = true <;>
            simp [ho, hm]

/-! ## What the formula of a node mentions -/

theorem isPlain_childrenRule {below : List (Nat × Formula)} (h : ∀ p ∈ below, p.2.isPlain)
    (type : Option GroupType) : (childrenRule m below type).isPlain := by
  unfold childrenRule
  split
  · simpa [Formula.isPlain] using h
  · simpa [Formula.isPlain] using h
  · simp only [Formula.isPlain, Formula.allPlain_eq, List.all_eq_true, List.mem_map,
      List.mem_filter]
    rintro f ⟨p, ⟨hp, -⟩, rfl⟩
    exact h p hp

theorem mem_names_childrenRule {below : List (Nat × Formula)} {type : Option GroupType}
    {name : String} (h : name ∈ (childrenRule m below type).names) :
    ∃ p ∈ below, name ∈ p.2.names := by
  unfold childrenRule at h
  split at h
  · simp only [Formula.names, Formula.namesAll_eq, List.mem_flatMap, List.mem_map] at h
    obtain ⟨f, ⟨p, hp, rfl⟩, hn⟩ := h
    exact ⟨p, hp, by simpa [Formula.names] using hn⟩
  · simp only [Formula.names, Formula.namesAll_eq, List.mem_flatMap, List.mem_map] at h
    obtain ⟨f, ⟨p, hp, rfl⟩, hn⟩ := h
    exact ⟨p, hp, hn⟩
  · simp only [Formula.names, Formula.namesAll_eq, List.mem_flatMap, List.mem_map,
      List.mem_filter] at h
    obtain ⟨f, ⟨p, ⟨hp, -⟩, rfl⟩, hn⟩ := h
    exact ⟨p, hp, hn⟩

theorem isPlain_ruleFormula {below : List (Nat × Formula)} (h : ∀ p ∈ below, p.2.isPlain)
    (isRoot : Bool) : (ruleFormula m isRoot n below).isPlain := by
  have hc := isPlain_childrenRule (m := m) h (n.groups.getLast?.map Group.type)
  simp only [ruleFormula]
  repeat' split
  all_goals simp [Formula.isPlain, hc]

/-- The formula of a node mentions the name of the node, and what the formulas of its children
mention. -/
theorem mem_names_ruleFormula {below : List (Nat × Formula)} {isRoot : Bool} {name : String}
    (h : name ∈ (ruleFormula m isRoot n below).names) :
    name = n.name.getD "" ∨ ∃ p ∈ below, name ∈ p.2.names := by
  have hself : name ∈ (Formula.literal (n.name.getD "")).names → name = n.name.getD "" :=
    List.mem_singleton.mp
  simp only [ruleFormula] at h
  split at h
  · exact Or.inl (hself h)
  split at h
  · split at h
    · cases h
    · exact Or.inr (mem_names_childrenRule h)
  split at h
  · exact Or.inl (hself h)
  split at h
  · rcases List.mem_append.mp h with h | h
    · exact Or.inl (hself h)
    · exact Or.inr (mem_names_childrenRule h)
  · simp only [Formula.names, Formula.namesAll, List.append_nil] at h
    rcases List.mem_append.mp h with h | h
    · exact Or.inl (hself h)
    · exact Or.inr (mem_names_childrenRule h)

end

end Lowering

/-! ## The formula of a tree -/

namespace FeatureModel

open Lowering

mutual

/-- The formula of a tree of nodes, by the rule for each of them. -/
def treeFormula (m : FeatureModel) (isRoot : Bool) : Tree Nat → Formula
  | .node i ts =>
    match m.nodes[i]? with
    | some n => ruleFormula m isRoot n (m.treeFormulas ts)
    | none => .top

/-- The topmost nodes of the trees below a node, with their formulas. -/
def treeFormulas (m : FeatureModel) : List (Tree Nat) → List (Nat × Formula)
  | [] => []
  | t :: ts => (t.label, m.treeFormula false t) :: m.treeFormulas ts

end

@[simp] theorem treeFormulas_eq (m : FeatureModel) (ts : List (Tree Nat)) :
    m.treeFormulas ts = ts.map (fun t => (t.label, m.treeFormula false t)) := by
  induction ts with
  | nil => rfl
  | cons t ts ih => rw [treeFormulas, ih, List.map_cons]

theorem isPlain_treeFormula (m : FeatureModel) (isRoot : Bool) (t : Tree Nat) :
    (m.treeFormula isRoot t).isPlain := by
  induction t generalizing isRoot with
  | node i ts ih =>
    rw [treeFormula]
    split
    · refine isPlain_ruleFormula (fun p hp => ?_) isRoot
      rw [treeFormulas_eq] at hp
      obtain ⟨t, ht, rfl⟩ := List.mem_map.mp hp
      exact ih t ht false
    · rfl

/-- The formula of a tree mentions names of nodes of the tree only. -/
theorem mem_names_treeFormula {m : FeatureModel} {isRoot : Bool} {t : Tree Nat} {name : String}
    (h : name ∈ (m.treeFormula isRoot t).names) :
    ∃ i ∈ t.postorder, ∃ n, m.nodes[i]? = some n ∧ name = n.name.getD "" := by
  induction t generalizing isRoot with
  | node i ts ih =>
    rw [treeFormula] at h
    rw [Tree.postorder, Tree.postorders_eq]
    split at h
    · next n hn =>
      rcases mem_names_ruleFormula h with he | ⟨p, hp, hname⟩
      · exact ⟨i, List.mem_append_right _ (List.mem_singleton_self i), n, hn, he⟩
      · rw [treeFormulas_eq] at hp
        obtain ⟨t, ht, rfl⟩ := List.mem_map.mp hp
        obtain ⟨j, hj, hrest⟩ := ih t ht hname
        exact ⟨j, List.mem_append_left _ (List.mem_flatMap.mpr ⟨t, ht, hj⟩), hrest⟩
    · simp [Formula.names] at h

end FeatureModel

end Variability
