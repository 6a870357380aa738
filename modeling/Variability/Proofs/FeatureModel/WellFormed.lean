import Variability.FeatureModel.Operations

/-!
Well-formed feature models: the links of the nodes to their parents and the
lists of children in the groups describe the same tree.

The first node is the root. Every other node has a parent that was created
before it, and stands in exactly one group, the one that its link names. Each
operation that builds or changes a model keeps this.
-/

namespace Variability.FeatureModel

/-- The link of a node to its parent. -/
def linkOf (m : FeatureModel) (i : Nat) : Option ParentLink := m.nodes[i]?.bind Node.parent

/-- The groups of a node. -/
def groupsOf (m : FeatureModel) (i : Nat) : List Group := (m.nodes[i]?.map Node.groups).getD []

/-- The numbers of the groups of a node. -/
def groupIdsOf (m : FeatureModel) (i : Nat) : List Nat := (m.groupsOf i).map Group.id

/-- The number of the next group of a node. -/
def nextGroupOf (m : FeatureModel) (i : Nat) : Nat := (m.nodes[i]?.map Node.nextGroup).getD 0

/-- The features of the nodes, in the order of their creation. -/
def nodeFeatures (m : FeatureModel) : List FeatureRef := m.nodes.toList.map Node.feature

/-- The numbers that the nodes have, in the order of their creation. -/
def nodeIndices (m : FeatureModel) : List Nat := m.nodes.toList.map Node.index

/-- The links and the groups of the nodes describe one tree with the first node as its root. -/
structure WellFormed (m : FeatureModel) : Prop where
  /-- Every node has the number of its place. -/
  indices : m.nodeIndices = List.range m.size
  root_eq : m.root = if m.size = 0 then none else some 0
  /-- The first node has no parent. -/
  link_zero : m.linkOf 0 = none
  /-- Every other node has a parent that was created before it. -/
  parent_lt : ∀ i < m.size, i ≠ 0 → ∃ link, m.linkOf i = some link ∧ link.node < i
  /-- The parent has the group that the link names. -/
  group_mem : ∀ i link, m.linkOf i = some link → link.group ∈ m.groupIdsOf link.node
  /-- A group lists the nodes with a link to it. -/
  mem_group : ∀ p, ∀ g ∈ m.groupsOf p, ∀ c, c ∈ g.children ↔ m.linkOf c = some ⟨p, g.id⟩
  /-- A group lists a node once. -/
  nodup_group : ∀ p, ∀ g ∈ m.groupsOf p, g.children.Nodup
  /-- The numbers of the groups of a node ascend. -/
  ascending : ∀ p, (m.groupIdsOf p).Pairwise (· < ·)
  id_lt_next : ∀ p, ∀ id ∈ m.groupIdsOf p, id < m.nextGroupOf p

theorem length_nodeFeatures (m : FeatureModel) : m.nodeFeatures.length = m.size := by
  rw [nodeFeatures, List.length_map]
  rfl

theorem nodeNames_eq_map (m : FeatureModel) :
    m.nodeNames = m.nodeFeatures.map FeatureRef.name := by
  rw [nodeNames, nodeFeatures, List.map_map]
  rfl

/-! ## Links and groups after a change -/

section
variable (m : FeatureModel)

theorem getElem?_modifyNode (index : Nat) (change : Node → Node) (i : Nat) :
    (m.modifyNode index change).nodes[i]? =
      if i = index then m.nodes[i]?.map change else m.nodes[i]? := by
  rw [modifyNode, Array.getElem?_modify]
  simp only [eq_comm]

@[simp] theorem size_modifyNode (index : Nat) (change : Node → Node) :
    (m.modifyNode index change).size = m.size := by
  simp [modifyNode, size]

theorem linkOf_of_getElem? {m : FeatureModel} {i : Nat} {n : Node} (h : m.nodes[i]? = some n) :
    m.linkOf i = n.parent := by
  rw [linkOf, h]
  rfl

theorem groupsOf_of_getElem? {m : FeatureModel} {i : Nat} {n : Node}
    (h : m.nodes[i]? = some n) : m.groupsOf i = n.groups := by
  rw [groupsOf, h]
  rfl

theorem nextGroupOf_of_getElem? {m : FeatureModel} {i : Nat} {n : Node}
    (h : m.nodes[i]? = some n) : m.nextGroupOf i = n.nextGroup := by
  rw [nextGroupOf, h]
  rfl

theorem linkOf_of_size_le {i : Nat} (h : m.size ≤ i) : m.linkOf i = none := by
  rw [linkOf, Array.getElem?_eq_none h]
  rfl

theorem groupsOf_of_size_le {i : Nat} (h : m.size ≤ i) : m.groupsOf i = [] := by
  rw [groupsOf, Array.getElem?_eq_none h]
  rfl

theorem nextGroupOf_of_size_le {i : Nat} (h : m.size ≤ i) : m.nextGroupOf i = 0 := by
  rw [nextGroupOf, Array.getElem?_eq_none h]
  rfl

theorem lt_size_of_linkOf {i : Nat} {link : ParentLink} (h : m.linkOf i = some link) :
    i < m.size := by
  refine Nat.lt_of_not_le (fun hi => ?_)
  rw [m.linkOf_of_size_le hi] at h
  cases h

theorem linkOf_modifyNode {change : Node → Node} (h : ∀ n, (change n).parent = n.parent)
    (index i : Nat) : (m.modifyNode index change).linkOf i = m.linkOf i := by
  rw [linkOf, getElem?_modifyNode, linkOf]
  split
  · cases m.nodes[i]? with
    | none => rfl
    | some n => exact h n
  · rfl

theorem linkOf_modifyNode_parent {change : Node → Node} {link : ParentLink}
    (h : ∀ n, (change n).parent = some link) {index : Nat} (hi : index < m.size) (i : Nat) :
    (m.modifyNode index change).linkOf i = if i = index then some link else m.linkOf i := by
  rw [linkOf, getElem?_modifyNode, linkOf]
  split
  · next he =>
    rw [he, Array.getElem?_eq_getElem hi]
    exact h _
  · rfl

theorem map_modifyNode {α : Type} {f : Node → α} {change : Node → Node}
    (h : ∀ n, f (change n) = f n) (index : Nat) :
    (m.modifyNode index change).nodes.toList.map f = m.nodes.toList.map f := by
  refine List.ext_getElem? (fun i => ?_)
  simp only [List.getElem?_map, Array.getElem?_toList, getElem?_modifyNode]
  split
  · cases m.nodes[i]? with
    | none => rfl
    | some n => exact congrArg some (h n)
  · rfl

theorem nodeFeatures_modifyNode {change : Node → Node} (h : ∀ n, (change n).feature = n.feature)
    (index : Nat) : (m.modifyNode index change).nodeFeatures = m.nodeFeatures :=
  m.map_modifyNode h index

theorem nodeIndices_modifyNode {change : Node → Node} (h : ∀ n, (change n).index = n.index)
    (index : Nat) : (m.modifyNode index change).nodeIndices = m.nodeIndices :=
  m.map_modifyNode h index

theorem groupsOf_modifyNode {change : Node → Node} {f : Node → List Group}
    (h : ∀ n, (change n).groups = f n) (index i : Nat) :
    (m.modifyNode index change).groupsOf i =
      if i = index then (m.nodes[i]?.map f).getD [] else m.groupsOf i := by
  rw [groupsOf, getElem?_modifyNode]
  split
  · cases m.nodes[i]? with
    | none => rfl
    | some n => exact h n
  · rfl

theorem nextGroupOf_modifyNode {change : Node → Node} {f : Node → Nat}
    (h : ∀ n, (change n).nextGroup = f n) (index i : Nat) :
    (m.modifyNode index change).nextGroupOf i =
      if i = index then (m.nodes[i]?.map f).getD 0 else m.nextGroupOf i := by
  rw [nextGroupOf, getElem?_modifyNode]
  split
  · cases m.nodes[i]? with
    | none => rfl
    | some n => exact h n
  · rfl

theorem groupsOf_modifyNode_same {change : Node → Node} (h : ∀ n, (change n).groups = n.groups)
    (index i : Nat) : (m.modifyNode index change).groupsOf i = m.groupsOf i := by
  rw [groupsOf_modifyNode m h index i, groupsOf]
  split <;> rfl

theorem nextGroupOf_modifyNode_same {change : Node → Node}
    (h : ∀ n, (change n).nextGroup = n.nextGroup) (index i : Nat) :
    (m.modifyNode index change).nextGroupOf i = m.nextGroupOf i := by
  rw [nextGroupOf_modifyNode m h index i, nextGroupOf]
  split <;> rfl

@[simp] theorem size_modifyGroup (index id : Nat) (change : Group → Group) :
    (m.modifyGroup index id change).size = m.size := size_modifyNode ..

@[simp] theorem linkOf_modifyGroup (index id : Nat) (change : Group → Group) (i : Nat) :
    (m.modifyGroup index id change).linkOf i = m.linkOf i := by
  rw [modifyGroup, linkOf_modifyNode]
  intro n
  rfl

@[simp] theorem nodeFeatures_modifyGroup (index id : Nat) (change : Group → Group) :
    (m.modifyGroup index id change).nodeFeatures = m.nodeFeatures := by
  rw [modifyGroup, nodeFeatures_modifyNode]
  intro n
  rfl

@[simp] theorem nodeIndices_modifyGroup (index id : Nat) (change : Group → Group) :
    (m.modifyGroup index id change).nodeIndices = m.nodeIndices := by
  rw [modifyGroup, nodeIndices_modifyNode]
  intro n
  rfl

@[simp] theorem nextGroupOf_modifyGroup (index id : Nat) (change : Group → Group) (i : Nat) :
    (m.modifyGroup index id change).nextGroupOf i = m.nextGroupOf i := by
  rw [modifyGroup, nextGroupOf_modifyNode_same]
  intro n
  rfl

theorem groupsOf_modifyGroup (index id : Nat) (change : Group → Group) (i : Nat) :
    (m.modifyGroup index id change).groupsOf i =
      if i = index then (m.groupsOf i).map (fun g => if g.id = id then change g else g)
      else m.groupsOf i := by
  rw [modifyGroup, groupsOf_modifyNode m (by intro n; rfl) index i, groupsOf]
  split
  · cases m.nodes[i]? <;> rfl
  · rfl

end

section
variable (m : FeatureModel) (n : Node)

theorem getElem?_pushNode (i : Nat) :
    (m.pushNode n).nodes[i]? = if i = m.size then some n else m.nodes[i]? := by
  rw [pushNode, Array.getElem?_push]
  rfl

@[simp] theorem nodeFeatures_pushNode :
    (m.pushNode n).nodeFeatures = m.nodeFeatures ++ [n.feature] := by
  simp [pushNode, nodeFeatures]

@[simp] theorem nodeIndices_pushNode :
    (m.pushNode n).nodeIndices = m.nodeIndices ++ [n.index] := by
  simp [pushNode, nodeIndices]

/-- A new node can be changed before it is added. -/
theorem modifyNode_pushNode (change : Node → Node) :
    (m.pushNode n).modifyNode m.size change = m.pushNode (change n) := by
  rw [modifyNode, pushNode, pushNode, size]
  congr 1
  refine Array.ext_getElem? (fun i => ?_)
  rw [Array.getElem?_modify, Array.getElem?_push, Array.getElem?_push]
  by_cases hi : i = m.nodes.size
  · rw [if_pos hi.symm, if_pos hi, if_pos hi, Option.map_some]
  · rw [if_neg (Ne.symm hi), if_neg hi, if_neg hi]

theorem linkOf_pushNode (i : Nat) :
    (m.pushNode n).linkOf i = if i = m.size then n.parent else m.linkOf i := by
  rw [linkOf, getElem?_pushNode, linkOf]
  split <;> rfl

theorem groupsOf_pushNode (i : Nat) :
    (m.pushNode n).groupsOf i = if i = m.size then n.groups else m.groupsOf i := by
  rw [groupsOf, getElem?_pushNode, groupsOf]
  split <;> rfl

theorem nextGroupOf_pushNode (i : Nat) :
    (m.pushNode n).nextGroupOf i = if i = m.size then n.nextGroup else m.nextGroupOf i := by
  rw [nextGroupOf, getElem?_pushNode, nextGroupOf]
  split <;> rfl

end

/-! ## Looking up -/

section
variable {m : FeatureModel} {index : Nat} {id : Int}

theorem bind_eq_ok {ε α β : Type} {x : Except ε α} {f : α → Except ε β} {b : β} :
    x >>= f = .ok b ↔ ∃ a, x = .ok a ∧ f a = .ok b := by
  cases x <;> simp [bind, Except.bind]

theorem node_eq_ok {n : Node} : m.node index = .ok n ↔ m.nodes[index]? = some n := by
  unfold node
  cases m.nodes[index]? <;> simp

theorem group_eq_ok {g : Group} (h : m.group index id = .ok g) :
    g ∈ m.groupsOf index ∧ (g.id : Int) = id := by
  obtain ⟨n, hn, h⟩ := bind_eq_ok.mp h
  split at h
  · next g' hg =>
    obtain rfl := Except.ok.inj h
    rw [groupsOf, node_eq_ok.mp hn]
    exact ⟨List.mem_of_find?_eq_some hg, by simpa using List.find?_some hg⟩
  · cases h

/-- A group is not found because its node is not, or because the node has no such group. -/
theorem group_eq_error {e : Error} (h : m.group index id = .error e) :
    (m.size ≤ index ∧ e = .noNode) ∨
      ∃ n, m.nodes[index]? = some n ∧ n.group? id = none ∧ e = .noGroup n.name id := by
  rw [group, node] at h
  cases hn : m.nodes[index]? with
  | none =>
    rw [hn] at h
    exact Or.inl ⟨Array.getElem?_eq_none_iff.mp hn, (Except.error.inj h).symm⟩
  | some n =>
    simp only [hn, bind, Except.bind] at h
    split at h
    · cases h
    · next hnone => exact Or.inr ⟨n, rfl, hnone, (Except.error.inj h).symm⟩

theorem lt_size_of_mem_groupsOf {g : Group} (h : g ∈ m.groupsOf index) : index < m.size := by
  refine Nat.lt_of_not_le (fun hi => ?_)
  rw [m.groupsOf_of_size_le hi] at h
  cases h

end

end Variability.FeatureModel
