import Mathlib.Data.List.Nodup
import Mathlib.Logic.Relation
import Variability.FeatureModel.Basic
import Variability.Proofs.FeatureModel.Change
import Variability.Proofs.Traversal

/-!
The children of the nodes of a well-formed feature model.

The links and the lists of children agree: a node is a child of the one that
its link names, once, and of no other. So the group that a link names can
always be looked up (`WellFormed.parentGroup_eq`) and left for another one
(`WellFormed.moveRefused`), every node but the first is listed exactly once in
the whole model (`WellFormed.count_children`), and the tree below a node is made
of the trees below its children (`WellFormed.subtree_eq`), in which no node
appears twice (`WellFormed.nodup_preorder`).
-/

namespace Variability.FeatureModel

theorem childrenOf_of_getElem? {m : FeatureModel} {i : Nat} {n : Node}
    (h : m.nodes[i]? = some n) : m.childrenOf i = n.children := by
  rw [childrenOf, h]

theorem childrenOf_eq_flatMap (m : FeatureModel) (i : Nat) :
    m.childrenOf i = (m.groupsOf i).flatMap Group.children := by
  rw [childrenOf, groupsOf]
  cases m.nodes[i]? <;> rfl

/-- Why a node cannot be moved to a group of its parent: it does not exist, it is the first node and
has no parent, or its parent has no such group. -/
inductive MoveRefused (m : FeatureModel) (index : Nat) (id : Int) : Error → Prop
  | noNode (h : m.size ≤ index) : MoveRefused m index id .noNode
  | root (h : index = 0) : MoveRefused m index id .rootInNoGroup
  | noGroup {link : ParentLink} {parent : Node} (hlink : m.linkOf index = some link)
      (hparent : m.nodes[link.node]? = some parent) (h : parent.group? id = none) :
      MoveRefused m index id (.noGroup parent.name id)

namespace WellFormed

variable {m : FeatureModel}

/-! ## Children and links -/

/-- The group that a link names exists, and lists the node. -/
theorem exists_group_of_linkOf (h : m.WellFormed) {i : Nat} {link : ParentLink}
    (hl : m.linkOf i = some link) :
    ∃ g ∈ m.groupsOf link.node, g.id = link.group ∧ i ∈ g.children := by
  obtain ⟨g, hg, hid⟩ := List.mem_map.mp (h.group_mem i link hl)
  exact ⟨g, hg, hid, (h.mem_group _ g hg i).mpr (by rw [hl, hid])⟩

theorem mem_childrenOf (h : m.WellFormed) {p c : Nat} :
    c ∈ m.childrenOf p ↔ ∃ id, m.linkOf c = some ⟨p, id⟩ := by
  rw [childrenOf_eq_flatMap, List.mem_flatMap]
  constructor
  · rintro ⟨g, hg, hc⟩
    exact ⟨g.id, (h.mem_group p g hg c).mp hc⟩
  · rintro ⟨id, hl⟩
    obtain ⟨g, hg, -, hc⟩ := h.exists_group_of_linkOf hl
    exact ⟨g, hg, hc⟩

theorem lt_of_mem_childrenOf (h : m.WellFormed) {p c : Nat} (hc : c ∈ m.childrenOf p) :
    p < c ∧ c < m.size := by
  obtain ⟨id, hl⟩ := h.mem_childrenOf.mp hc
  exact ⟨h.link_lt hl, m.lt_size_of_linkOf hl⟩

theorem nodup_childrenOf (h : m.WellFormed) (p : Nat) : (m.childrenOf p).Nodup := by
  rw [childrenOf_eq_flatMap, List.nodup_flatMap]
  refine ⟨h.nodup_group p, ?_⟩
  -- Two groups that share a child would have the number that the link of the child names.
  refine List.Pairwise.imp_of_mem ?_ (List.pairwise_map.mp (h.ascending p))
  intro g g' hg hg' hlt c hc hc'
  have hl := (h.mem_group p g hg c).mp hc
  have hl' := (h.mem_group p g' hg' c).mp hc'
  have hid : g.id = g'.id := congrArg ParentLink.group (Option.some.inj (hl.symm.trans hl'))
  exact Nat.ne_of_lt hlt hid

/-- Only the first node is a child of no node. -/
theorem exists_mem_childrenOf (h : m.WellFormed) {c : Nat} :
    (∃ p, c ∈ m.childrenOf p) ↔ 0 < c ∧ c < m.size := by
  constructor
  · rintro ⟨p, hc⟩
    obtain ⟨hp, hs⟩ := h.lt_of_mem_childrenOf hc
    exact ⟨Nat.zero_lt_of_lt hp, hs⟩
  · rintro ⟨hz, hs⟩
    obtain ⟨link, hl, -⟩ := h.parent_lt c hs (Nat.ne_of_gt hz)
    exact ⟨link.node, h.mem_childrenOf.mpr ⟨link.group, hl⟩⟩

/-- Among all groups of all nodes, every node but the first is listed once. -/
theorem count_children (h : m.WellFormed) (c : Nat) :
    (m.nodes.toList.flatMap Node.children).count c = if 0 < c ∧ c < m.size then 1 else 0 := by
  have hchildren : ∀ (p : Nat) (hp : p < m.nodes.toList.length),
      m.nodes.toList[p].children = m.childrenOf p := by
    intro p hp
    rw [childrenOf_of_getElem? (n := m.nodes.toList[p])]
    rw [← Array.getElem?_toList, List.getElem?_eq_getElem hp]
  have hmem : c ∈ m.nodes.toList.flatMap Node.children ↔ 0 < c ∧ c < m.size := by
    rw [← h.exists_mem_childrenOf, List.mem_flatMap]
    constructor
    · rintro ⟨n, hn, hc⟩
      obtain ⟨p, hp, rfl⟩ := List.mem_iff_getElem.mp hn
      exact ⟨p, hchildren p hp ▸ hc⟩
    · rintro ⟨p, hc⟩
      have hp : p < m.nodes.toList.length :=
        Nat.lt_trans (h.lt_of_mem_childrenOf hc).1 (h.lt_of_mem_childrenOf hc).2
      exact ⟨m.nodes.toList[p], List.getElem_mem hp, by rw [hchildren p hp]; exact hc⟩
  have hnodup : (m.nodes.toList.flatMap Node.children).Nodup := by
    rw [List.nodup_flatMap]
    constructor
    · intro n hn
      obtain ⟨p, hp, rfl⟩ := List.mem_iff_getElem.mp hn
      rw [hchildren p hp]
      exact h.nodup_childrenOf p
    · -- A node that two others list has a link to both.
      refine List.pairwise_iff_getElem.mpr ?_
      intro p q hp hq hlt x hx hx'
      simp only [hchildren] at hx hx'
      obtain ⟨id, hl⟩ := h.mem_childrenOf.mp hx
      obtain ⟨id', hl'⟩ := h.mem_childrenOf.mp hx'
      have hpq : p = q := congrArg ParentLink.node (Option.some.inj (hl.symm.trans hl'))
      exact Nat.ne_of_lt hlt hpq
  rw [hnodup.count, if_congr hmem rfl rfl]

/-! ## Looking up groups -/

theorem group_eq (h : m.WellFormed) {p : Nat} {g : Group} (hg : g ∈ m.groupsOf p) :
    m.group p g.id = .ok g := by
  have hp := lt_size_of_mem_groupsOf hg
  have hn : m.nodes[p]? = some m.nodes[p] := Array.getElem?_eq_getElem hp
  have hfind : m.nodes[p].group? g.id = some g := by
    rw [groupsOf_of_getElem? hn] at hg
    unfold Node.group?
    cases hf : m.nodes[p].groups.find? (fun g' => (g'.id : Int) = g.id) with
    | none =>
      have := List.find?_eq_none.mp hf g hg
      simp at this
    | some g' =>
      have hid : (g'.id : Int) = g.id := by simpa using List.find?_some hf
      have hg' := List.mem_of_find?_eq_some hf
      rw [← groupsOf_of_getElem? hn] at hg hg'
      rw [h.group_unique hg' hg (by omega)]
  rw [group, node_eq_ok.mpr hn]
  simp only [bind, Except.bind, hfind]
  rfl

/-- The first node belongs to no group; for every other one the group that its link names is
found, and lists it. -/
theorem parentGroup_eq (h : m.WellFormed) {i : Nat} (hi : i < m.size) :
    if i = 0 then m.parentGroup i = .ok none
    else ∃ link, m.linkOf i = some link ∧ ∃ g ∈ m.groupsOf link.node,
      g.id = link.group ∧ i ∈ g.children ∧ m.parentGroup i = .ok (some g) := by
  have hn : m.nodes[i]? = some m.nodes[i] := Array.getElem?_eq_getElem hi
  split
  · next hz =>
    have hl : m.nodes[i].parent = none := by
      rw [← linkOf_of_getElem? hn, hz]
      exact h.link_zero
    rw [parentGroup, node_eq_ok.mpr hn]
    simp only [bind, Except.bind, hl]
    rfl
  · next hz =>
    obtain ⟨link, hl, -⟩ := h.parent_lt i hi hz
    obtain ⟨g, hg, hid, hmem⟩ := h.exists_group_of_linkOf hl
    refine ⟨link, hl, g, hg, hid, hmem, ?_⟩
    have hp : m.nodes[i].parent = some link := by rw [← linkOf_of_getElem? hn, hl]
    have hgroup : m.group link.node link.group = .ok g := by rw [← hid]; exact h.group_eq hg
    rw [parentGroup, node_eq_ok.mpr hn]
    simp only [bind, Except.bind, hp, hgroup]
    rfl

/-- A move is not refused because of the group that the node is in: the group is found, and lists
the node. -/
theorem moveRefused (h : m.WellFormed) {index : Nat} {id : Int} {e : Error} {m' : FeatureModel}
    (hrun : moveToGroup index id m = .error e m') : MoveRefused m index id e := by
  rw [moveToGroup] at hrun
  cases hn : m.nodes[index]? with
  | none =>
    have hnode : m.node index = .error .noNode := by rw [node, hn]
    rw [lookUp_bind_of_error (·.node index) hnode] at hrun
    cases hrun
    exact .noNode (Array.getElem?_eq_none_iff.mp hn)
  | some n =>
    have hi : index < m.size := (Array.getElem?_eq_some_iff.mp hn).1
    rw [lookUp_bind_of_ok (·.node index) (node_eq_ok.mpr hn)] at hrun
    cases hparent : n.parent with
    | none =>
      rw [hparent] at hrun
      cases hrun
      refine .root (Decidable.by_contra fun hz => ?_)
      obtain ⟨link, hl, -⟩ := h.parent_lt index hi hz
      rw [linkOf_of_getElem? hn, hparent] at hl
      cases hl
    | some link =>
      have hl : m.linkOf index = some link := by rw [linkOf_of_getElem? hn, hparent]
      rw [hparent] at hrun
      dsimp only at hrun
      cases htarget : m.group link.node id with
      | error e' =>
        rw [lookUp_bind_of_error (·.group link.node id) htarget] at hrun
        cases hrun
        rcases group_eq_error htarget with ⟨hsize, -⟩ | ⟨parent, hp, hnone, rfl⟩
        · have := h.link_lt hl
          omega
        · exact .noGroup hl hp hnone
      | ok target =>
        obtain ⟨old, hold, hid, hlists⟩ := h.exists_group_of_linkOf hl
        have hgroup : m.group link.node link.group = .ok old := hid ▸ h.group_eq hold
        rw [lookUp_bind_of_ok (·.group link.node id) htarget] at hrun
        split at hrun
        · cases hrun
        · rw [lookUp_bind_of_ok (·.group link.node link.group) hgroup, if_pos hlists] at hrun
          cases hrun

/-! ## The tree below a node -/

theorem subtree_eq (h : m.WellFormed) (i : Nat) :
    m.subtree i = .node i ((m.childrenOf i).map m.subtree) := by
  have hall : (m.childrenOf i).filterMap (fun child =>
      if i < child ∧ child < m.size then some (m.subtree child) else none) =
      (m.childrenOf i).map m.subtree := by
    rw [← List.filterMap_eq_map]
    refine List.filterMap_congr (fun c hc => ?_)
    rw [if_pos (h.lt_of_mem_childrenOf hc)]
    rfl
  rw [subtree, hall]

/-- Induction from the leaves to the root: a property holds of a node if it does of its children. -/
theorem node_induction (h : m.WellFormed) {motive : Nat → Prop}
    (step : ∀ i < m.size, (∀ c ∈ m.childrenOf i, motive c) → motive i) :
    ∀ i < m.size, motive i := by
  intro i
  induction hd : m.size - i using Nat.strongRecOn generalizing i with
  | ind d ih =>
    intro hi
    refine step i hi (fun c hc => ?_)
    obtain ⟨hlt, hs⟩ := h.lt_of_mem_childrenOf hc
    exact ih (m.size - c) (by omega) c rfl hs

theorem postorder_subtree (h : m.WellFormed) (i : Nat) :
    (m.subtree i).postorder =
      (m.childrenOf i).flatMap (fun c => (m.subtree c).postorder) ++ [i] := by
  rw [h.subtree_eq, Tree.postorder, Tree.postorders_eq, List.flatMap_map]

theorem self_mem_postorder_subtree (h : m.WellFormed) (i : Nat) :
    i ∈ (m.subtree i).postorder := by
  rw [h.postorder_subtree]
  exact List.mem_append_right _ (List.mem_singleton_self i)

/-- The nodes of the tree below a node are those that steps from nodes to children lead to. -/
theorem mem_postorder_subtree (h : m.WellFormed) {i : Nat} : ∀ r < m.size,
    (i ∈ (m.subtree r).postorder ↔ Relation.ReflTransGen (fun p c => c ∈ m.childrenOf p) r i) := by
  refine h.node_induction (fun r _ ih => ?_)
  rw [h.postorder_subtree, Relation.ReflTransGen.cases_head_iff, List.mem_append, List.mem_flatMap,
    List.mem_singleton]
  constructor
  · rintro (⟨c, hc, hi⟩ | rfl)
    · exact Or.inr ⟨c, hc, (ih c hc).mp hi⟩
    · exact Or.inl rfl
  · rintro (rfl | ⟨c, hc, hi⟩)
    · exact Or.inr rfl
    · exact Or.inl ⟨c, hc, (ih c hc).mpr hi⟩

/-- The tree below a node contains the children of its nodes. -/
theorem child_mem_postorder (h : m.WellFormed) {r i c : Nat} (hr : r < m.size)
    (hi : i ∈ (m.subtree r).postorder) (hc : c ∈ m.childrenOf i) :
    c ∈ (m.subtree r).postorder :=
  (h.mem_postorder_subtree r hr).mpr (((h.mem_postorder_subtree r hr).mp hi).tail hc)

theorem lt_size_of_mem_postorder (h : m.WellFormed) {r i : Nat} (hr : r < m.size)
    (hi : i ∈ (m.subtree r).postorder) : i < m.size := by
  rcases ((h.mem_postorder_subtree r hr).mp hi).cases_tail with rfl | ⟨p, -, hc⟩
  · exact hr
  · exact (h.lt_of_mem_childrenOf hc).2

theorem le_of_mem_postorder (h : m.WellFormed) {r i : Nat} (hr : r < m.size)
    (hi : i ∈ (m.subtree r).postorder) : r ≤ i := by
  have hsteps := (h.mem_postorder_subtree r hr).mp hi
  induction hsteps with
  | refl => exact Nat.le_refl r
  | tail hsteps hc ih =>
    have hle := ih ((h.mem_postorder_subtree r hr).mpr hsteps)
    exact Nat.le_trans hle (Nat.le_of_lt (h.lt_of_mem_childrenOf hc).1)

theorem preorder_subtree (h : m.WellFormed) (i : Nat) :
    (m.subtree i).preorder =
      i :: (m.childrenOf i).flatMap (fun c => (m.subtree c).preorder) := by
  rw [h.subtree_eq, Tree.preorder, Tree.preorders_eq, List.flatMap_map]

/-- A node is in the trees below one child of another node at most. -/
theorem child_unique (h : m.WellFormed) {p c c' i : Nat} (hc : c ∈ m.childrenOf p)
    (hc' : c' ∈ m.childrenOf p) (hi : i ∈ (m.subtree c).postorder)
    (hi' : i ∈ (m.subtree c').postorder) : c = c' := by
  have hup : Relator.RightUnique (fun c p => c ∈ m.childrenOf p) := by
    intro c p q hp hq
    obtain ⟨id, hl⟩ := h.mem_childrenOf.mp hp
    obtain ⟨id', hl'⟩ := h.mem_childrenOf.mp hq
    exact congrArg ParentLink.node (Option.some.inj (hl.symm.trans hl'))
  -- Of two children, the one that steps to parents lead to from the other would be above `p`.
  have hnot {c c' : Nat} (hc : c ∈ m.childrenOf p) (hc' : c' ∈ m.childrenOf p)
      (hsteps : Relation.ReflTransGen (fun c p => c ∈ m.childrenOf p) c c') : c = c' := by
    obtain rfl | ⟨q, hq, hsteps⟩ := hsteps.cases_head
    · rfl
    · obtain rfl := hup hq hc
      obtain ⟨hlt, hsize⟩ := h.lt_of_mem_childrenOf hc'
      have hmem := (h.mem_postorder_subtree c' hsize).mpr (Relation.reflTransGen_swap.mp hsteps)
      exact absurd hlt (Nat.not_lt.mpr (h.le_of_mem_postorder hsize hmem))
  have hsteps := (h.mem_postorder_subtree c (h.lt_of_mem_childrenOf hc).2).mp hi
  have hsteps' := (h.mem_postorder_subtree c' (h.lt_of_mem_childrenOf hc').2).mp hi'
  rcases Relation.ReflTransGen.total_of_right_unique hup (Relation.reflTransGen_swap.mpr hsteps)
    (Relation.reflTransGen_swap.mpr hsteps') with hcc | hcc
  · exact hnot hc hc' hcc
  · exact (hnot hc' hc hcc).symm

theorem nodup_preorder (h : m.WellFormed) : ∀ i < m.size, (m.subtree i).preorder.Nodup := by
  refine h.node_induction (fun i hi ih => ?_)
  rw [h.preorder_subtree, List.nodup_cons, List.nodup_flatMap]
  refine ⟨fun hmem => ?_, ih, ?_⟩
  · obtain ⟨c, hc, hmem⟩ := List.mem_flatMap.mp hmem
    obtain ⟨hlt, hsize⟩ := h.lt_of_mem_childrenOf hc
    exact absurd hlt (Nat.not_lt.mpr (h.le_of_mem_postorder hsize (Tree.mem_preorder.mp hmem)))
  · refine (h.nodup_childrenOf i).imp_of_mem (fun hc hc' hne j hj hj' => hne ?_)
    exact h.child_unique hc hc' (Tree.mem_preorder.mp hj) (Tree.mem_preorder.mp hj')

/-- A child of a node of the tree below another one is in that tree, but not at its top. -/
theorem child_below (h : m.WellFormed) {r i c : Nat} {n : Node} (hr : r < m.size)
    (hi : i ∈ (m.subtree r).postorder) (hn : m.nodes[i]? = some n) (hc : c ∈ n.children) :
    c ∈ m.childrenOf i ∧ c ∈ (m.subtree r).postorder ∧ c < m.size ∧ c ≠ r := by
  rw [← childrenOf_of_getElem? hn] at hc
  obtain ⟨hlt, hsize⟩ := h.lt_of_mem_childrenOf hc
  have hle := h.le_of_mem_postorder hr hi
  exact ⟨hc, h.child_mem_postorder hr hi hc, hsize, by omega⟩

/-- Every node is in the tree below the first one. -/
theorem mem_postorder_subtree_zero (h : m.WellFormed) {i : Nat} (hi : i < m.size) :
    i ∈ (m.subtree 0).postorder := by
  refine (h.mem_postorder_subtree 0 (Nat.zero_lt_of_lt hi)).mpr ?_
  induction i using Nat.strongRecOn with
  | ind i ih =>
    rcases Nat.eq_zero_or_pos i with rfl | hz
    · exact .refl
    · obtain ⟨p, hc⟩ := h.exists_mem_childrenOf.mpr ⟨hz, hi⟩
      have hlt := (h.lt_of_mem_childrenOf hc).1
      exact (ih p hlt (Nat.lt_trans hlt hi)).tail hc

end WellFormed

end Variability.FeatureModel
