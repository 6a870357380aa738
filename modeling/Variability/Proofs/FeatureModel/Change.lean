import Variability.Proofs.FeatureModel.Operations

/-!
Changes of a feature model: the six ways in which an operation changes the
links and the groups of the nodes. Each of them keeps a model well-formed
(`WellFormed.of_change`).
-/

namespace Variability.FeatureModel

/-- The group that every node has from the start. -/
def firstGroup : Group := ⟨0, .atLeast 0, []⟩

/-- How a successful operation changes the links and the groups of the nodes, and the features of
the nodes that it creates. -/
inductive Change (m m' : FeatureModel) : List FeatureRef → Prop
  /-- Not at all. -/
  | same (features : m'.nodeFeatures = m.nodeFeatures) (indices : m'.nodeIndices = m.nodeIndices)
      (root : m'.root = m.root) (link : m'.linkOf = m.linkOf)
      (groups : m'.groupsOf = m.groupsOf) (next : m'.nextGroupOf = m.nextGroupOf) :
      Change m m' []
  /-- The first node is created. -/
  | newRoot (feature : FeatureRef) (empty : m.root = none)
      (features : m'.nodeFeatures = m.nodeFeatures ++ [feature])
      (indices : m'.nodeIndices = m.nodeIndices ++ [m.size])
      (root : m'.root = some m.size)
      (link : ∀ i, m'.linkOf i = if i = m.size then none else m.linkOf i)
      (groups : ∀ i, m'.groupsOf i = if i = m.size then [firstGroup] else m.groupsOf i)
      (next : ∀ i, m'.nextGroupOf i = if i = m.size then 1 else m.nextGroupOf i) :
      Change m m' [feature]
  /-- A node is created in a group of another node. -/
  | newChild (p : Nat) (g : Group) (feature : FeatureRef) (mem : g ∈ m.groupsOf p)
      (features : m'.nodeFeatures = m.nodeFeatures ++ [feature])
      (indices : m'.nodeIndices = m.nodeIndices ++ [m.size])
      (root : m'.root = m.root)
      (link : ∀ i, m'.linkOf i = if i = m.size then some ⟨p, g.id⟩ else m.linkOf i)
      (groups : ∀ i, m'.groupsOf i =
        if i = p then (m.groupsOf p).map (fun g' =>
          if g'.id = g.id then { g' with children := g'.children ++ [m.size] } else g')
        else if i = m.size then [firstGroup] else m.groupsOf i)
      (next : ∀ i, m'.nextGroupOf i = if i = m.size then 1 else m.nextGroupOf i) :
      Change m m' [feature]
  /-- A node gets another group. -/
  | newGroup (p : Nat) (range : Range) (features : m'.nodeFeatures = m.nodeFeatures)
      (indices : m'.nodeIndices = m.nodeIndices) (root : m'.root = m.root)
      (link : m'.linkOf = m.linkOf)
      (groups : ∀ i, m'.groupsOf i =
        if i = p then m.groupsOf p ++ [⟨m.nextGroupOf p, range, []⟩] else m.groupsOf i)
      (next : ∀ i, m'.nextGroupOf i = if i = p then m.nextGroupOf p + 1 else m.nextGroupOf i) :
      Change m m' []
  /-- A node loses a group without children. -/
  | lostGroup (p : Nat) (g : Group) (mem : g ∈ m.groupsOf p) (empty : g.children = [])
      (features : m'.nodeFeatures = m.nodeFeatures)
      (indices : m'.nodeIndices = m.nodeIndices) (root : m'.root = m.root)
      (link : m'.linkOf = m.linkOf)
      (groups : ∀ i, m'.groupsOf i =
        if i = p then (m.groupsOf p).filter (fun g' => g'.id != g.id) else m.groupsOf i)
      (next : m'.nextGroupOf = m.nextGroupOf) :
      Change m m' []
  /-- A node changes over to another group of its parent. -/
  | moved (c p old : Nat) (g : Group) (start : m.linkOf c = some ⟨p, old⟩) (mem : g ∈ m.groupsOf p)
      (other : g.id ≠ old) (features : m'.nodeFeatures = m.nodeFeatures)
      (indices : m'.nodeIndices = m.nodeIndices) (root : m'.root = m.root)
      (link : ∀ i, m'.linkOf i = if i = c then some ⟨p, g.id⟩ else m.linkOf i)
      (groups : ∀ i, m'.groupsOf i =
        if i = p then (m.groupsOf p).map (fun g' =>
          if g'.id = old then { g' with children := g'.children.erase c }
          else if g'.id = g.id then { g' with children := g'.children ++ [c] } else g')
        else m.groupsOf i)
      (next : m'.nextGroupOf = m.nextGroupOf) :
      Change m m' []

theorem nodeFeatures_of_change {m m' : FeatureModel} {created : List FeatureRef}
    (h : Change m m' created) : m'.nodeFeatures = m.nodeFeatures ++ created := by
  cases h with
  | newRoot _ _ features | newChild _ _ _ _ features => exact features
  | same features | newGroup _ _ features | lostGroup _ _ _ _ features
  | moved _ _ _ _ _ _ _ features => rw [features, List.append_nil]

theorem size_of_change {m m' : FeatureModel} {created : List FeatureRef}
    (h : Change m m' created) : m'.size = m.size + created.length := by
  rw [← length_nodeFeatures, nodeFeatures_of_change h, List.length_append, length_nodeFeatures]

namespace WellFormed

variable {m m' : FeatureModel}

theorem empty : WellFormed {} := by
  constructor <;> simp [nodeIndices, size, linkOf, groupsOf, groupIdsOf, nextGroupOf]

theorem index_eq (h : m.WellFormed) {i : Nat} {n : Node} (hn : m.nodes[i]? = some n) :
    n.index = i := by
  have hi : i < m.size := (Array.getElem?_eq_some_iff.mp hn).1
  have hindex : m.nodeIndices[i]? = some n.index := by
    rw [nodeIndices, List.getElem?_map, Array.getElem?_toList, hn, Option.map_some]
  rw [h.indices, List.getElem?_range hi] at hindex
  exact (Option.some.inj hindex).symm

theorem size_eq_zero (h : m.WellFormed) (hr : m.root = none) : m.size = 0 := by
  have := h.root_eq
  rw [hr] at this
  split at this
  · assumption
  · cases this

/-- A parent is an earlier node. -/
theorem link_lt (h : m.WellFormed) {i : Nat} {link : ParentLink} (hl : m.linkOf i = some link) :
    link.node < i := by
  have hi := m.lt_size_of_linkOf hl
  have hz : i ≠ 0 := by
    rintro rfl
    rw [h.link_zero] at hl
    cases hl
  obtain ⟨link', hl', hlt⟩ := h.parent_lt i hi hz
  obtain rfl := Option.some.inj (hl.symm.trans hl')
  exact hlt

/-- Two groups of a node with the same number are the same group. -/
theorem group_unique (h : m.WellFormed) {p : Nat} {g g' : Group} (hg : g ∈ m.groupsOf p)
    (hg' : g' ∈ m.groupsOf p) (hid : g.id = g'.id) : g = g' := by
  obtain ⟨i, hi, rfl⟩ := List.mem_iff_getElem.mp hg
  obtain ⟨j, hj, rfl⟩ := List.mem_iff_getElem.mp hg'
  have hlt := List.pairwise_iff_getElem.mp (List.pairwise_map.mp (h.ascending p))
  rcases Nat.lt_trichotomy i j with hij | rfl | hij
  · have := hlt i j hi hj hij
    omega
  · rfl
  · have := hlt j i hj hi hij
    omega

/-! ## The first node -/

theorem of_newRoot (h : m.WellFormed) (empty : m.root = none)
    (indices : m'.nodeIndices = m.nodeIndices ++ [m.size]) (size : m'.size = m.size + 1)
    (root : m'.root = some m.size)
    (link : ∀ i, m'.linkOf i = if i = m.size then none else m.linkOf i)
    (groups : ∀ i, m'.groupsOf i = if i = m.size then [firstGroup] else m.groupsOf i)
    (next : ∀ i, m'.nextGroupOf i = if i = m.size then 1 else m.nextGroupOf i) :
    m'.WellFormed := by
  -- Without a root there was no node at all.
  have hz := h.size_eq_zero empty
  have hl : ∀ i, m'.linkOf i = none := by
    intro i
    rw [link]
    split
    · rfl
    · exact m.linkOf_of_size_le (by omega)
  have hg : ∀ i, m'.groupsOf i = if i = 0 then [firstGroup] else [] := by
    intro i
    rw [groups, hz, m.groupsOf_of_size_le (by omega)]
  have hids : ∀ i, m'.groupIdsOf i = if i = 0 then [0] else [] := by
    intro i
    rw [groupIdsOf, hg]
    split <;> rfl
  have mem : ∀ {p g}, g ∈ m'.groupsOf p → g = firstGroup := by
    intro p g hm
    rw [hg] at hm
    split at hm
    · exact List.mem_singleton.mp hm
    · cases hm
  constructor
  case indices => rw [indices, h.indices, size, List.range_succ]
  case root_eq => rw [root, size, hz]; rfl
  case link_zero => exact hl 0
  case parent_lt => intro i hi; omega
  case group_mem => intro i link hi; rw [hl] at hi; cases hi
  case mem_group =>
    intro p g hm c
    rw [mem hm, hl]
    simp [firstGroup]
  case nodup_group =>
    intro p g hm
    rw [mem hm]
    exact List.nodup_nil
  case ascending => intro p; rw [hids]; split <;> simp
  case id_lt_next =>
    intro p id hm
    rw [hids] at hm
    split at hm
    · next hp =>
      rw [List.mem_singleton.mp hm, next, hz, if_pos hp]
      exact Nat.zero_lt_one
    · cases hm

/-! ## A new child -/

section
variable {p : Nat} {g : Group} (h : m.WellFormed) (mem : g ∈ m.groupsOf p)
  (groups : ∀ i, m'.groupsOf i =
    if i = p then (m.groupsOf p).map (fun g' =>
      if g'.id = g.id then { g' with children := g'.children ++ [m.size] } else g')
    else if i = m.size then [firstGroup] else m.groupsOf i)
include mem groups

theorem groupIdsOf_newChild (i : Nat) :
    m'.groupIdsOf i = if i = m.size then [0] else m.groupIdsOf i := by
  have hp := lt_size_of_mem_groupsOf mem
  rw [groupIdsOf, groups, groupIdsOf]
  split
  · next hi =>
    rw [if_neg (by omega), hi, List.map_map]
    refine List.map_congr_left (fun g' _ => ?_)
    simp only [Function.comp]
    split <;> rfl
  · split <;> rfl

include h

/-- A group is a new one, the one with the new child, or an old one. -/
theorem cases_newChild {q : Nat} {g' : Group} (hm : g' ∈ m'.groupsOf q) :
    q = m.size ∧ g' = firstGroup ∨
      q = p ∧ g' = { g with children := g.children ++ [m.size] } ∨
      g' ∈ m.groupsOf q ∧ ¬ (q = p ∧ g'.id = g.id) := by
  rw [groups] at hm
  split at hm
  · next hq =>
    obtain ⟨g₀, hg₀, rfl⟩ := List.mem_map.mp hm
    split
    · next hid =>
      obtain rfl := h.group_unique hg₀ mem hid
      exact Or.inr (Or.inl ⟨hq, rfl⟩)
    · next hid => exact Or.inr (Or.inr ⟨hq ▸ hg₀, fun hc => hid hc.2⟩)
  · next hq =>
    split at hm
    · next hs => exact Or.inl ⟨hs, List.mem_singleton.mp hm⟩
    · exact Or.inr (Or.inr ⟨hm, fun hc => hq hc.1⟩)

theorem of_newChild (indices : m'.nodeIndices = m.nodeIndices ++ [m.size])
    (size : m'.size = m.size + 1) (root : m'.root = m.root)
    (link : ∀ i, m'.linkOf i = if i = m.size then some ⟨p, g.id⟩ else m.linkOf i)
    (next : ∀ i, m'.nextGroupOf i = if i = m.size then 1 else m.nextGroupOf i) :
    m'.WellFormed := by
  have hp := lt_size_of_mem_groupsOf mem
  have hlast : m.linkOf m.size = none := m.linkOf_of_size_le (Nat.le_refl _)
  have hids := groupIdsOf_newChild mem groups
  constructor
  case indices => rw [indices, h.indices, size, List.range_succ]
  case root_eq => rw [root, size, h.root_eq, if_neg (by omega), if_neg (by omega)]
  case link_zero => rw [link, if_neg (by omega), h.link_zero]
  case parent_lt =>
    intro i hi hz
    rw [link]
    split
    · next hs => exact ⟨_, rfl, hs ▸ hp⟩
    · exact h.parent_lt i (by omega) hz
  case group_mem =>
    intro i l hl
    rw [link] at hl
    rw [hids]
    split at hl
    · obtain rfl := Option.some.inj hl
      rw [if_neg (Nat.ne_of_lt hp)]
      exact List.mem_map.mpr ⟨g, mem, rfl⟩
    · have hlt := h.link_lt hl
      have hi := m.lt_size_of_linkOf hl
      rw [if_neg (by omega)]
      exact h.group_mem i l hl
  case mem_group =>
    intro q g' hm c
    rw [link]
    rcases cases_newChild h mem groups hm with ⟨rfl, rfl⟩ | ⟨rfl, rfl⟩ | ⟨hm, hne⟩
    · -- No node has a link to the new one.
      have hno : ∀ link, m.linkOf c = some link → link.node ≠ m.size := by
        intro l hl
        have := h.link_lt hl
        have := m.lt_size_of_linkOf hl
        omega
      simp only [firstGroup, List.not_mem_nil, false_iff]
      split
      · intro he
        have := congrArg ParentLink.node (Option.some.inj he)
        exact Nat.ne_of_lt hp this
      · exact fun he => hno _ he rfl
    · rw [List.mem_append, List.mem_singleton, h.mem_group q g mem]
      split
      · next hc => simp [hc]
      · next hc => simp [hc]
    · rw [h.mem_group q g' hm]
      split
      · next hc =>
        rw [hc, hlast]
        simp only [reduceCtorEq, false_iff, Option.some.injEq, ParentLink.mk.injEq]
        exact fun he => hne ⟨he.1.symm, he.2.symm⟩
      · rfl
  case nodup_group =>
    intro q g' hm
    rcases cases_newChild h mem groups hm with ⟨rfl, rfl⟩ | ⟨rfl, rfl⟩ | ⟨hm, hne⟩
    · exact List.nodup_nil
    · have hnew : m.size ∉ g.children := by
        rw [h.mem_group q g mem, hlast]
        intro he
        cases he
      refine List.nodup_append.mpr ⟨h.nodup_group q g mem, by simp, ?_⟩
      rintro a ha b hb rfl
      exact hnew (List.mem_singleton.mp hb ▸ ha)
    · exact h.nodup_group q g' hm
  case ascending =>
    intro q
    rw [hids]
    split
    · exact List.pairwise_singleton ..
    · exact h.ascending q
  case id_lt_next =>
    intro q id hm
    rw [hids] at hm
    rw [next]
    split at hm
    · next hq =>
      rw [List.mem_singleton.mp hm, if_pos hq]
      exact Nat.zero_lt_one
    · next hq =>
      rw [if_neg hq]
      exact h.id_lt_next q id hm

end

/-! ## Groups that come and go -/

theorem of_newGroup (h : m.WellFormed) {p : Nat} {range : Range}
    (indices : m'.nodeIndices = m.nodeIndices) (size : m'.size = m.size)
    (root : m'.root = m.root) (link : m'.linkOf = m.linkOf)
    (groups : ∀ i, m'.groupsOf i =
      if i = p then m.groupsOf p ++ [⟨m.nextGroupOf p, range, []⟩] else m.groupsOf i)
    (next : ∀ i, m'.nextGroupOf i = if i = p then m.nextGroupOf p + 1 else m.nextGroupOf i) :
    m'.WellFormed := by
  have hids : ∀ i, m'.groupIdsOf i =
      if i = p then m.groupIdsOf p ++ [m.nextGroupOf p] else m.groupIdsOf i := by
    intro i
    rw [groupIdsOf, groups]
    split
    · rw [List.map_append]; rfl
    · rfl
  have hold : ∀ {i id}, id ∈ m.groupIdsOf i → id ∈ m'.groupIdsOf i := by
    intro i id hm
    rw [hids]
    split
    · next hi => exact List.mem_append_left _ (hi ▸ hm)
    · exact hm
  -- A group is an old one, or the new one.
  have cases_group : ∀ {q g}, g ∈ m'.groupsOf q →
      g ∈ m.groupsOf q ∨ q = p ∧ g = ⟨m.nextGroupOf p, range, []⟩ := by
    intro q g hm
    rw [groups] at hm
    split at hm
    · next hq =>
      rcases List.mem_append.mp hm with hm | hm
      · exact Or.inl (hq ▸ hm)
      · exact Or.inr ⟨hq, List.mem_singleton.mp hm⟩
    · exact Or.inl hm
  constructor
  case indices => rw [indices, h.indices, size]
  case root_eq => rw [root, size, h.root_eq]
  case link_zero => rw [link, h.link_zero]
  case parent_lt => rw [size, link]; exact h.parent_lt
  case group_mem =>
    intro i l hl
    rw [link] at hl
    exact hold (h.group_mem i l hl)
  case mem_group =>
    intro q g hm c
    rw [link]
    rcases cases_group hm with hm | ⟨rfl, rfl⟩
    · exact h.mem_group q g hm c
    · -- No link names a number that was not given away yet.
      simp only [List.not_mem_nil, false_iff]
      intro hl
      exact Nat.lt_irrefl _ (h.id_lt_next _ _ (h.group_mem c _ hl))
  case nodup_group =>
    intro q g hm
    rcases cases_group hm with hm | ⟨-, rfl⟩
    · exact h.nodup_group q g hm
    · exact List.nodup_nil
  case ascending =>
    intro q
    rw [hids]
    split
    · refine List.pairwise_append.mpr ⟨h.ascending p, List.pairwise_singleton .., ?_⟩
      intro a ha b hb
      rw [List.mem_singleton.mp hb]
      exact h.id_lt_next p a ha
    · exact h.ascending q
  case id_lt_next =>
    intro q id hm
    rw [hids] at hm
    rw [next]
    split at hm
    · next hq =>
      rw [if_pos hq]
      rcases List.mem_append.mp hm with hm | hm
      · exact Nat.lt_succ_of_lt (h.id_lt_next p id hm)
      · rw [List.mem_singleton.mp hm]
        exact Nat.lt_succ_self _
    · next hq =>
      rw [if_neg hq]
      exact h.id_lt_next q id hm

theorem of_lostGroup (h : m.WellFormed) {p : Nat} {g : Group} (mem : g ∈ m.groupsOf p)
    (empty : g.children = []) (indices : m'.nodeIndices = m.nodeIndices)
    (size : m'.size = m.size) (root : m'.root = m.root) (link : m'.linkOf = m.linkOf)
    (groups : ∀ i, m'.groupsOf i =
      if i = p then (m.groupsOf p).filter (fun g' => g'.id != g.id) else m.groupsOf i)
    (next : m'.nextGroupOf = m.nextGroupOf) : m'.WellFormed := by
  have hids : ∀ i, m'.groupIdsOf i =
      if i = p then (m.groupIdsOf p).filter (fun id => id != g.id) else m.groupIdsOf i := by
    intro i
    rw [groupIdsOf, groups]
    split
    · rw [groupIdsOf, List.filter_map]; rfl
    · rfl
  have hold : ∀ {q g'}, g' ∈ m'.groupsOf q → g' ∈ m.groupsOf q := by
    intro q g' hm
    rw [groups] at hm
    split at hm
    · next hq => exact hq ▸ (List.mem_filter.mp hm).1
    · exact hm
  have hidsold : ∀ {q id}, id ∈ m'.groupIdsOf q → id ∈ m.groupIdsOf q := by
    intro q id hm
    obtain ⟨g', hg', rfl⟩ := List.mem_map.mp hm
    exact List.mem_map.mpr ⟨g', hold hg', rfl⟩
  constructor
  case indices => rw [indices, h.indices, size]
  case root_eq => rw [root, size, h.root_eq]
  case link_zero => rw [link, h.link_zero]
  case parent_lt => rw [size, link]; exact h.parent_lt
  case group_mem =>
    intro i l hl
    rw [link] at hl
    have hmem := h.group_mem i l hl
    rw [hids]
    split
    · next hp =>
      refine List.mem_filter.mpr ⟨hp ▸ hmem, bne_iff_ne.mpr (fun hid => ?_)⟩
      -- The group that was lost lists no node, so no link names it.
      have hc : i ∈ g.children := (h.mem_group p g mem i).mpr (by rw [hl, ← hp, ← hid])
      rw [empty] at hc
      cases hc
    · exact hmem
  case mem_group =>
    intro q g' hm c
    rw [link]
    exact h.mem_group q g' (hold hm) c
  case nodup_group =>
    intro q g' hm
    exact h.nodup_group q g' (hold hm)
  case ascending =>
    intro q
    rw [hids]
    split
    · exact (h.ascending p).filter _
    · exact h.ascending q
  case id_lt_next =>
    intro q id hm
    rw [next]
    exact h.id_lt_next q id (hidsold hm)

/-! ## A node that changes over -/

section
variable {c p old : Nat} {g : Group} (h : m.WellFormed) (mem : g ∈ m.groupsOf p)
  (groups : ∀ i, m'.groupsOf i =
    if i = p then (m.groupsOf p).map (fun g' =>
      if g'.id = old then { g' with children := g'.children.erase c }
      else if g'.id = g.id then { g' with children := g'.children ++ [c] } else g')
    else m.groupsOf i)
include groups

theorem groupIdsOf_moved (i : Nat) : m'.groupIdsOf i = m.groupIdsOf i := by
  rw [groupIdsOf, groups, groupIdsOf]
  split
  · next hi =>
    rw [hi, List.map_map]
    refine List.map_congr_left (fun g' _ => ?_)
    simp only [Function.comp]
    split
    · rfl
    · split <;> rfl
  · rfl

include h mem

/-- A group is the one that the node left, the one that it joined, or another one. -/
theorem cases_moved {q : Nat} {g' : Group} (hm : g' ∈ m'.groupsOf q) :
    (q = p ∧ ∃ g₀ ∈ m.groupsOf p, g₀.id = old ∧
      g' = { g₀ with children := g₀.children.erase c }) ∨
    (q = p ∧ g' = { g with children := g.children ++ [c] }) ∨
    (g' ∈ m.groupsOf q ∧ ¬ (q = p ∧ (g'.id = old ∨ g'.id = g.id))) := by
  rw [groups] at hm
  split at hm
  · next hq =>
    obtain ⟨g₀, hg₀, rfl⟩ := List.mem_map.mp hm
    split
    · next hid => exact Or.inl ⟨hq, g₀, hg₀, hid, rfl⟩
    · next hold =>
      split
      · next hid =>
        obtain rfl := h.group_unique hg₀ mem hid
        exact Or.inr (Or.inl ⟨hq, rfl⟩)
      · next hid => exact Or.inr (Or.inr ⟨hq ▸ hg₀, fun hn => hn.2.elim hold hid⟩)
  · next hq => exact Or.inr (Or.inr ⟨hm, fun hn => hq hn.1⟩)

theorem of_moved (start : m.linkOf c = some ⟨p, old⟩) (other : g.id ≠ old)
    (indices : m'.nodeIndices = m.nodeIndices) (size : m'.size = m.size)
    (root : m'.root = m.root)
    (link : ∀ i, m'.linkOf i = if i = c then some ⟨p, g.id⟩ else m.linkOf i)
    (next : m'.nextGroupOf = m.nextGroupOf) : m'.WellFormed := by
  have hc : c ≠ 0 := by
    rintro rfl
    rw [h.link_zero] at start
    cases start
  have hp : p < c := h.link_lt start
  have hids := groupIdsOf_moved groups
  constructor
  case indices => rw [indices, h.indices, size]
  case root_eq => rw [root, size, h.root_eq]
  case link_zero => rw [link, if_neg (Ne.symm hc), h.link_zero]
  case parent_lt =>
    intro i hi hz
    rw [link]
    split
    · next hi => exact ⟨_, rfl, hi ▸ hp⟩
    · exact h.parent_lt i (size ▸ hi) hz
  case group_mem =>
    intro i l hl
    rw [link] at hl
    rw [hids]
    split at hl
    · obtain rfl := Option.some.inj hl
      exact List.mem_map.mpr ⟨g, mem, rfl⟩
    · exact h.group_mem i l hl
  case mem_group =>
    intro q g' hm i
    rw [link]
    rcases cases_moved h mem groups hm with ⟨rfl, g₀, hg₀, hid, rfl⟩ | ⟨rfl, rfl⟩ | ⟨hm, hne⟩
    · -- A group lists a node once, so the node is gone after it was taken out.
      rw [(h.nodup_group q g₀ hg₀).mem_erase_iff, h.mem_group q g₀ hg₀]
      split
      · next hi => simp [hi, hid, other]
      · next hi => simp [hi]
    · rw [List.mem_append, List.mem_singleton, h.mem_group q g mem]
      split
      · next hi => simp [hi]
      · next hi => simp [hi]
    · rw [h.mem_group q g' hm]
      split
      · next hi =>
        -- The node has no link to a third group, neither before nor after.
        rw [hi, start]
        simp only [Option.some.injEq, ParentLink.mk.injEq]
        exact ⟨fun he => absurd ⟨he.1.symm, Or.inl he.2.symm⟩ hne,
          fun he => absurd ⟨he.1.symm, Or.inr he.2.symm⟩ hne⟩
      · rfl
  case nodup_group =>
    intro q g' hm
    rcases cases_moved h mem groups hm with ⟨rfl, g₀, hg₀, hid, rfl⟩ | ⟨rfl, rfl⟩ | ⟨hm, hne⟩
    · exact (h.nodup_group q g₀ hg₀).erase c
    · have hnew : c ∉ g.children := by
        rw [h.mem_group q g mem, start]
        simpa using Ne.symm other
      refine List.nodup_append.mpr ⟨h.nodup_group q g mem, by simp, ?_⟩
      rintro a ha b hb rfl
      exact hnew (List.mem_singleton.mp hb ▸ ha)
    · exact h.nodup_group q g' hm
  case ascending => intro q; rw [hids]; exact h.ascending q
  case id_lt_next => intro q id hm; rw [next]; exact h.id_lt_next q id (hids q ▸ hm)

end

/-! ## All changes -/

/-- A change keeps a model well-formed. -/
theorem of_change (h : m.WellFormed) {created : List FeatureRef} (hc : Change m m' created) :
    m'.WellFormed := by
  have size := size_of_change hc
  cases hc with
  | same _ indices root link groups next =>
    have hids : m'.groupIdsOf = m.groupIdsOf := by
      funext i
      rw [groupIdsOf, groups, groupIdsOf]
    obtain ⟨h₁, h₂, h₃, h₄, h₅, h₆, h₇, h₈, h₉⟩ := h
    constructor <;>
      simp only [indices, size, root, link, groups, hids, next, List.length_nil, Nat.add_zero] <;>
      assumption
  | newRoot _ empty _ indices root link groups next =>
    exact h.of_newRoot empty indices size root link groups next
  | newChild _ _ _ mem _ indices root link groups next =>
    exact h.of_newChild mem groups indices size root link next
  | newGroup _ _ _ indices root link groups next =>
    exact h.of_newGroup indices size root link groups next
  | lostGroup _ _ mem empty _ indices root link groups next =>
    exact h.of_lostGroup mem empty indices size root link groups next
  | moved _ _ _ _ start mem other _ indices root link groups next =>
    exact h.of_moved mem groups start other indices size root link next

end WellFormed

end Variability.FeatureModel
