import Variability.Proofs.Build.Meaning
import Variability.Proofs.Build.Tree

/-!
Groups of a node beside the groups of a feature of a document.

The groups of a node correspond to those of a feature if they come after the
group that every node has, in the same order, and each of them has its place as
its number, the range of its kind, and the nodes of the members as children
(`GroupsCorrespond`). This stays so when a group is added, when a node joins the
last group, and when further nodes are created anywhere else.
-/

namespace Variability

/-! ## Cardinalities of nodes -/

namespace FeatureModel

/-- The cardinality of a node. -/
def cardinalityOf (m : FeatureModel) (k : Nat) : Option Range := m.nodes[k]?.map Node.cardinality

theorem cardinalityOf_modifyNode (m : FeatureModel) {change : Node → Node}
    (h : ∀ n, (change n).cardinality = n.cardinality) (index k : Nat) :
    (m.modifyNode index change).cardinalityOf k = m.cardinalityOf k := by
  rw [cardinalityOf, getElem?_modifyNode, cardinalityOf]
  split
  · cases m.nodes[k]? with
    | none => rfl
    | some n => exact congrArg some (h n)
  · rfl

theorem cardinalityOf_modifyGroup (m : FeatureModel) (index id : Nat) (change : Group → Group)
    (k : Nat) : (m.modifyGroup index id change).cardinalityOf k = m.cardinalityOf k := by
  rw [modifyGroup, cardinalityOf_modifyNode]
  intro n
  rfl

theorem cardinalityOf_pushNode (m : FeatureModel) (n : Node) (k : Nat) :
    (m.pushNode n).cardinalityOf k =
      if k = m.size then some n.cardinality else m.cardinalityOf k := by
  rw [cardinalityOf, getElem?_pushNode, cardinalityOf]
  split <;> rfl

theorem cardinalityOf_setCardinality {m m' : FeatureModel} {index : Nat} {r : Range} {u : Unit}
    (h : setCardinality index r m = .ok u m') (k : Nat) :
    m'.cardinalityOf k = if k = index then m.nodes[k]?.map (fun _ => r) else m.cardinalityOf k := by
  obtain ⟨-, rfl⟩ := setCardinality_iff.mp h
  rw [cardinalityOf, getElem?_modifyNode, cardinalityOf]
  split
  · rw [Option.map_map]
    rfl
  · rfl

end FeatureModel

namespace Build

variable {d : Document} {m m' : FeatureModel}

/-! ## Groups -/

/-- A group of a node stands for a group of the document; `order` tells which feature each node
stands for. -/
structure GroupCorresponds (order : List (Fin d.count)) (id : Nat) (g : Document.Group d.count)
    (g' : Group) : Prop where
  id_eq : g'.id = id
  spans : Spans g.kind g.lower g.upper g'.range
  children : g'.children.map (order[·]?) = g.members.map some

/-- A node has the group that every node has, without children, and after it one group for each
group of the document. -/
structure GroupsCorrespond (order : List (Fin d.count)) (gs : List (Document.Group d.count))
    (groups : List Group) : Prop where
  length_eq : groups.length = gs.length + 1
  first : groups[0]? = some FeatureModel.firstGroup
  later : ∀ j g, gs[j]? = some g →
    ∃ g', groups[j + 1]? = some g' ∧ GroupCorresponds order (j + 1) g g'

variable {order : List (Fin d.count)} {gs : List (Document.Group d.count)} {groups : List Group}

theorem GroupCorresponds.append {id : Nat} {g : Document.Group d.count} {g' : Group}
    (h : GroupCorresponds order id g g') (more : List (Fin d.count)) :
    GroupCorresponds (order ++ more) id g g' where
  id_eq := h.id_eq
  spans := h.spans
  children := by
    rw [← h.children]
    refine List.map_congr_left (fun c hc => ?_)
    -- A child is a node already, and nodes keep their features.
    have hmem : order[c]? ∈ g.members.map some := by
      rw [← h.children]
      exact List.mem_map_of_mem hc
    obtain ⟨i, -, hi⟩ := List.mem_map.mp hmem
    rw [List.getElem?_append_left (List.getElem?_eq_some_iff.mp hi.symm).1]

theorem GroupsCorrespond.append (h : GroupsCorrespond order gs groups) (more : List (Fin d.count)) :
    GroupsCorrespond (order ++ more) gs groups where
  length_eq := h.length_eq
  first := h.first
  later := by
    intro j g hg
    obtain ⟨g', hg', hgroup⟩ := h.later j g hg
    exact ⟨g', hg', hgroup.append more⟩

theorem groupsCorrespond_nil : GroupsCorrespond order [] [FeatureModel.firstGroup] :=
  ⟨rfl, rfl, fun _ _ hg => nomatch hg⟩

theorem lt_length_append {α : Type} {xs : List α} {k : Nat} (h : k < xs.length) (ys : List α) :
    k < (xs ++ ys).length := by
  rw [List.length_append]
  omega

theorem getElem?_concat_cases {α : Type} {xs : List α} {x y : α} {j : Nat}
    (h : (xs ++ [x])[j]? = some y) : xs[j]? = some y ∨ j = xs.length ∧ y = x := by
  rcases Nat.lt_or_ge j xs.length with hj | hj
  · rw [List.getElem?_append_left hj] at h
    exact Or.inl h
  · have hlt := (List.getElem?_eq_some_iff.mp h).1
    rw [List.length_append, List.length_singleton] at hlt
    obtain rfl : j = xs.length := by omega
    rw [List.getElem?_concat_length] at h
    exact Or.inr ⟨rfl, (Option.some.inj h).symm⟩

/-- A new group has no children yet. -/
theorem GroupsCorrespond.addGroup (h : GroupsCorrespond order gs groups)
    {g : Document.Group d.count} {r : Range} (hr : Spans g.kind g.lower g.upper r) :
    GroupsCorrespond order (gs ++ [{ g with members := [] }])
      (groups ++ [⟨gs.length + 1, r, []⟩]) where
  length_eq := by
    rw [List.length_append, List.length_append, h.length_eq]
    rfl
  first := by
    rw [List.getElem?_append_left (by rw [h.length_eq]; omega), h.first]
  later := by
    intro j g' hg'
    rcases getElem?_concat_cases hg' with hg' | ⟨rfl, rfl⟩
    · obtain ⟨g'', hg'', hgroup⟩ := h.later j g' hg'
      have hj := (List.getElem?_eq_some_iff.mp hg'').1
      exact ⟨g'', by rw [List.getElem?_append_left hj, hg''], hgroup⟩
    · rw [← h.length_eq, List.getElem?_concat_length]
      exact ⟨_, rfl, rfl, hr, rfl⟩

/-- A new node joins the last group. -/
theorem GroupsCorrespond.addMember {g : Document.Group d.count}
    (h : GroupsCorrespond order (gs ++ [g]) groups) (i : Fin d.count) :
    GroupsCorrespond (order ++ [i]) (gs ++ [{ g with members := g.members ++ [i] }])
      (groups.map fun g' =>
        if g'.id = gs.length + 1 then { g' with children := g'.children ++ [order.length] }
        else g') where
  length_eq := by
    rw [List.length_map, h.length_eq, List.length_append, List.length_append]
    rfl
  first := by
    rw [List.getElem?_map, h.first, Option.map_some, if_neg (by simp [FeatureModel.firstGroup])]
  later := by
    intro j g' hg'
    rw [List.getElem?_map]
    rcases getElem?_concat_cases hg' with hg' | ⟨rfl, rfl⟩
    · have hj := (List.getElem?_eq_some_iff.mp hg').1
      have hold : (gs ++ [g])[j]? = some g' := by rw [List.getElem?_append_left hj, hg']
      obtain ⟨g'', hg'', hgroup⟩ := h.later j g' hold
      have hid : ¬g''.id = gs.length + 1 := by
        rw [hgroup.id_eq]
        omega
      rw [hg'', Option.map_some, if_neg hid]
      exact ⟨g'', rfl, hgroup.append [i]⟩
    · obtain ⟨g'', hg'', hgroup⟩ := h.later gs.length g List.getElem?_concat_length
      have hgrown := hgroup.append [i]
      rw [hg'', Option.map_some, if_pos hgroup.id_eq]
      refine ⟨_, rfl, hgroup.id_eq, hgroup.spans, ?_⟩
      rw [List.map_append, List.map_append, hgrown.children, List.map_singleton,
        List.map_singleton, List.getElem?_concat_length]

end Build

end Variability
