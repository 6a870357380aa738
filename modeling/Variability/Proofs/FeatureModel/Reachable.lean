import Variability.Proofs.FeatureModel.Children

/-!
Feature models that are made by operations.

What is proved:
  1. `change_apply`: an operation that succeeds is one of the changes, whatever
     its arguments are, so it keeps a model well-formed.
  2. `extends_run`: the nodes of a model keep their places, features and parents
     in all models that follow, and the number of a group that was removed is
     not used again.
  3. `run_wellFormed`: every sequence of operations, also with some that are
     refused, leads from the empty model to a well-formed one.
  4. `reachable_tree`: what this means for the four places where the model keeps
     the shape of the tree (the links, the numbers of the groups, the lists of
     children and the list of nodes).

An operation is told by number which node it is for, and the number that a node
has been given is its place in the list of nodes.
-/

namespace Variability.FeatureModel

open Edit

variable {m m' : FeatureModel} {index i : Nat} {id : Int} {u : Unit}

/-! ## Each operation is a change -/

theorem change_addFeature {name : Option String} {type : FeatureType} {f : Feature}
    (h : addFeature name type m = .ok f m') : Change m m' [] := by
  obtain ⟨-, -, rfl⟩ := addFeature_iff.mp h
  exact .same rfl rfl rfl rfl rfl rfl

theorem change_addRoot {feature : FeatureRef} (h : addRoot feature m = .ok i m') :
    Change m m' [feature] := by
  obtain ⟨hr, -, rfl⟩ := addRoot_iff.mp h
  exact .newRoot feature hr (m.nodeFeatures_pushNode _) (m.nodeIndices_pushNode _) rfl
    (m.linkOf_pushNode _) (m.groupsOf_pushNode _) (m.nextGroupOf_pushNode _)

theorem change_addBelow {feature : FeatureRef} (h : addBelow index feature id m = .ok i m') :
    Change m m' [feature] := by
  obtain ⟨g, hg, -, rfl⟩ := addBelow_iff.mp h
  have hmem := (group_eq_ok hg).1
  have hi := lt_size_of_mem_groupsOf hmem
  refine .newChild index g feature hmem (by simp) (by simp) rfl (fun i => ?_) (fun i => ?_)
    (fun i => ?_)
  · rw [linkOf_modifyGroup, linkOf_pushNode]
  · rw [groupsOf_modifyGroup, groupsOf_pushNode]
    split
    · next hi' => rw [if_neg (by omega), hi']
    · rfl
  · rw [nextGroupOf_modifyGroup, nextGroupOf_pushNode]

theorem change_addGroup {range : Range} {g : Group} (h : addGroup index range m = .ok g m') :
    Change m m' [] := by
  obtain ⟨n, hn, rfl, rfl⟩ := addGroup_iff.mp h
  rw [node_eq_ok] at hn
  refine .newGroup index range ?_ ?_ rfl ?_ (fun i => ?_) (fun i => ?_)
  · exact m.nodeFeatures_modifyNode (by intro n; rfl) index
  · exact m.nodeIndices_modifyNode (by intro n; rfl) index
  · funext i
    exact m.linkOf_modifyNode (by intro n; rfl) index i
  · rw [groupsOf_modifyNode m (by intro n; rfl) index i, groupsOf_of_getElem? hn,
      nextGroupOf_of_getElem? hn]
    split
    · next hi => rw [hi, hn]; rfl
    · rfl
  · rw [nextGroupOf_modifyNode m (by intro n; rfl) index i, nextGroupOf_of_getElem? hn]
    split
    · next hi => rw [hi, hn]; rfl
    · rfl

theorem change_removeGroup (h : removeGroup index id m = .ok u m') : Change m m' [] := by
  obtain ⟨g, hg, he, rfl⟩ := removeGroup_eq_ok h
  refine .lostGroup index g hg he ?_ ?_ rfl ?_ (fun i => ?_) ?_
  · exact m.nodeFeatures_modifyNode (by intro n; rfl) index
  · exact m.nodeIndices_modifyNode (by intro n; rfl) index
  · funext i
    exact m.linkOf_modifyNode (by intro n; rfl) index i
  · rw [groupsOf_modifyNode m (by intro n; rfl) index i]
    split
    · next hi =>
      rw [hi, groupsOf]
      cases m.nodes[index]? <;> rfl
    · rfl
  · funext i
    exact m.nextGroupOf_modifyNode_same (by intro n; rfl) index i

theorem change_moveToGroup (h : moveToGroup index id m = .ok u m') : Change m m' [] := by
  obtain ⟨⟨p, old⟩, hl, g, hg, ⟨-, rfl⟩ | ⟨hne, rfl⟩⟩ := moveToGroup_eq_ok h
  · exact .same rfl rfl rfl rfl rfl rfl
  have hi := m.lt_size_of_linkOf hl
  refine .moved index p old g hl hg hne ?_ ?_ rfl (fun i => ?_) (fun i => ?_) ?_
  · rw [nodeFeatures_modifyNode _ (by intro n; rfl), nodeFeatures_modifyGroup,
      nodeFeatures_modifyGroup]
  · rw [nodeIndices_modifyNode _ (by intro n; rfl), nodeIndices_modifyGroup,
      nodeIndices_modifyGroup]
  · rw [linkOf_modifyNode_parent _ (by intro n; rfl) (by simpa using hi), linkOf_modifyGroup,
      linkOf_modifyGroup]
  · rw [groupsOf_modifyNode_same _ (by intro n; rfl), groupsOf_modifyGroup, groupsOf_modifyGroup]
    split
    · next hp =>
      -- The two groups are different, so the two changes make one.
      rw [hp, List.map_map]
      refine List.map_congr_left (fun g' _ => ?_)
      simp only [Function.comp]
      by_cases ho : g'.id = old
      · rw [if_pos ho, if_neg (show ¬ g'.id = g.id from fun he => hne (he.symm.trans ho)),
          if_pos ho]
      · rw [if_neg ho, if_neg ho]
    · rfl
  · funext i
    rw [nextGroupOf_modifyNode_same _ (by intro n; rfl), nextGroupOf_modifyGroup,
      nextGroupOf_modifyGroup]

theorem change_setCardinality {cardinality : Range}
    (h : setCardinality index cardinality m = .ok u m') : Change m m' [] := by
  obtain ⟨-, rfl⟩ := setCardinality_iff.mp h
  refine .same ?_ ?_ rfl ?_ ?_ ?_
  · exact m.nodeFeatures_modifyNode (by intro n; rfl) index
  · exact m.nodeIndices_modifyNode (by intro n; rfl) index
  · funext i
    exact m.linkOf_modifyNode (by intro n; rfl) index i
  · funext i
    exact m.groupsOf_modifyNode_same (by intro n; rfl) index i
  · funext i
    exact m.nextGroupOf_modifyNode_same (by intro n; rfl) index i

/-! ## Sequences of operations -/

/-- An operation on a model, with its arguments. -/
inductive Operation where
  | addFeature (name : Option String) (type : FeatureType)
  | addRoot (feature : FeatureRef)
  | addBelow (index : Nat) (feature : FeatureRef) (group : Int)
  | addGroup (index : Nat) (range : Range)
  | removeGroup (index : Nat) (group : Int)
  | moveToGroup (index : Nat) (group : Int)
  | setCardinality (index : Nat) (cardinality : Range)
  | makeMandatory (index : Nat)
  | makeOptional (index : Nat)

/-- The features of the nodes that an operation creates. -/
def Operation.created : Operation → List FeatureRef
  | addRoot feature | addBelow _ feature _ => [feature]
  | _ => []

/-- Carries out an operation. -/
def apply : Operation → Edit Error Unit
  | .addFeature name type => discard (addFeature name type)
  | .addRoot feature => discard (addRoot feature)
  | .addBelow index feature group => discard (addBelow index feature group)
  | .addGroup index range => discard (addGroup index range)
  | .removeGroup index group => removeGroup index group
  | .moveToGroup index group => moveToGroup index group
  | .setCardinality index cardinality => setCardinality index cardinality
  | .makeMandatory index => makeMandatory index
  | .makeOptional index => makeOptional index

/-- The model after an operation, whether it was carried out or refused. -/
def step (m : FeatureModel) (op : Operation) : FeatureModel :=
  match apply op m with
  | .ok _ m' | .error _ m' => m'

/-- The model after operations, of which some may be refused. -/
def run (m : FeatureModel) (ops : List Operation) : FeatureModel := ops.foldl step m

theorem change_apply {op : Operation} (h : apply op m = .ok u m') : Change m m' op.created := by
  cases op with
  | addFeature =>
    obtain ⟨f, h⟩ := discard_eq_ok.mp h
    exact change_addFeature h
  | addRoot =>
    obtain ⟨i, h⟩ := discard_eq_ok.mp h
    exact change_addRoot h
  | addBelow =>
    obtain ⟨i, h⟩ := discard_eq_ok.mp h
    exact change_addBelow h
  | addGroup =>
    obtain ⟨g, h⟩ := discard_eq_ok.mp h
    exact change_addGroup h
  | removeGroup => exact change_removeGroup h
  | moveToGroup => exact change_moveToGroup h
  | setCardinality => exact change_setCardinality h
  | makeMandatory => exact change_setCardinality h
  | makeOptional => exact change_setCardinality h

/-- An operation that is refused changes nothing. -/
theorem guarded_apply (op : Operation) : Guarded (apply op) := by
  cases op with
  | addFeature name type => exact (guarded_addFeature name type).discard
  | addRoot feature => exact (guarded_addRoot feature).discard
  | addBelow index feature group => exact (guarded_addBelow index feature group).discard
  | addGroup index range => exact (guarded_addGroup index range).discard
  | removeGroup index group => exact guarded_removeGroup index group
  | moveToGroup index group => exact guarded_moveToGroup index group
  | setCardinality index cardinality => exact guarded_setCardinality index cardinality
  | makeMandatory index => exact guarded_setCardinality index .mandatory
  | makeOptional index => exact guarded_setCardinality index .optional

theorem step_of_ok {op : Operation} (h : apply op m = .ok u m') : m.step op = m' := by
  rw [step, h]

theorem step_of_error {op : Operation} {e : Error} (h : apply op m = .error e m') :
    m.step op = m := by
  rw [step, h]
  exact guarded_apply op m e m' h

/-- A step makes a change, or none at all. -/
theorem change_step (m : FeatureModel) (op : Operation) :
    ∃ created, Change m (m.step op) created := by
  cases h : apply op m with
  | ok u m' =>
    rw [step_of_ok h]
    exact ⟨op.created, change_apply h⟩
  | error e m' =>
    rw [step_of_error h]
    exact ⟨[], .same rfl rfl rfl rfl rfl rfl⟩

theorem WellFormed.step (h : m.WellFormed) (op : Operation) : (m.step op).WellFormed := by
  obtain ⟨created, hc⟩ := change_step m op
  exact h.of_change hc

theorem WellFormed.run (h : m.WellFormed) (ops : List Operation) : (m.run ops).WellFormed := by
  induction ops generalizing m with
  | nil => exact h
  | cons op ops ih => exact ih (h.step op)

theorem run_wellFormed (ops : List Operation) : (run {} ops).WellFormed := WellFormed.empty.run ops

/-- A model that operations lead to from the empty one. -/
def Reachable (m : FeatureModel) : Prop := ∃ ops, m = run {} ops

theorem Reachable.wellFormed (h : m.Reachable) : m.WellFormed := by
  obtain ⟨ops, rfl⟩ := h
  exact run_wellFormed ops

/-! ## What stays -/

/-- The nodes of `m` are in `m'` where they were, with the same feature and the same parent, and
the numbers that `m` has given to groups are not given again. -/
structure Extends (m m' : FeatureModel) : Prop where
  features : m.nodeFeatures <+: m'.nodeFeatures
  parent : ∀ i < m.size, (m'.linkOf i).map ParentLink.node = (m.linkOf i).map ParentLink.node
  next_le : ∀ p, m.nextGroupOf p ≤ m'.nextGroupOf p
  /-- A group that is missing stays missing. -/
  not_again : ∀ p, ∀ id < m.nextGroupOf p, id ∉ m.groupIdsOf p → id ∉ m'.groupIdsOf p

namespace Extends

variable {m m₁ m₂ : FeatureModel}

theorem refl (m : FeatureModel) : Extends m m :=
  ⟨List.prefix_rfl, fun _ _ => rfl, fun _ => Nat.le_refl _, fun _ _ _ h => h⟩

theorem size_le (h : Extends m m₁) : m.size ≤ m₁.size := by
  have := h.features.length_le
  simpa [nodeFeatures, size] using this

theorem trans (h₁ : Extends m m₁) (h₂ : Extends m₁ m₂) : Extends m m₂ := by
  refine ⟨h₁.features.trans h₂.features, ?_, ?_, ?_⟩
  · intro i hi
    rw [h₂.parent i (Nat.lt_of_lt_of_le hi h₁.size_le), h₁.parent i hi]
  · intro p
    exact Nat.le_trans (h₁.next_le p) (h₂.next_le p)
  · intro p id hid hne
    exact h₂.not_again p id (Nat.lt_of_lt_of_le hid (h₁.next_le p)) (h₁.not_again p id hid hne)

end Extends

/-- The links change only at a new node, or from one group of the parent to another. -/
theorem parent_of_change {created : List FeatureRef} (h : Change m m' created) {i : Nat}
    (hi : i < m.size) : (m'.linkOf i).map ParentLink.node = (m.linkOf i).map ParentLink.node := by
  have hne : i ≠ m.size := Nat.ne_of_lt hi
  cases h with
  | newRoot _ _ _ _ _ link | newChild _ _ _ _ _ _ _ link => rw [link, if_neg hne]
  | same _ _ _ link | newGroup _ _ _ _ _ link | lostGroup _ _ _ _ _ _ _ link => rw [link]
  | moved c p old g start _ _ _ _ _ link =>
    rw [link]
    split
    · next hc => rw [hc, start]; rfl
    · rfl

theorem nextGroupOf_of_change {created : List FeatureRef} (h : Change m m' created) (p : Nat) :
    m.nextGroupOf p ≤ m'.nextGroupOf p := by
  have hlast : m.nextGroupOf m.size = 0 := m.nextGroupOf_of_size_le (Nat.le_refl _)
  cases h with
  | newRoot _ _ _ _ _ _ _ next | newChild _ _ _ _ _ _ _ _ _ next =>
    rw [next]
    split
    · next hp => rw [hp, hlast]; exact Nat.zero_le _
    · exact Nat.le_refl _
  | newGroup q _ _ _ _ _ _ next =>
    rw [next]
    split
    · next hp => rw [hp]; exact Nat.le_succ _
    · exact Nat.le_refl _
  | same _ _ _ _ _ next | lostGroup _ _ _ _ _ _ _ _ _ next | moved _ _ _ _ _ _ _ _ _ _ _ _ next =>
    refine Nat.le_of_eq ?_
    rw [next]

/-- A group number that is not the next one is in use after a change only if it was before. -/
theorem mem_groupIdsOf_of_change {created : List FeatureRef} (h : Change m m' created) {p id : Nat}
    (hid : id < m.nextGroupOf p) (hm : id ∈ m'.groupIdsOf p) : id ∈ m.groupIdsOf p := by
  have hp : p ≠ m.size := by
    rintro rfl
    -- A node that does not exist yet has given away no number.
    rw [m.nextGroupOf_of_size_le (Nat.le_refl _)] at hid
    exact Nat.not_lt_zero _ hid
  obtain ⟨g', hg', rfl⟩ := List.mem_map.mp hm
  -- In every case a group of `m'` has the number of a group of `m`, or the next number.
  have key : ∃ g ∈ m.groupsOf p, g.id = g'.id := by
    cases h with
    | same _ _ _ _ groups => exact ⟨g', groups ▸ hg', rfl⟩
    | newRoot _ _ _ _ _ _ groups =>
      rw [groups, if_neg hp] at hg'
      exact ⟨g', hg', rfl⟩
    | newChild q g _ _ _ _ _ _ groups =>
      rw [groups, if_neg hp] at hg'
      split at hg'
      · next hq =>
        obtain ⟨g₀, hg₀, rfl⟩ := List.mem_map.mp hg'
        refine ⟨g₀, hq ▸ hg₀, ?_⟩
        split <;> rfl
      · exact ⟨g', hg', rfl⟩
    | newGroup q _ _ _ _ _ groups =>
      rw [groups] at hg'
      split at hg'
      · next hq =>
        rcases List.mem_append.mp hg' with hg' | hg'
        · exact ⟨g', hq ▸ hg', rfl⟩
        · rw [List.mem_singleton.mp hg', hq] at hid
          exact absurd hid (Nat.lt_irrefl _)
      · exact ⟨g', hg', rfl⟩
    | lostGroup q g _ _ _ _ _ _ groups =>
      rw [groups] at hg'
      split at hg'
      · next hq => exact ⟨g', hq ▸ (List.mem_filter.mp hg').1, rfl⟩
      · exact ⟨g', hg', rfl⟩
    | moved c q old g _ _ _ _ _ _ _ groups =>
      rw [groups] at hg'
      split at hg'
      · next hq =>
        obtain ⟨g₀, hg₀, rfl⟩ := List.mem_map.mp hg'
        refine ⟨g₀, hq ▸ hg₀, ?_⟩
        split
        · rfl
        · split <;> rfl
      · exact ⟨g', hg', rfl⟩
  obtain ⟨g, hg, he⟩ := key
  exact List.mem_map.mpr ⟨g, hg, he⟩

theorem extends_of_change {created : List FeatureRef} (h : Change m m' created) :
    Extends m m' where
  features := nodeFeatures_of_change h ▸ List.prefix_append ..
  parent _ hi := parent_of_change h hi
  next_le p := nextGroupOf_of_change h p
  not_again _ _ hid hne hm := hne (mem_groupIdsOf_of_change h hid hm)

theorem extends_run (m : FeatureModel) (ops : List Operation) : Extends m (m.run ops) := by
  induction ops generalizing m with
  | nil => exact .refl m
  | cons op ops ih =>
    obtain ⟨created, hc⟩ := change_step m op
    exact (extends_of_change hc).trans (ih _)

/-! ## The tree that every sequence of operations leads to -/

/-- After any operations on the empty model, with any arguments and also with some that are
refused: the links, the numbers and the lists of children describe one tree (`WellFormed`), in
which every node but the first is listed once; the group of a node can be looked up; whatever
happens next, an operation that is refused leaves the model as it was, one that succeeds creates
the nodes that it says, and nodes keep their features and parents; and a move is refused only for
want of the node, of a parent or of the group that the node is to join. -/
theorem reachable_tree (ops : List Operation) :
    (run {} ops).WellFormed ∧
    (∀ c, ((run {} ops).nodes.toList.flatMap Node.children).count c =
      if 0 < c ∧ c < (run {} ops).size then 1 else 0) ∧
    (∀ i < (run {} ops).size, if i = 0 then (run {} ops).parentGroup i = .ok none
      else ∃ link, (run {} ops).linkOf i = some link ∧ ∃ g ∈ (run {} ops).groupsOf link.node,
        g.id = link.group ∧ i ∈ g.children ∧ (run {} ops).parentGroup i = .ok (some g)) ∧
    (∀ op, match apply op (run {} ops) with
      | .ok _ m' => (run {} ops).step op = m' ∧
        m'.nodeFeatures = (run {} ops).nodeFeatures ++ op.created
      | .error _ m' => m' = run {} ops ∧ (run {} ops).step op = run {} ops) ∧
    (∀ i id e m', moveToGroup i id (run {} ops) = .error e m' → MoveRefused (run {} ops) i id e) ∧
    ∀ later, Extends (run {} ops) (run {} (ops ++ later)) := by
  have h := run_wellFormed ops
  refine ⟨h, h.count_children, fun i hi => h.parentGroup_eq hi, ?_, ?_, ?_⟩
  · intro op
    cases ha : apply op (run {} ops) with
    | error e m' => exact ⟨guarded_apply op _ e m' ha, step_of_error ha⟩
    | ok u m' => exact ⟨step_of_ok ha, nodeFeatures_of_change (change_apply ha)⟩
  · intro i id e m' hmove
    exact h.moveRefused hmove
  · intro later
    have happ : run {} (ops ++ later) = (run {} ops).run later := List.foldl_append ..
    rw [happ]
    exact extends_run _ later

end Variability.FeatureModel
