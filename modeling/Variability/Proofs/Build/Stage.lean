import Mathlib.Logic.Function.Basic
import Variability.Proofs.Build.Correspondence
import Variability.Proofs.Build.Typing
import Variability.Proofs.Document.Unfolding

/-!
Stages of the construction of a model.

A stage says which feature of the document each node stands for, which groups
of the feature have been built so far, and which nodes have got their
cardinalities (`Stage`). A successful part of the construction leads from a
stage to the next one: a member gets a node (`Stage.addMember`), a node gets
groups with their members (`Stage.addGroups`), or it gets its cardinality and
all its groups, and its children wait for theirs (`Stage.complete`).
-/

namespace Variability.Build

open Edit

variable {d : Document} {m m' : FeatureModel} {order : List (Fin d.count)}
  {gs : List (Document.Group d.count)}

/-! ## Stages -/

/-- The model has a node for each feature in `order`, and each node has its own number as its place
there. The groups that are `built` of a feature have been built, and the nodes that are `ranged`
have got their cardinalities. -/
structure Stage (d : Document) (order : List (Fin d.count))
    (built : Nat → List (Document.Group d.count)) (ranged : Nat → Prop) (m : FeatureModel) :
    Prop where
  grown : Grown m
  features : m.nodeFeatures = order.map (fun i => .registered (d.nameOf i))
  groups : ∀ k < order.length, GroupsCorrespond order (built k) (m.groupsOf k)
  next : ∀ k < order.length, m.nextGroupOf k = (built k).length + 1
  cardinality : ∀ k i, order[k]? = some i → ranged k →
    ∃ r, m.cardinalityOf k = some r ∧ Selects d i r
  fresh : ∀ k, order.length ≤ k → built k = [] ∧ ¬ranged k
  described : ∀ i ∈ order, Described m (d.feature i)
  builtIns : m.registry.HasBuiltIns

namespace Stage

variable {built : Nat → List (Document.Group d.count)} {ranged : Nat → Prop}

theorem size_eq (h : Stage d order built ranged m) : m.size = order.length := by
  rw [← FeatureModel.length_nodeFeatures, h.features, List.length_map]

theorem lt_size (h : Stage d order built ranged m) {k : Nat} (hk : k < order.length) :
    k < m.nodes.size := by
  rw [← h.size_eq] at hk
  exact hk

theorem exists_node (h : Stage d order built ranged m) {k : Nat} (hk : k < order.length) :
    ∃ n, m.nodes[k]? = some n := ⟨_, Array.getElem?_eq_getElem (h.lt_size hk)⟩

theorem nextGroup_eq (h : Stage d order built ranged m) {k : Nat} (hk : k < order.length)
    {n : Node} (hn : m.nodes[k]? = some n) : n.nextGroup = (built k).length + 1 := by
  rw [← h.next k hk, FeatureModel.nextGroupOf_of_getElem? hn]

/-- The registered features are those of the nodes. -/
theorem keys_eq (h : Stage d order built ranged m) :
    m.features.keys = order.map d.nameOf := by
  rw [h.grown.keys, FeatureModel.nodeNames_eq_map, h.features, List.map_map]
  rfl

/-- All names are different, as they are the keys of a table. -/
theorem nodup_names (h : Stage d order built ranged m) :
    (order.map d.nameOf).Nodup := h.keys_eq ▸ m.features.nodup

/-! ### Members -/

/-- What the node that is added below another one changes. -/
theorem addBelow_views {k id child : Nat} {feature : FeatureRef}
    (h : FeatureModel.addBelow k feature id m = .ok child m') :
    m.size = child ∧
    m'.nodeFeatures = m.nodeFeatures ++ [feature] ∧
    (∀ x, m'.groupsOf x =
      if x = k then (m.groupsOf k).map (fun g =>
        if g.id = id then { g with children := g.children ++ [m.size] } else g)
      else if x = m.size then [FeatureModel.firstGroup] else m.groupsOf x) ∧
    (∀ x, m'.nextGroupOf x = if x = m.size then 1 else m.nextGroupOf x) ∧
    (∀ x < m.size, m'.cardinalityOf x = m.cardinalityOf x) ∧
    m'.features = m.features ∧ m'.registry = m.registry := by
  obtain ⟨g, hg, hchild, rfl⟩ := FeatureModel.addBelow_iff.mp h
  obtain ⟨hmem, hid⟩ := FeatureModel.group_eq_ok hg
  obtain rfl : g.id = id := Int.ofNat_inj.mp hid
  have hk := FeatureModel.lt_size_of_mem_groupsOf hmem
  refine ⟨hchild, ?_, fun x => ?_, fun x => ?_, fun x hx => ?_, rfl, rfl⟩
  · exact (FeatureModel.nodeFeatures_modifyGroup ..).trans (FeatureModel.nodeFeatures_pushNode ..)
  · refine (FeatureModel.groupsOf_modifyGroup ..).trans ?_
    have hpush := m.groupsOf_pushNode { feature, index := m.size, parent := some ⟨k, g.id⟩ } x
    split
    · next hx =>
      subst hx
      exact congrArg _ (hpush.trans (if_neg (Nat.ne_of_lt hk)))
    · exact hpush
  · exact (FeatureModel.nextGroupOf_modifyGroup ..).trans (FeatureModel.nextGroupOf_pushNode ..)
  · refine (FeatureModel.cardinalityOf_modifyGroup ..).trans ?_
    exact (m.cardinalityOf_pushNode _ x).trans (if_neg (Nat.ne_of_lt hx))

/-- Registering a feature does not touch the nodes. -/
theorem views_of_registered {m₁ : FeatureModel} {name : Option String}
    (hr : FeatureModel.Registered m m₁ name) :
    m₁.size = m.size ∧ m₁.nodeFeatures = m.nodeFeatures ∧ m₁.groupsOf = m.groupsOf ∧
      m₁.nextGroupOf = m.nextGroupOf ∧ m₁.cardinalityOf = m.cardinalityOf := by
  refine ⟨?_, ?_, ?_, ?_, ?_⟩
  · rw [FeatureModel.size, hr.nodes, FeatureModel.size]
  · rw [FeatureModel.nodeFeatures, hr.nodes, FeatureModel.nodeFeatures]
  · funext k
    rw [FeatureModel.groupsOf, hr.nodes, FeatureModel.groupsOf]
  · funext k
    rw [FeatureModel.nextGroupOf, hr.nodes, FeatureModel.nextGroupOf]
  · funext k
    rw [FeatureModel.cardinalityOf, hr.nodes, FeatureModel.cardinalityOf]

section
variable {k child : Nat} {g : Document.Group d.count} {m₁ : FeatureModel} {feature : FeatureRef}

/-- The groups after a node has joined the last group of another one. -/
theorem groups_addBelow (h : Stage d order built ranged m) (hk : k < order.length)
    (hbuilt : built k = gs ++ [g]) (hsize : m₁.size = m.size) (hgroups : m₁.groupsOf = m.groupsOf)
    (hadd : FeatureModel.addBelow k feature (gs.length + 1 : Nat) m₁ = .ok child m')
    (i : Fin d.count) {x : Nat} (hx : x < (order ++ [i]).length) :
    GroupsCorrespond (order ++ [i])
      (Function.update built k (gs ++ [{ g with members := g.members ++ [i] }]) x)
      (m'.groupsOf x) := by
  obtain ⟨-, -, hgroups', -⟩ := addBelow_views hadd
  rw [hgroups' x, hgroups, hsize, h.size_eq]
  rw [List.length_append, List.length_singleton] at hx
  by_cases hxk : x = k
  · subst hxk
    have hold := h.groups x hk
    rw [hbuilt] at hold
    rw [if_pos rfl, Function.update_self]
    exact hold.addMember i
  · rw [if_neg hxk, Function.update_of_ne hxk]
    split
    · next hnew =>
      rw [(h.fresh x (Nat.le_of_eq hnew.symm)).1]
      exact groupsCorrespond_nil
    · next hnew => exact (h.groups x (by omega)).append [i]

/-- No group has been added. -/
theorem next_addBelow (h : Stage d order built ranged m) (hk : k < order.length)
    (hbuilt : built k = gs ++ [g]) (hsize : m₁.size = m.size)
    (hnext : m₁.nextGroupOf = m.nextGroupOf)
    (hadd : FeatureModel.addBelow k feature (gs.length + 1 : Nat) m₁ = .ok child m')
    (i : Fin d.count) {x : Nat} (hx : x < (order ++ [i]).length) :
    m'.nextGroupOf x =
      (Function.update built k (gs ++ [{ g with members := g.members ++ [i] }]) x).length + 1 := by
  obtain ⟨-, -, -, hnext', -⟩ := addBelow_views hadd
  rw [hnext' x, hnext, hsize, h.size_eq]
  rw [List.length_append, List.length_singleton] at hx
  by_cases hxk : x = k
  · subst hxk
    rw [if_neg (Nat.ne_of_lt hk), h.next x hk, hbuilt, Function.update_self, List.length_append,
      List.length_append]
    rfl
  · rw [Function.update_of_ne hxk]
    split
    · next hnew => rw [(h.fresh x (Nat.le_of_eq hnew.symm)).1, List.length_nil]
    · next hnew => exact h.next x (by omega)

end

/-- A member of the last group of a node gets a node of its own. -/
theorem addMember (h : Stage d order built ranged m) {k : Nat} (hk : k < order.length)
    {g : Document.Group d.count} (hbuilt : built k = gs ++ [g]) {i : Fin d.count}
    {w : Waiting d.count} (hrun : Build.addMember d k (gs.length + 1) i m = .ok w m') :
    w = ⟨i, order.length⟩ ∧
      Stage d (order ++ [i])
        (Function.update built k (gs ++ [{ g with members := g.members ++ [i] }])) ranged m' := by
  have hgrown := addMember_eq_ok h.grown hrun
  obtain ⟨name, m₁, hfeature, hrun⟩ := bind_eq_ok.mp hrun
  obtain ⟨rfl, hr⟩ := addFeature_eq_ok h.grown.named hfeature
  obtain ⟨hentered, hdescribed⟩ := addFeature_typed h.grown.named h.builtIns hfeature
  obtain ⟨child, m₂, hadd, hrun⟩ := onModel_bind_eq_ok.mp hrun
  obtain ⟨rfl, rfl⟩ := pure_eq_ok.mp hrun
  obtain ⟨rfl, hfeatures, -, -, hcardinality, htable, hregistry⟩ := addBelow_views hadd
  obtain ⟨hsize, hfeatures₁, hgroups₁, hnext₁, hcardinality₁⟩ := views_of_registered hr
  rw [hsize, h.size_eq] at hcardinality
  refine ⟨by rw [hsize, h.size_eq], {
    grown := hgrown
    features := ?features
    groups := fun _ => h.groups_addBelow hk hbuilt hsize hgroups₁ hadd i
    next := fun _ => h.next_addBelow hk hbuilt hsize hnext₁ hadd i
    cardinality := ?cardinality
    fresh := ?fresh
    described := ?described
    builtIns := hregistry ▸ h.builtIns.mono hentered.registry }⟩
  case features =>
    rw [hfeatures, hfeatures₁, h.features, List.map_append]
    rfl
  case cardinality =>
    intro x j hj hranged
    rcases getElem?_concat_cases hj with hj | ⟨rfl, -⟩
    · rw [hcardinality x (List.getElem?_eq_some_iff.mp hj).1, hcardinality₁]
      exact h.cardinality x j hj hranged
    · exact absurd hranged (h.fresh _ (Nat.le_refl _)).2
  case fresh =>
    intro x hx
    rw [List.length_append, List.length_singleton] at hx
    rw [Function.update_of_ne (by omega)]
    exact h.fresh x (by omega)
  case described =>
    refine List.forall_mem_append.mpr ⟨fun j hj => ?_, List.forall_mem_singleton.mpr ?_⟩
    · have hne : d.nameOf j ≠ d.nameOf i := by
        intro he
        apply hr.new
        rw [h.keys_eq]
        exact List.mem_map.mpr ⟨j, hj, he⟩
      exact ((h.described j hj).mono hentered hne).congr htable hregistry
    · exact hdescribed.congr htable hregistry

/-! ### Lists of members -/

end Stage

/-- Features that wait for their turn, with nodes numbered from `start` on. -/
def waitingFrom {n : Nat} (start : Nat) : List (Fin n) → List (Waiting n)
  | [] => []
  | i :: is => ⟨i, start⟩ :: waitingFrom (start + 1) is

theorem waitingFrom_append {n : Nat} (start : Nat) (is js : List (Fin n)) :
    waitingFrom start (is ++ js) = waitingFrom start is ++ waitingFrom (start + is.length) js := by
  induction is generalizing start with
  | nil => rfl
  | cons i is ih =>
    rw [List.cons_append, waitingFrom, ih, waitingFrom, List.cons_append, List.length_cons,
      Nat.add_assoc, Nat.add_comm 1]

namespace Stage

variable {built : Nat → List (Document.Group d.count)} {ranged : Nat → Prop}

theorem addMembers (h : Stage d order built ranged m) {k : Nat} (hk : k < order.length)
    {g : Document.Group d.count} (hbuilt : built k = gs ++ [g]) {members : List (Fin d.count)}
    {waiting waiting' : List (Waiting d.count)}
    (hrun : Build.addMembers d k (gs.length + 1) waiting members m = .ok waiting' m') :
    waiting' = (waitingFrom order.length members).reverse ++ waiting ∧
      Stage d (order ++ members)
        (Function.update built k (gs ++ [{ g with members := g.members ++ members }]))
        ranged m' := by
  induction members generalizing order built g waiting m with
  | nil =>
    obtain ⟨rfl, rfl⟩ := pure_eq_ok.mp hrun
    rw [List.append_nil, List.append_nil, ← hbuilt, Function.update_eq_self]
    exact ⟨rfl, h⟩
  | cons i rest ih =>
    obtain ⟨w, m₁, hmember, hrun⟩ := bind_eq_ok.mp hrun
    obtain ⟨rfl, h₁⟩ := h.addMember hk hbuilt hmember
    have hk₁ := lt_length_append hk [i]
    obtain ⟨rfl, h₂⟩ := ih h₁ hk₁ (Function.update_self ..) hrun
    rw [Function.update_idem, List.append_assoc, List.append_assoc, List.singleton_append] at h₂
    refine ⟨?_, h₂⟩
    rw [waitingFrom, List.reverse_cons, List.append_assoc, List.length_append]
    rfl

/-! ### Groups -/

theorem addGroup (h : Stage d order built ranged m) {k : Nat} (hk : k < order.length)
    {g : Document.Group d.count} {r : Range} (hr : Spans g.kind g.lower g.upper r)
    {g' : Group} (hadd : FeatureModel.addGroup k r m = .ok g' m') :
    g'.id = (built k).length + 1 ∧
      Stage d order (Function.update built k (built k ++ [{ g with members := [] }])) ranged
        m' := by
  have hgrown := h.grown.of_change (FeatureModel.change_addGroup hadd)
    (FeatureModel.features_addGroup hadd)
  obtain ⟨n, hnode, rfl, rfl⟩ := FeatureModel.addGroup_iff.mp hadd
  have hn := FeatureModel.node_eq_ok.mp hnode
  refine ⟨h.nextGroup_eq hk hn, {
    grown := hgrown
    features := ?features
    groups := ?groups
    next := ?next
    cardinality := ?cardinality
    fresh := ?fresh
    described := fun i hi => (h.described i hi).congr rfl rfl
    builtIns := h.builtIns }⟩
  case features =>
    rw [← h.features]
    exact m.nodeFeatures_modifyNode (by intro n; rfl) k
  case groups =>
    intro x hx
    rw [FeatureModel.groupsOf_modifyNode m (by intro n; rfl) k x]
    split
    · next he =>
      subst he
      rw [hn, Option.map_some, Option.getD_some, Function.update_self, h.nextGroup_eq hk hn,
        ← FeatureModel.groupsOf_of_getElem? hn]
      exact (h.groups x hk).addGroup hr
    · next hne =>
      rw [Function.update_of_ne hne]
      exact h.groups x hx
  case next =>
    intro x hx
    rw [FeatureModel.nextGroupOf_modifyNode m (by intro n; rfl) k x]
    split
    · next he =>
      subst he
      rw [hn, Option.map_some, Option.getD_some, Function.update_self, List.length_append,
        h.nextGroup_eq hk hn]
      rfl
    · next hne =>
      rw [Function.update_of_ne hne]
      exact h.next x hx
  case cardinality =>
    intro x i hi hranged
    rw [FeatureModel.cardinalityOf_modifyNode m (by intro n; rfl) k x]
    exact h.cardinality x i hi hranged
  case fresh =>
    intro x hx
    rw [Function.update_of_ne (by omega)]
    exact h.fresh x hx

theorem addGroups_cons {owner : Option String} {k : Nat} {g : Document.Group d.count}
    {rest : List (Document.Group d.count)} {waiting waiting' : List (Waiting d.count)} :
    Build.addGroups d owner k waiting (g :: rest) m = .ok waiting' m' ↔
      ∃ r, groupRange owner g = .ok r ∧ ∃ g' m₁, FeatureModel.addGroup k r m = .ok g' m₁ ∧
        ∃ waiting₁ m₂, Build.addMembers d k g'.id waiting g.members m₁ = .ok waiting₁ m₂ ∧
          Build.addGroups d owner k waiting₁ rest m₂ = .ok waiting' m' := by
  rw [Build.addGroups, orThrow_bind_eq_ok]
  simp only [bind_eq_ok, onModel_eq_ok]

theorem addGroups (h : Stage d order built ranged m) {k : Nat} (hk : k < order.length)
    {owner : Option String} {rest : List (Document.Group d.count)}
    {waiting waiting' : List (Waiting d.count)}
    (hrun : Build.addGroups d owner k waiting rest m = .ok waiting' m') :
    waiting' = (waitingFrom order.length (rest.flatMap Document.Group.members)).reverse ++ waiting ∧
      Stage d (order ++ rest.flatMap Document.Group.members)
        (Function.update built k (built k ++ rest)) ranged m' := by
  induction rest generalizing order built waiting m with
  | nil =>
    obtain ⟨rfl, rfl⟩ := pure_eq_ok.mp hrun
    rw [List.flatMap_nil, List.append_nil, List.append_nil, Function.update_eq_self]
    exact ⟨rfl, h⟩
  | cons g rest ih =>
    obtain ⟨r, hr, g', m₁, hadd, waiting₁, m₂, hmembers, hrun⟩ := addGroups_cons.mp hrun
    obtain ⟨hid, h₁⟩ := h.addGroup hk (groupRange_eq_ok.mp hr) hadd
    rw [hid] at hmembers
    obtain ⟨rfl, h₂⟩ := h₁.addMembers hk (Function.update_self ..) hmembers
    have hk₂ := lt_length_append hk g.members
    obtain ⟨rfl, h₃⟩ := ih h₂ hk₂ hrun
    rw [Function.update_idem, Function.update_idem, Function.update_self, List.append_assoc,
      List.append_assoc] at h₃
    refine ⟨?_, h₃⟩
    rw [List.flatMap_cons, waitingFrom_append, List.reverse_append, List.append_assoc,
      List.length_append]

/-! ### Nodes that are completed -/

theorem setCardinality (h : Stage d order built ranged m) {k : Nat} {i : Fin d.count}
    (hi : order[k]? = some i) {r : Range} (hr : Selects d i r)
    {u : Unit} (hset : FeatureModel.setCardinality k r m = .ok u m') :
    Stage d order built (fun x => x = k ∨ ranged x) m' := by
  have hk := (List.getElem?_eq_some_iff.mp hi).1
  have hgrown := h.grown.of_change (FeatureModel.change_setCardinality hset)
    (FeatureModel.features_setCardinality hset)
  have hcardinality := FeatureModel.cardinalityOf_setCardinality hset
  obtain ⟨-, rfl⟩ := FeatureModel.setCardinality_iff.mp hset
  refine {
    grown := hgrown
    features := ?features
    groups := ?groups
    next := ?next
    cardinality := ?cardinality
    fresh := ?fresh
    described := fun j hj => (h.described j hj).congr rfl rfl
    builtIns := h.builtIns }
  case features =>
    rw [← h.features]
    exact m.nodeFeatures_modifyNode (by intro n; rfl) k
  case groups =>
    intro x hx
    rw [FeatureModel.groupsOf_modifyNode_same m (by intro n; rfl) k x]
    exact h.groups x hx
  case next =>
    intro x hx
    rw [FeatureModel.nextGroupOf_modifyNode_same m (by intro n; rfl) k x]
    exact h.next x hx
  case cardinality =>
    intro x j hj hranged
    rw [hcardinality x]
    split
    · next hx =>
      subst hx
      obtain rfl := Option.some.inj (hj.symm.trans hi)
      rw [Array.getElem?_eq_getElem (h.lt_size hk)]
      exact ⟨r, rfl, hr⟩
    · next hx => exact h.cardinality x j hj (hranged.resolve_left hx)
  case fresh =>
    intro x hx
    obtain ⟨hempty, hranged⟩ := h.fresh x hx
    exact ⟨hempty, fun hor => hor.elim (by omega) hranged⟩

theorem complete_iff {w : Waiting d.count} {waiting waiting' : List (Waiting d.count)} :
    Build.complete d w waiting m = .ok waiting' m' ↔
      ∃ r, featureCardinality d w.feature = .ok r ∧
        ∃ u m₁, FeatureModel.setCardinality w.node r m = .ok u m₁ ∧
          Build.addGroups d (d.feature w.feature).name w.node waiting
            (d.feature w.feature).groups m₁ = .ok waiting' m' := by
  rw [Build.complete, orThrow_bind_eq_ok]
  simp only [onModel_bind_eq_ok]

/-- A node gets its cardinality and its groups, and its children wait for theirs. -/
theorem complete (h : Stage d order built ranged m) {w : Waiting d.count}
    (hw : order[w.node]? = some w.feature) (hbuilt : built w.node = [])
    {waiting waiting' : List (Waiting d.count)}
    (hrun : Build.complete d w waiting m = .ok waiting' m') :
    waiting' = (waitingFrom order.length (d.childrenOf w.feature)).reverse ++ waiting ∧
      Stage d (order ++ d.childrenOf w.feature)
        (Function.update built w.node (d.feature w.feature).groups)
        (fun x => x = w.node ∨ ranged x) m' := by
  have hk := (List.getElem?_eq_some_iff.mp hw).1
  obtain ⟨r, hr, _, m₁, hset, hrun⟩ := complete_iff.mp hrun
  have h₁ := h.setCardinality hw (featureCardinality_eq_ok.mp hr) hset
  obtain ⟨hwaiting, h₂⟩ := h₁.addGroups hk hrun
  rw [hbuilt, List.nil_append] at h₂
  exact ⟨hwaiting, h₂⟩

end Stage

end Variability.Build
