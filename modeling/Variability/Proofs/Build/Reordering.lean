import Variability.Proofs.Build.WellFormed
import Variability.Proofs.Document.Reordering
import Variability.Proofs.Lowering.Similar

/-!
The trees of documents that differ in order only.

The conditions under which a tree is built speak about each feature that is
reached by itself, and they stay as they are when siblings are put in another
order (`tree_succeeds_of_reordered`). The order decides the numbers of the nodes
and the order of their children, so the two trees are similar: nodes are related
if they stand for the same feature (`similar_of_reordered`).
-/

namespace Variability.Build

variable {d d' : Document} {σ : Fin d.count ≃ Fin d'.count} {m m' : FeatureModel}

/-! ## Features -/

/-- The values of a group stand for one range. -/
theorem Spans.unique {kind lower upper : Value} {r r' : Range} (h : Spans kind lower upper r)
    (h' : Spans kind lower upper r') : r = r' := by
  have hrange {r : Range} (h : Spans kind lower upper r) :
      groupRange none (⟨kind, lower, upper, []⟩ : Document.Group 0) = .ok r :=
    groupRange_eq_ok.mpr h
  exact Except.ok.inj ((hrange h).symm.trans (hrange h'))

/-- A feature has one cardinality. -/
theorem Selects.unique {i : Fin d.count} {r r' : Range} (h : Selects d i r)
    (h' : Selects d i r') : r = r' := by
  have hr := featureCardinality_eq_ok.mpr h
  rw [featureCardinality_eq_ok.mpr h'] at hr
  exact (Except.ok.inj hr).symm

section
variable (h : d.Reordered d' σ) (hd : d.ParentsUnique)
include h hd

theorem hasKind_mono {i : Fin d.count} (hi : d.Reached i) {k : GroupKind} (hk : HasKind d i k) :
    HasKind d' (σ i) k := by
  obtain ⟨g, hg, hkind⟩ := Option.map_eq_some_iff.mp hk
  obtain ⟨g', hg', he⟩ := h.parentGroup? hd hi hg
  rw [HasKind, hg', Option.map_some, he, hkind]

theorem hasKind_of_reordered {i : Fin d.count} (hi : d.Reached i) {k : GroupKind} :
    HasKind d' (σ i) k ↔ HasKind d i k := by
  refine ⟨fun hk => ?_, hasKind_mono h hd hi⟩
  have hback := hasKind_mono h.symm (h.parentsUnique hd) (h.reached hi) hk
  rwa [Equiv.symm_apply_apply] at hback

/-- The cardinality of a feature does not depend on the order. -/
theorem selects_of_reordered {i : Fin d.count} (hi : d.Reached i) {r : Range}
    (hr : Selects d i r) : Selects d' (σ i) r := by
  have hkind {k : GroupKind} := hasKind_of_reordered h hd hi (k := k)
  cases hr with
  | mandatory hk => exact .mandatory (hkind.mpr hk)
  | optional hk => exact .optional (hkind.mpr hk)
  | bounds hm ho hb =>
    refine .bounds (mt hkind.mp hm) (mt hkind.mp ho) ?_
    rw [(h.feature i).lower, (h.feature i).upper]
    exact hb

theorem checked_of_reordered {i : Fin d.count} (hi : d.Reached i)
    {τ : Option String × String → ValueType} (hc : Checked d τ i) : Checked d' τ (σ i) where
  sound := by
    obtain ⟨⟨hbuiltIn, hpresent, htype⟩, hdeclares⟩ := hc.sound
    rw [← (h.feature i).attributes] at hpresent htype
    rw [← (h.feature i).type] at hdeclares
    exact ⟨⟨hbuiltIn, hpresent, htype⟩, hdeclares⟩
  selects := by
    obtain ⟨r, hr⟩ := hc.selects
    exact ⟨r, selects_of_reordered h hd hi hr⟩
  spans := by
    intro g' hg'
    obtain ⟨g, hg, hr⟩ := (h.feature i).groups.symm.exists_group hg'
    rw [← hr.kind, ← hr.lower, ← hr.upper]
    exact hc.spans g hg

/-- A tree is built from the second document if one is built from the first one. -/
theorem tree_succeeds_of_reordered {root : Nat} (hrun : tree d {} = .ok root m) :
    ∃ root' m', tree d' {} = .ok root' m' := by
  obtain ⟨-, t, built, ranged, hlabel, hunfolds, hs, hp⟩ := tree_completes hrun
  have hdistinct := (Document.nodup_order_iff hunfolds).mp hs.nodup_names
  rw [hlabel] at hdistinct
  obtain ⟨τ, hchecked⟩ : ∃ τ, ∀ i, d.Reached i → Checked d τ i := by
    refine ⟨_, fun i hi => hs.checked hp ?_⟩
    rw [Document.mem_order_iff hunfolds, hlabel]
    exact hi
  have hchecked' : ∀ i', d'.Reached i' → Checked d' τ i' := by
    intro i' hi'
    have hi : d.Reached (σ.symm i') := h.symm.reached hi'
    have hcounterpart := checked_of_reordered h hd hi (hchecked _ hi)
    rwa [Equiv.apply_symm_apply] at hcounterpart
  exact tree_succeeds (h.distinctFrom hdistinct) hchecked'

end

/-! ## Nodes -/

section
variable {order : List (Fin d.count)} {gs : List (Document.Group d.count)} {groups : List Group}

/-- The children of a node stand for members of groups of its feature. -/
theorem GroupsCorrespond.exists_member (h : GroupsCorrespond order gs groups) {c : Nat}
    (hc : c ∈ groups.flatMap Group.children) :
    ∃ j ∈ gs.flatMap Document.Group.members, order[c]? = some j := by
  obtain ⟨g', hg', hc⟩ := List.mem_flatMap.mp hc
  obtain ⟨k, hk⟩ := List.mem_iff_getElem?.mp hg'
  cases k with
  | zero =>
    obtain rfl := Option.some.inj (hk.symm.trans h.first)
    cases hc
  | succ k =>
    have hlt : k < gs.length := by
      have hlt := (List.getElem?_eq_some_iff.mp hk).1
      rw [h.length_eq] at hlt
      omega
    obtain ⟨g'', hg'', hgroup⟩ := h.later k gs[k] (List.getElem?_eq_getElem hlt)
    obtain rfl := Option.some.inj (hk.symm.trans hg'')
    have hmem : order[c]? ∈ gs[k].members.map some := hgroup.children ▸ List.mem_map_of_mem hc
    obtain ⟨j, hj, he⟩ := List.mem_map.mp hmem
    exact ⟨j, List.mem_flatMap.mpr ⟨_, List.getElem_mem hlt, hj⟩, he.symm⟩

/-- Every member of a group of a feature has its node among the children. -/
theorem GroupsCorrespond.exists_child (h : GroupsCorrespond order gs groups) {j : Fin d.count}
    (hj : j ∈ gs.flatMap Document.Group.members) :
    ∃ c ∈ groups.flatMap Group.children, order[c]? = some j := by
  obtain ⟨g, hg, hj⟩ := List.mem_flatMap.mp hj
  obtain ⟨k, hk⟩ := List.mem_iff_getElem?.mp hg
  obtain ⟨g', hg', hgroup⟩ := h.later k g hk
  have hmem : some j ∈ g'.children.map (order[·]?) := hgroup.children ▸ List.mem_map_of_mem hj
  obtain ⟨c, hc, he⟩ := List.mem_map.mp hmem
  exact ⟨c, List.mem_flatMap.mpr ⟨g', List.mem_of_getElem? hg', hc⟩, he⟩

/-- The last group of a node stands for the last group of its feature, if it has one. -/
theorem GroupsCorrespond.getLast? (h : GroupsCorrespond order gs groups) :
    (gs.getLast? = none ∧ groups.getLast? = some FeatureModel.firstGroup) ∨
      ∃ g g', gs.getLast? = some g ∧ groups.getLast? = some g' ∧
        Spans g.kind g.lower g.upper g'.range := by
  have hlast : groups.getLast? = groups[gs.length]? := by
    rw [List.getLast?_eq_getElem?, h.length_eq, Nat.add_sub_cancel]
  rw [hlast]
  cases hg : gs.getLast? with
  | none =>
    rw [List.getLast?_eq_none_iff.mp hg]
    exact Or.inl ⟨rfl, h.first⟩
  | some g =>
    obtain ⟨front, rfl⟩ := List.getLast?_eq_some_iff.mp hg
    obtain ⟨g', hg', hgroup⟩ := h.later front.length g List.getElem?_concat_length
    rw [List.length_append, List.length_singleton]
    exact Or.inr ⟨g, g', rfl, hg', hgroup.spans⟩

/-- The type of the last group does not depend on the order of the others. -/
theorem lastType?_eq {order' : List (Fin d'.count)} {gs' : List (Document.Group d'.count)}
    (hgs : Document.GroupsReordered σ gs gs') {n n' : Node}
    (hn : GroupsCorrespond order gs n.groups) (hn' : GroupsCorrespond order' gs' n'.groups) :
    n'.lastType? = n.lastType? := by
  have hlast := hgs.getLast?
  rw [Node.lastType?, Node.lastType?]
  rcases hn.getLast? with ⟨hnone, hfirst⟩ | ⟨g, r, hg, hr, hspans⟩
  · rcases hn'.getLast? with ⟨-, hfirst'⟩ | ⟨g', r', hg', -, -⟩
    · rw [hfirst, hfirst']
    · rw [hnone, hg'] at hlast
      cases hlast
  · rcases hn'.getLast? with ⟨hnone', -⟩ | ⟨g', r', hg', hr', hspans'⟩
    · rw [hg, hnone'] at hlast
      cases hlast
    · rw [hg, hg'] at hlast
      cases hlast with
      | some hgroup =>
        rw [hgroup.kind, hgroup.lower, hgroup.upper] at hspans'
        rw [hr, hr', Option.map_some, Option.map_some, Group.type, Group.type,
          hspans'.unique hspans]

end

/-- The nodes stand for the features that are reached, the root first, each of them once. -/
structure Ordered (d : Document) (order : List (Fin d.count)) (m : FeatureModel) : Prop where
  first : order[0]? = some d.root
  nodup : order.Nodup
  mem_iff : ∀ i, i ∈ order ↔ d.Reached i
  corresponds : Corresponds d order m

theorem exists_ordered {root : Nat} (hrun : tree d {} = .ok root m) :
    ∃ order, Ordered d order m := by
  obtain ⟨-, t, built, ranged, hlabel, hunfolds, h, hp⟩ := tree_completes hrun
  refine ⟨t.order, congrArg some hlabel, h.nodup_order, fun i => ?_, corresponds_of_stage h hp⟩
  rw [Document.mem_order_iff hunfolds, hlabel]
  rfl

/-- Two nodes stand for a feature and its counterpart. -/
def Paired (σ : Fin d.count ≃ Fin d'.count) (order : List (Fin d.count))
    (order' : List (Fin d'.count)) (k k' : Nat) : Prop :=
  ∃ i, order[k]? = some i ∧ order'[k']? = some (σ i)

section
variable (h : d.Reordered d' σ) (hd : d.ParentsUnique) {order : List (Fin d.count)}
  {order' : List (Fin d'.count)} (ho : Ordered d order m) (ho' : Ordered d' order' m')
include h hd ho ho'

/-- Nodes that stand for the same feature are alike. -/
theorem alike_of_paired {k k' : Nat} (hk : Paired σ order order' k k') :
    ∃ n n', m.nodes[k]? = some n ∧ m'.nodes[k']? = some n' ∧
      Lowering.Alike (Paired σ order order') n n' := by
  obtain ⟨i, hi, hi'⟩ := hk
  obtain ⟨n, hn, hfeature, hselects, hgroups⟩ := ho.corresponds.node k i hi
  obtain ⟨n', hn', hfeature', hselects', hgroups'⟩ := ho'.corresponds.node k' (σ i) hi'
  have hreached : d.Reached i := (ho.mem_iff i).mp (List.mem_of_getElem? hi)
  refine ⟨n, n', hn, hn', ?_⟩
  constructor
  case name => rw [Node.name, Node.name, hfeature, hfeature', h.nameOf_eq]
  case cardinality => exact hselects'.unique (selects_of_reordered h hd hreached hselects)
  case lastType => exact lastType?_eq (h.feature i).groups hgroups hgroups'
  case forth =>
    intro c hc
    obtain ⟨j, hj, hcj⟩ := hgroups.exists_member hc
    obtain ⟨c', hc', hcj'⟩ := hgroups'.exists_child (h.mem_childrenOf.mpr hj)
    exact ⟨c', hc', j, hcj, hcj'⟩
  case back =>
    intro c' hc'
    obtain ⟨j', hj', hcj'⟩ := hgroups'.exists_member hc'
    rw [← σ.apply_symm_apply j'] at hj' hcj'
    obtain ⟨c, hc, hcj⟩ := hgroups.exists_child (h.mem_childrenOf.mp hj')
    exact ⟨c, hc, _, hcj, hcj'⟩

/-- The trees that are built are similar. -/
theorem similar_of_reordered : Lowering.Similar m m' (Paired σ order order') 0 0 where
  start := ⟨d.root, ho.first, h.root ▸ ho'.first⟩
  node := fun k k' hk => alike_of_paired h hd ho ho' hk
  top := by
    rintro k k' ⟨i, hi, hi'⟩
    have hlt := (List.getElem?_eq_some_iff.mp hi).1
    have hlt' := (List.getElem?_eq_some_iff.mp hi').1
    constructor
    · rintro rfl
      have hroot : σ i = σ d.root := Option.some.inj (hi'.symm.trans (h.root ▸ ho'.first))
      rw [σ.injective hroot, ← ho.first] at hi
      exact (List.getElem?_inj hlt ho.nodup).mp hi
    · rintro rfl
      obtain rfl := Option.some.inj (hi.symm.trans ho.first)
      rw [← h.root, ← ho'.first] at hi'
      exact (List.getElem?_inj hlt' ho'.nodup).mp hi'

end

theorem hasFeature_mono (h : d.Reordered d' σ) {order : List (Fin d.count)}
    {order' : List (Fin d'.count)} (ho : Ordered d order m) (ho' : Ordered d' order' m')
    {name : String} (hname : m.hasFeature name = true) : m'.hasFeature name = true := by
  rw [FeatureModel.hasFeature, Table.contains_iff, ho.corresponds.keys] at hname
  rw [FeatureModel.hasFeature, Table.contains_iff, ho'.corresponds.keys]
  obtain ⟨i, hi, he⟩ := List.mem_map.mp hname
  refine List.mem_map.mpr ⟨σ i, (ho'.mem_iff _).mpr (h.reached ((ho.mem_iff i).mp hi)), ?_⟩
  rw [h.nameOf_eq, he]

/-- The features have the same names. -/
theorem hasFeature_of_reordered (h : d.Reordered d' σ) {order : List (Fin d.count)}
    {order' : List (Fin d'.count)} (ho : Ordered d order m) (ho' : Ordered d' order' m') :
    m'.hasFeature = m.hasFeature :=
  funext fun _ => Bool.eq_iff_iff.mpr ⟨hasFeature_mono h.symm ho' ho, hasFeature_mono h ho ho'⟩

end Variability.Build
