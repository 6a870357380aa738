import Variability.Proofs.Build.Isomorphism

/-!
Constructions that succeed.

Every part of the construction of a tree succeeds on a stage if the features that
it looks at are sound and the ones that it builds have new names, and the types
of the attributes stay those of one assignment (`Stage.complete_succeeds`). What
is left to be built stays so, hence the rounds succeed
(`completeAll_succeeds`) and with them the whole construction (`tree_succeeds`).
-/

namespace Variability.Build

open Edit

variable {d : Document} {m m' : FeatureModel} {order : List (Fin d.count)}
  {gs : List (Document.Group d.count)}

/-! ## Parts that succeed -/

namespace Stage

variable {built : Nat → List (Document.Group d.count)} {ranged : Nat → Prop}

/-- A node can be added to every group that there is. -/
theorem addBelow_succeeds {k id : Nat} {g : Group} (hg : g ∈ m.groupsOf k) (hid : g.id = id)
    (feature : FeatureRef) : ∃ child m', FeatureModel.addBelow k feature id m = .ok child m' := by
  obtain ⟨n, hn⟩ : ∃ n, m.nodes[k]? = some n :=
    ⟨_, Array.getElem?_eq_getElem (FeatureModel.lt_size_of_mem_groupsOf hg)⟩
  rw [FeatureModel.groupsOf_of_getElem? hn] at hg
  obtain ⟨g', hg'⟩ : ∃ g', n.group? id = some g' := by
    rw [← Option.isSome_iff_exists, Node.group?, List.find?_isSome]
    exact ⟨g, hg, decide_eq_true (congrArg Int.ofNat hid)⟩
  have hgroup : m.group k id = .ok g' := by
    refine FeatureModel.bind_eq_ok.mpr ⟨n, FeatureModel.node_eq_ok.mpr hn, ?_⟩
    rw [hg']
    rfl
  exact ⟨_, _, FeatureModel.addBelow_iff.mpr ⟨g', hgroup, rfl, rfl⟩⟩

/-- A node for a feature that has just been registered can be added to the last group of a node. -/
theorem exists_addBelow (h : Stage d order built ranged m) {k : Nat} (hk : k < order.length)
    {g : Document.Group d.count} (hbuilt : built k = gs ++ [g]) {m₁ : FeatureModel}
    {name : Option String} (hr : FeatureModel.Registered m m₁ name) (feature : FeatureRef) :
    ∃ child m₂, FeatureModel.addBelow k feature (gs.length + 1 : Nat) m₁ = .ok child m₂ := by
  obtain ⟨-, -, hgroups₁, -, -⟩ := views_of_registered hr
  have hgroups := h.groups k hk
  rw [hbuilt] at hgroups
  obtain ⟨g', hg', hgroup⟩ := hgroups.later gs.length g List.getElem?_concat_length
  rw [← hgroups₁] at hg'
  exact addBelow_succeeds (List.mem_of_getElem? hg') hgroup.id_eq feature

/-- A sound feature with a new name can be added to a group. -/
theorem addMember_succeeds (h : Stage d order built ranged m) {k : Nat} (hk : k < order.length)
    {g : Document.Group d.count} (hbuilt : built k = gs ++ [g]) {i : Fin d.count}
    {τ : Option String × String → ValueType} (hi : Sound τ (d.feature i))
    (hnew : d.nameOf i ∉ order.map d.nameOf)
    (hm : m.registry.Agrees τ) :
    ∃ w m', Build.addMember d k (gs.length + 1) i m = .ok w m' ∧ m'.registry.Agrees τ := by
  rw [← h.keys_eq] at hnew
  obtain ⟨name, m₁, hfeature, hm₁⟩ := addFeature_succeeds hi hnew hm
  obtain ⟨-, hr⟩ := addFeature_eq_ok h.grown.named hfeature
  obtain ⟨child, m₂, hadd⟩ := h.exists_addBelow hk hbuilt hr (.registered name)
  obtain ⟨-, -, -, -, -, -, hregistry⟩ := addBelow_views hadd
  exact ⟨_, m₂, bind_eq_ok.mpr ⟨name, m₁, hfeature, onModel_bind_eq_ok.mpr ⟨child, m₂, hadd, rfl⟩⟩,
    hregistry ▸ hm₁⟩

theorem addMembers_succeeds (h : Stage d order built ranged m) {k : Nat} (hk : k < order.length)
    {g : Document.Group d.count} (hbuilt : built k = gs ++ [g]) {members : List (Fin d.count)}
    {τ : Option String × String → ValueType} (hsound : ∀ i ∈ members, Sound τ (d.feature i))
    (hnodup : ((order ++ members).map d.nameOf).Nodup) (hm : m.registry.Agrees τ)
    (waiting : List (Waiting d.count)) :
    ∃ waiting' m', Build.addMembers d k (gs.length + 1) waiting members m = .ok waiting' m' ∧
      m'.registry.Agrees τ := by
  induction members generalizing order built g waiting m with
  | nil => exact ⟨waiting, m, rfl, hm⟩
  | cons i rest ih =>
    obtain ⟨hi, hrest⟩ := List.forall_mem_cons.mp hsound
    have hnew : d.nameOf i ∉ order.map d.nameOf := by
      rw [List.map_append, List.map_cons, List.nodup_middle, List.nodup_cons] at hnodup
      exact fun hmem => hnodup.1 (List.mem_append_left _ hmem)
    obtain ⟨w, m₁, hmember, hm₁⟩ := h.addMember_succeeds hk hbuilt hi hnew hm
    obtain ⟨-, h₁⟩ := h.addMember hk hbuilt hmember
    have hk₁ := lt_length_append hk [i]
    rw [← List.singleton_append, ← List.append_assoc] at hnodup
    obtain ⟨waiting', m', hmembers, hm'⟩ :=
      ih h₁ hk₁ (Function.update_self ..) hrest hnodup hm₁ (w :: waiting)
    exact ⟨waiting', m', bind_eq_ok.mpr ⟨w, m₁, hmember, hmembers⟩, hm'⟩

theorem node_succeeds (h : Stage d order built ranged m) {k : Nat} (hk : k < order.length) :
    ∃ n, m.node k = .ok n := by
  obtain ⟨n, hn⟩ := h.exists_node hk
  exact ⟨n, FeatureModel.node_eq_ok.mpr hn⟩

/-- Groups with ranges, whose members are sound and have new names, can be built. -/
theorem addGroups_succeeds (h : Stage d order built ranged m) {k : Nat} (hk : k < order.length)
    {rest : List (Document.Group d.count)} {τ : Option String × String → ValueType}
    (hspans : ∀ g ∈ rest, ∃ r, Spans g.kind g.lower g.upper r)
    (hsound : ∀ g ∈ rest, ∀ i ∈ g.members, Sound τ (d.feature i))
    (hnodup : ((order ++ rest.flatMap Document.Group.members).map d.nameOf).Nodup)
    (hm : m.registry.Agrees τ) (owner : Option String) (waiting : List (Waiting d.count)) :
    ∃ waiting' m', Build.addGroups d owner k waiting rest m = .ok waiting' m' ∧
      m'.registry.Agrees τ := by
  induction rest generalizing order built waiting m with
  | nil => exact ⟨waiting, m, rfl, hm⟩
  | cons g rest ih =>
    obtain ⟨⟨r, hr⟩, hspans⟩ := List.forall_mem_cons.mp hspans
    obtain ⟨hmembers, hsound⟩ := List.forall_mem_cons.mp hsound
    obtain ⟨n, hn⟩ := h.node_succeeds hk
    obtain ⟨g', m₁, hadd, hm₁⟩ :
        ∃ g' m₁, FeatureModel.addGroup k r m = .ok g' m₁ ∧ m₁.registry = m.registry :=
      ⟨_, _, FeatureModel.addGroup_iff.mpr ⟨n, hn, rfl, rfl⟩, rfl⟩
    obtain ⟨hid, h₁⟩ := h.addGroup hk hr hadd
    rw [List.flatMap_cons, ← List.append_assoc] at hnodup
    have hnodup₁ := hnodup.sublist ((List.sublist_append_left _ _).map _)
    obtain ⟨waiting₁, m₂, hrun, hm₂⟩ := h₁.addMembers_succeeds hk (Function.update_self ..)
      hmembers hnodup₁ (hm₁ ▸ hm) waiting
    obtain ⟨-, h₂⟩ := h₁.addMembers hk (Function.update_self ..) hrun
    have hk₂ := lt_length_append hk g.members
    obtain ⟨waiting', m', hrest, hm'⟩ := ih h₂ hk₂ hspans hsound hnodup hm₂ waiting₁
    refine ⟨waiting', m', addGroups_cons.mpr ⟨r, groupRange_eq_ok.mpr hr, g', m₁, hadd,
      waiting₁, m₂, ?_, hrest⟩, hm'⟩
    rw [hid]
    exact hrun

/-- A node can be completed if its feature has a cardinality, its groups have ranges, and its
children are sound and have new names. -/
theorem complete_succeeds (h : Stage d order built ranged m) {w : Waiting d.count}
    (hw : order[w.node]? = some w.feature) {τ : Option String × String → ValueType}
    (hselects : ∃ r, Selects d w.feature r)
    (hspans : ∀ g ∈ (d.feature w.feature).groups, ∃ r, Spans g.kind g.lower g.upper r)
    (hsound : ∀ i ∈ d.childrenOf w.feature, Sound τ (d.feature i))
    (hnodup : ((order ++ d.childrenOf w.feature).map d.nameOf).Nodup) (hm : m.registry.Agrees τ)
    (waiting : List (Waiting d.count)) :
    ∃ waiting' m', Build.complete d w waiting m = .ok waiting' m' ∧ m'.registry.Agrees τ := by
  have hk := (List.getElem?_eq_some_iff.mp hw).1
  obtain ⟨r, hr⟩ := hselects
  obtain ⟨n, hn⟩ := h.node_succeeds hk
  obtain ⟨m₁, hset, hm₁⟩ :
      ∃ m₁, FeatureModel.setCardinality w.node r m = .ok () m₁ ∧ m₁.registry = m.registry :=
    ⟨_, FeatureModel.setCardinality_iff.mpr ⟨⟨n, hn⟩, rfl⟩, rfl⟩
  have h₁ := h.setCardinality hw hr hset
  have hmembers : ∀ g ∈ (d.feature w.feature).groups, ∀ i ∈ g.members, Sound τ (d.feature i) :=
    fun g hg i hi => hsound i (List.mem_flatMap.mpr ⟨g, hg, hi⟩)
  obtain ⟨waiting', m', hrun, hm'⟩ := h₁.addGroups_succeeds hk hspans hmembers hnodup (hm₁ ▸ hm)
    (d.feature w.feature).name waiting
  exact ⟨waiting', m',
    complete_iff.mpr ⟨r, featureCardinality_eq_ok.mpr hr, (), m₁, hset, hrun⟩, hm'⟩

end Stage

/-- The features that wait after a round can be reached, as those before it can. -/
theorem reached_of_complete {w : Waiting d.count} {waiting : List (Waiting d.count)}
    (h : ∀ w' ∈ w :: waiting, d.Reached w'.feature) (start : Nat) :
    ∀ w' ∈ (waitingFrom start (d.childrenOf w.feature)).reverse ++ waiting,
      d.Reached w'.feature := by
  obtain ⟨hw, hothers⟩ := List.forall_mem_cons.mp h
  refine List.forall_mem_append.mpr ⟨fun w' hw' => hw.child ?_, hothers⟩
  rw [← map_feature_waitingFrom start (d.childrenOf w.feature)]
  exact List.mem_map_of_mem (List.mem_reverse.mp hw')

/-- What is looked at when a feature is built and completed is sound. -/
structure Checked (d : Document) (τ : Option String × String → ValueType) (i : Fin d.count) :
    Prop where
  sound : Sound τ (d.feature i)
  selects : ∃ r, Selects d i r
  spans : ∀ g ∈ (d.feature i).groups, ∃ r, Spans g.kind g.lower g.upper r

/-- The rounds succeed if what is below the features that wait is sound and has new names. -/
theorem completeAll_succeeds {built : Nat → List (Document.Group d.count)} {ranged : Nat → Prop}
    (h : Stage d order built ranged m) {waiting : List (Waiting d.count)}
    (hp : Pending d order waiting built ranged) {τ : Option String × String → ValueType}
    (hchecked : ∀ i, d.Reached i → Checked d τ i) (hreached : ∀ w ∈ waiting, d.Reached w.feature)
    {ts : List (Tree (Fin d.count))} (hunfolds : ∀ t ∈ ts, d.Unfolds t)
    (hlabels : ts.map Tree.label = waiting.map Waiting.feature)
    (hnodup : ((order ++ ts.flatMap Tree.expand).map d.nameOf).Nodup) (hm : m.registry.Agrees τ)
    (rounds : Nat) : ∃ u m', completeAll d rounds waiting m = .ok u m' := by
  induction rounds generalizing order built ranged waiting ts m with
  | zero => exact ⟨(), m, by cases waiting <;> rfl⟩
  | succ rounds ih =>
    cases waiting with
    | nil => exact ⟨(), m, rfl⟩
    | cons w waiting =>
      obtain ⟨t, ts, rfl, hlabel, hlater⟩ := List.map_eq_cons_iff.mp hlabels
      obtain ⟨ht, hts⟩ := List.forall_mem_cons.mp hunfolds
      have hw := hreached w List.mem_cons_self
      cases ht with
      | @node i cs hchildren hbelow =>
        obtain rfl : i = w.feature := hlabel
        obtain ⟨hget, hempty⟩ := hp.waits w List.mem_cons_self
        obtain ⟨-, hselects, hspans⟩ := hchecked _ hw
        -- The children are built next, and then wait in front of the others.
        rw [Tree.flatMap_expand_cons, hchildren, ← List.append_assoc] at hnodup
        have hfirst := hnodup.sublist ((List.sublist_append_left _ _).map _)
        obtain ⟨waiting₁, m₁, hcomplete, hm₁⟩ := h.complete_succeeds hget hselects hspans
          (fun i hi => (hchecked i (hw.child hi)).sound) hfirst hm waiting
        obtain ⟨rfl, h₁⟩ := h.complete hget hempty hcomplete
        have hp₁ := hp.complete (fun k hk => (h.fresh k hk).1)
        have hreached₁ := reached_of_complete hreached order.length
        have hunfolds₁ : ∀ t ∈ cs.reverse ++ ts, d.Unfolds t :=
          List.forall_mem_append.mpr ⟨fun t ht => hbelow t (List.mem_reverse.mp ht), hts⟩
        have hlabels₁ : (cs.reverse ++ ts).map Tree.label =
            ((waitingFrom order.length (d.childrenOf w.feature)).reverse ++ waiting).map
              Waiting.feature := by
          rw [List.map_append, List.map_append, List.map_reverse, List.map_reverse, hchildren,
            map_feature_waitingFrom, hlater]
        obtain ⟨u, m', hrun⟩ := ih h₁ hp₁ hreached₁ hunfolds₁ hlabels₁ hnodup hm₁
        exact ⟨u, m', bind_eq_ok.mpr ⟨_, m₁, hcomplete, hrun⟩⟩

/-- A tree is built if the features that are reached have different names and are sound. -/
theorem tree_succeeds {τ : Option String × String → ValueType}
    (hdistinct : Document.DistinctFrom d.nameOf d.root)
    (hchecked : ∀ i, d.Reached i → Checked d τ i) : ∃ root m, tree d {} = .ok root m := by
  have hsound := (hchecked d.root Document.reached_root).sound
  have hbuiltIn : (FeatureModel.registry {}).Agrees τ :=
    AttributeRegistry.agrees_builtIn hsound.typable.builtIn
  obtain ⟨name, m₁, hfeature, hm₁⟩ := addFeature_succeeds hsound List.not_mem_nil hbuiltIn
  obtain ⟨-, hr⟩ := addFeature_eq_ok FeatureModel.named_empty hfeature
  obtain ⟨root, m₂, hadd, hm₂⟩ :
      ∃ root m₂, FeatureModel.addRoot (.registered name) m₁ = .ok root m₂ ∧ m₂.registry.Agrees τ :=
    ⟨_, _, FeatureModel.addRoot_iff.mpr ⟨hr.root, rfl, rfl⟩, hm₁⟩
  obtain ⟨rfl, h⟩ := stage_root hfeature hadd
  obtain ⟨t, hlabel, hunfolds⟩ := Document.exists_unfolds hdistinct
  have hnodup : (([d.root] ++ [t].flatMap Tree.expand).map d.nameOf).Nodup := by
    rw [← hlabel, Tree.append_expand_singleton, Document.nodup_order_iff hunfolds, hlabel]
    exact hdistinct
  obtain ⟨u, m, hrun⟩ := completeAll_succeeds h pending_root hchecked
    (List.forall_mem_singleton.mpr Document.reached_root) (List.forall_mem_singleton.mpr hunfolds)
    (congrArg (fun i => [i]) hlabel) hnodup hm₂ d.count
  exact ⟨0, m, tree_iff.mpr ⟨name, m₁, hfeature, 0, m₂, hadd, u, hrun, rfl⟩⟩

end Variability.Build
