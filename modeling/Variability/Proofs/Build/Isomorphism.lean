import Variability.Proofs.Build.Stage

/-!
The tree that is built from a document.

The features that wait are the roots of trees that are still to be built: a
feature is taken from the list, its children are created and wait in front of
the others, the last one first. So the nodes are created in the order in which
a stack meets the features (`Tree.order`). There are as many rounds as features,
which is enough because no feature is built twice: all names are different.

What is proved (`tree_corresponds`): if a tree is built, the paths from the root
of the document form a tree, and the nodes correspond to it, each with the name,
the type, the cardinality and the groups of its feature.
-/

namespace Variability.Build

open Edit

variable {d : Document} {m m' : FeatureModel} {order : List (Fin d.count)}
  {built : Nat → List (Document.Group d.count)} {ranged : Nat → Prop}

/-! ## Features that wait -/

theorem map_node_waitingFrom {n : Nat} (start : Nat) (is : List (Fin n)) :
    (waitingFrom start is).map Waiting.node = List.range' start is.length := by
  induction is generalizing start with
  | nil => rfl
  | cons i is ih => rw [waitingFrom, List.map_cons, ih, List.length_cons, List.range'_succ]

theorem map_feature_waitingFrom {n : Nat} (start : Nat) (is : List (Fin n)) :
    (waitingFrom start is).map Waiting.feature = is := by
  induction is generalizing start with
  | nil => rfl
  | cons i is ih => rw [waitingFrom, List.map_cons, ih]

theorem getElem?_of_mem_waitingFrom {n : Nat} {os is : List (Fin n)} {w : Waiting n}
    (hw : w ∈ waitingFrom os.length is) :
    os.length ≤ w.node ∧ (os ++ is)[w.node]? = some w.feature := by
  induction is generalizing os with
  | nil => cases hw
  | cons i is ih =>
    rcases List.mem_cons.mp hw with rfl | hw
    · exact ⟨Nat.le_refl _, by rw [List.getElem?_append_right (Nat.le_refl _), Nat.sub_self]; rfl⟩
    · have hlater : w ∈ waitingFrom (os ++ [i]).length is := by
        rw [List.length_append]
        exact hw
      obtain ⟨hle, hget⟩ := ih hlater
      rw [List.length_append, List.length_singleton] at hle
      rw [List.append_assoc, List.singleton_append] at hget
      exact ⟨Nat.le_of_succ_le hle, hget⟩

theorem length_waitingFrom {n : Nat} (start : Nat) (is : List (Fin n)) :
    (waitingFrom start is).length = is.length := by
  rw [← List.length_map Waiting.feature, map_feature_waitingFrom]

/-- Just the nodes on the list wait for their groups and their cardinality. -/
structure Pending (d : Document) (order : List (Fin d.count)) (waiting : List (Waiting d.count))
    (built : Nat → List (Document.Group d.count)) (ranged : Nat → Prop) : Prop where
  waits : ∀ w ∈ waiting, order[w.node]? = some w.feature ∧ built w.node = []
  nodup : (waiting.map Waiting.node).Nodup
  done : ∀ k i, order[k]? = some i → k ∉ waiting.map Waiting.node →
    built k = (d.feature i).groups ∧ ranged k

theorem Pending.complete {w : Waiting d.count} {waiting : List (Waiting d.count)}
    (h : Pending d order (w :: waiting) built ranged)
    (hfresh : ∀ k, order.length ≤ k → built k = []) :
    Pending d (order ++ d.childrenOf w.feature)
      ((waitingFrom order.length (d.childrenOf w.feature)).reverse ++ waiting)
      (Function.update built w.node (d.feature w.feature).groups)
      (fun x => x = w.node ∨ ranged x) := by
  obtain ⟨⟨hw, -⟩, hwaits⟩ := List.forall_mem_cons.mp h.waits
  obtain ⟨hother, hnodup⟩ := List.nodup_cons.mp h.nodup
  have hlt : w.node < order.length := (List.getElem?_eq_some_iff.mp hw).1
  refine { waits := ?waits, nodup := ?nodup, done := ?done }
  case waits =>
    intro w' hw'
    rcases List.mem_append.mp hw' with hw' | hw'
    · obtain ⟨hle, hget⟩ := getElem?_of_mem_waitingFrom (List.mem_reverse.mp hw')
      rw [Function.update_of_ne (by omega)]
      exact ⟨hget, hfresh _ hle⟩
    · obtain ⟨hget, hempty⟩ := hwaits w' hw'
      have hne : w'.node ≠ w.node := fun he => hother (he ▸ List.mem_map_of_mem hw')
      rw [List.getElem?_append_left (List.getElem?_eq_some_iff.mp hget).1,
        Function.update_of_ne hne]
      exact ⟨hget, hempty⟩
  case nodup =>
    rw [List.map_append, List.map_reverse, map_node_waitingFrom, List.nodup_append]
    refine ⟨List.nodup_reverse.mpr List.nodup_range', hnodup, ?_⟩
    intro k hk k' hk'
    have hle := (List.mem_range'_1.mp (List.mem_reverse.mp hk)).1
    obtain ⟨w', hw', rfl⟩ := List.mem_map.mp hk'
    have hlt' := (List.getElem?_eq_some_iff.mp (hwaits w' hw').1).1
    omega
  case done =>
    intro k i hi hk
    rw [List.map_append, List.mem_append, not_or, List.map_reverse, List.mem_reverse,
      map_node_waitingFrom, List.mem_range'_1] at hk
    obtain ⟨hnew, hold⟩ := hk
    -- A node that does not wait any more was there before.
    have hk : k < order.length := by
      have hlt' := (List.getElem?_eq_some_iff.mp hi).1
      rw [List.length_append] at hlt'
      omega
    rw [List.getElem?_append_left hk] at hi
    by_cases hkw : k = w.node
    · subst hkw
      obtain rfl := Option.some.inj (hi.symm.trans hw)
      rw [Function.update_self]
      exact ⟨rfl, Or.inl rfl⟩
    · obtain ⟨hgroups, hranged⟩ := h.done k i hi (by
        rw [List.map_cons, List.mem_cons, not_or]
        exact ⟨hkw, hold⟩)
      rw [Function.update_of_ne hkw]
      exact ⟨hgroups, Or.inr hranged⟩

/-! ## All rounds -/

/-- No feature is built twice, so there are at most as many nodes as features. -/
theorem Stage.nodup_order (h : Stage d order built ranged m) : order.Nodup :=
  List.Nodup.of_map _ h.nodup_names

theorem Stage.length_le (h : Stage d order built ranged m) : order.length ≤ d.count := by
  have hle := h.nodup_order.length_le_card
  rwa [Fintype.card_fin] at hle

/-- The model is that of a stage in which the trees of the features that wait are built too, and no
feature waits any more. -/
def Completes (d : Document) (order : List (Fin d.count)) (waiting : List (Waiting d.count))
    (m : FeatureModel) : Prop :=
  ∃ ts : List (Tree (Fin d.count)), ts.map Tree.label = waiting.map Waiting.feature ∧
    (∀ t ∈ ts, d.Unfolds t) ∧ ∃ built ranged,
      Stage d (order ++ ts.flatMap Tree.expand) built ranged m ∧
      Pending d (order ++ ts.flatMap Tree.expand) [] built ranged

theorem completes_nil (h : Stage d order built ranged m) (hp : Pending d order [] built ranged) :
    Completes d order [] m := by
  rw [← List.append_nil order] at h hp
  exact ⟨[], rfl, (fun _ ht => nomatch ht), built, ranged, h, hp⟩

/-- The tree of a feature is put together from the trees of its children. -/
theorem completes_cons {w : Waiting d.count} {waiting : List (Waiting d.count)}
    (h : Completes d (order ++ d.childrenOf w.feature)
      ((waitingFrom order.length (d.childrenOf w.feature)).reverse ++ waiting) m) :
    Completes d order (w :: waiting) m := by
  obtain ⟨ts, hlabels, hunfolds, built, ranged, hstage, hpending⟩ := h
  rw [List.map_append, List.map_reverse, map_feature_waitingFrom] at hlabels
  obtain ⟨us, hus, hunfolds', hexpand⟩ := Document.exists_forest_cons hlabels hunfolds
  have horder : order ++ us.flatMap Tree.expand =
      order ++ d.childrenOf w.feature ++ ts.flatMap Tree.expand := by
    rw [hexpand, List.append_assoc]
  refine ⟨us, hus, hunfolds', built, ranged, ?_, ?_⟩
  · rw [horder]
    exact hstage
  · rw [horder]
    exact hpending

/-- The rounds build the trees of the features that wait. -/
theorem completeAll_completes (h : Stage d order built ranged m) {waiting : List (Waiting d.count)}
    (hp : Pending d order waiting built ranged) {rounds : Nat}
    (hcount : order.length + rounds = d.count + waiting.length) {u : Unit}
    (hrun : completeAll d rounds waiting m = .ok u m') : Completes d order waiting m' := by
  induction rounds generalizing order built ranged waiting m with
  | zero =>
    have hnone : waiting = [] := by
      have hle := h.length_le
      exact List.eq_nil_of_length_eq_zero (by omega)
    subst hnone
    obtain ⟨-, rfl⟩ := pure_eq_ok.mp hrun
    exact completes_nil h hp
  | succ rounds ih =>
    cases waiting with
    | nil =>
      obtain ⟨-, rfl⟩ := pure_eq_ok.mp hrun
      exact completes_nil h hp
    | cons w waiting =>
      obtain ⟨waiting₁, m₁, hcomplete, hrun⟩ := bind_eq_ok.mp hrun
      obtain ⟨hw, hempty⟩ := hp.waits w List.mem_cons_self
      obtain ⟨rfl, h₁⟩ := h.complete hw hempty hcomplete
      have hp₁ := hp.complete (fun k hk => (h.fresh k hk).1)
      refine completes_cons (ih h₁ hp₁ ?_ hrun)
      rw [List.length_append, List.length_append, List.length_reverse, length_waitingFrom]
      rw [List.length_cons] at hcount
      omega

/-! ## The whole tree -/

theorem tree_iff {root : Nat} :
    tree d m = .ok root m' ↔
      ∃ name m₁, addFeature (d.feature d.root) m = .ok name m₁ ∧
        ∃ i m₂, FeatureModel.addRoot (.registered name) m₁ = .ok i m₂ ∧
        ∃ u, completeAll d d.count [⟨d.root, i⟩] m₂ = .ok u m' ∧ i = root := by
  rw [tree, bind_eq_ok]
  refine exists₂_congr fun name m₁ => and_congr_right fun _ => ?_
  rw [onModel_bind_eq_ok]
  refine exists₂_congr fun i m₂ => and_congr_right fun _ => ?_
  rw [bind_eq_ok]
  constructor
  · rintro ⟨u, m₃, hrun, hpure⟩
    obtain ⟨hroot, rfl⟩ := pure_eq_ok.mp hpure
    exact ⟨u, hrun, hroot⟩
  · rintro ⟨u, hrun, hroot⟩
    exact ⟨u, m', hrun, pure_eq_ok.mpr ⟨hroot, rfl⟩⟩

/-- The root is built as the first feature, without groups. -/
theorem stage_root {name : Option String} {m₁ m₂ : FeatureModel}
    (hfeature : addFeature (d.feature d.root) {} = .ok name m₁)
    {root : Nat} (hadd : FeatureModel.addRoot (.registered name) m₁ = .ok root m₂) :
    root = 0 ∧ Stage d [d.root] (fun _ => []) (fun _ => False) m₂ := by
  have hbuiltIns : (FeatureModel.registry {}).HasBuiltIns := AttributeRegistry.hasBuiltIns_builtIn
  obtain ⟨rfl, hr⟩ := addFeature_eq_ok FeatureModel.named_empty hfeature
  obtain ⟨hentered, hdescribed⟩ := addFeature_typed FeatureModel.named_empty hbuiltIns hfeature
  have hgrown := grown_of_registered .empty rfl rfl hr (FeatureModel.change_addRoot hadd)
    (FeatureModel.features_addRoot hadd)
  obtain ⟨hsize, hfeatures, hgroups, hnext, -⟩ := Stage.views_of_registered hr
  replace hsize : m₁.size = 0 := hsize
  obtain ⟨-, rfl, rfl⟩ := FeatureModel.addRoot_iff.mp hadd
  refine ⟨hsize, {
    grown := hgrown
    features := ?features
    groups := ?groups
    next := ?next
    cardinality := fun _ _ _ hranged => hranged.elim
    fresh := fun _ _ => ⟨rfl, id⟩
    described := List.forall_mem_singleton.mpr (hdescribed.congr rfl rfl)
    builtIns := hbuiltIns.mono hentered.registry }⟩
  case features =>
    refine (FeatureModel.nodeFeatures_pushNode ..).trans ?_
    rw [hfeatures]
    rfl
  case groups =>
    intro k hk
    obtain rfl : k = 0 := Nat.lt_one_iff.mp hk
    have hfirst := (FeatureModel.groupsOf_pushNode m₁
      { feature := .registered (d.nameOf d.root), index := m₁.size, parent := none } 0).trans
        (if_pos hsize.symm)
    exact hfirst ▸ groupsCorrespond_nil
  case next =>
    intro k hk
    obtain rfl : k = 0 := Nat.lt_one_iff.mp hk
    exact (FeatureModel.nextGroupOf_pushNode ..).trans (if_pos hsize.symm)

theorem pending_root : Pending d [d.root] [⟨d.root, 0⟩] (fun _ => []) (fun _ => False) := by
  refine ⟨List.forall_mem_singleton.mpr ⟨rfl, rfl⟩, List.nodup_singleton 0, fun k i hi hk => ?_⟩
  have hlt := (List.getElem?_eq_some_iff.mp hi).1
  obtain rfl : k = 0 := Nat.lt_one_iff.mp hlt
  exact absurd List.mem_cons_self hk

/-- If a tree is built, it is that of the root of the document, and it is built to its end. -/
theorem tree_completes {root : Nat} (hrun : tree d {} = .ok root m) :
    root = 0 ∧ ∃ t built ranged, t.label = d.root ∧ d.Unfolds t ∧
      Stage d t.order built ranged m ∧ Pending d t.order [] built ranged := by
  obtain ⟨name, m₁, hfeature, _, m₂, hadd, u, hrounds, rfl⟩ := tree_iff.mp hrun
  obtain ⟨rfl, h⟩ := stage_root hfeature hadd
  have hcount : [d.root].length + d.count =
      d.count + [(⟨d.root, 0⟩ : Waiting d.count)].length := by
    rw [List.length_singleton, List.length_singleton, Nat.add_comm]
  obtain ⟨ts, hlabels, hunfolds, built, ranged, hstage, hpending⟩ :=
    completeAll_completes h pending_root hcount hrounds
  obtain ⟨t, rfl, hlabel⟩ := List.map_eq_singleton_iff.mp hlabels
  replace hlabel : t.label = d.root := hlabel
  rw [← hlabel, Tree.append_expand_singleton] at hstage hpending
  exact ⟨rfl, t, built, ranged, hlabel, hunfolds t (List.mem_singleton_self t), hstage, hpending⟩

/-- The nodes stand for the features in `order`, in that order: they have their names, types,
cardinalities and groups. -/
structure Corresponds (d : Document) (order : List (Fin d.count)) (m : FeatureModel) : Prop where
  names : m.nodeNames = order.map d.nameOf
  keys : m.features.keys = order.map d.nameOf
  node : ∀ (k : Nat) i, order[k]? = some i → ∃ n : Node, m.nodes[k]? = some n ∧
    n.feature = .registered (d.nameOf i) ∧ Selects d i n.cardinality ∧
    GroupsCorrespond order (d.feature i).groups n.groups
  feature : ∀ i ∈ order, ∃ f, m.features.find? (d.nameOf i) = some f ∧ f.name = d.nameOf i ∧
    Declares (d.feature i).type f.type

theorem corresponds_of_stage (h : Stage d order built ranged m)
    (hp : Pending d order [] built ranged) : Corresponds d order m where
  names := by rw [← h.grown.keys, h.keys_eq]
  keys := h.keys_eq
  node := by
    intro k i hi
    have hk := (List.getElem?_eq_some_iff.mp hi).1
    obtain ⟨n, hn⟩ := h.exists_node hk
    obtain ⟨hgroups, hranged⟩ := hp.done k i hi List.not_mem_nil
    obtain ⟨r, hr, hselects⟩ := h.cardinality k i hi hranged
    rw [FeatureModel.cardinalityOf, hn, Option.map_some, Option.some.injEq] at hr
    have hmatch := h.groups k hk
    rw [hgroups, FeatureModel.groupsOf_of_getElem? hn] at hmatch
    refine ⟨n, hn, ?_, hr ▸ hselects, hmatch⟩
    have hfeature : m.nodeFeatures[k]? = some n.feature := by
      rw [FeatureModel.nodeFeatures, List.getElem?_map, Array.getElem?_toList, hn, Option.map_some]
    rw [h.features, List.getElem?_map, hi, Option.map_some] at hfeature
    exact (Option.some.inj hfeature).symm
  feature := fun i hi => (h.described i hi).declared

/-- If a tree is built from a document, the paths from the root of the document form a tree, whose
features have different names. The nodes of the model correspond to it in the order in which a stack
meets the features, no feature is left out, and none is built twice. -/
theorem tree_corresponds {root : Nat} (hrun : tree d {} = .ok root m) :
    root = 0 ∧ m.root = some 0 ∧ m.WellFormed ∧
    (∀ p q i, d.walk? d.root p = some i → d.walk? d.root q = some i → p = q) ∧
    ∃ t, t.label = d.root ∧ d.Unfolds t ∧ t.order.Nodup ∧ (∀ i, i ∈ t.order ↔ d.Reached i) ∧
      (t.order.map d.nameOf).Nodup ∧ Corresponds d t.order m := by
  obtain ⟨hroot, t, built, ranged, hlabel, hunfolds, h, hp⟩ := tree_completes hrun
  have hdistinct := (Document.nodup_order_iff hunfolds).mp h.nodup_names
  rw [hlabel] at hdistinct
  refine ⟨hroot, ?_, h.grown.wellFormed, ?_, t, hlabel, hunfolds, h.nodup_order, ?_, h.nodup_names,
    corresponds_of_stage h hp⟩
  · rw [h.grown.wellFormed.root_eq, if_neg (Nat.ne_of_gt h.grown.size_pos)]
  · exact fun p q i hp hq => hdistinct p q i i hp hq rfl
  · intro i
    rw [Document.mem_order_iff hunfolds, hlabel]
    rfl

/-- A document whose root has two children in two groups, each with a child of its own. -/
def sample : Document where
  count := 5
  features := #v[
    { name := some "R", groups := [
      { kind := .text "mandatory", members := [1] },
      { kind := .text "optional", members := [2] }] },
    { name := some "A", groups := [{ kind := .text "or", members := [3] }] },
    { name := some "B", groups := [{ kind := .text "alternative", members := [4] }] },
    { name := some "C" },
    { name := some "D" }]
  root := 0

/-- What is below the last child is created first. -/
theorem tree_corresponds_sample :
    ∃ m t, tree sample {} = .ok 0 m ∧ t.label = sample.root ∧ sample.Unfolds t ∧
      Corresponds sample t.order m ∧
      m.nodeNames = [some "R", some "A", some "B", some "D", some "C"] := by
  have hnames : (match tree sample {} with | .ok _ m => m.nodeNames | .error _ _ => []) =
      [some "R", some "A", some "B", some "D", some "C"] := by decide +kernel
  cases hrun : tree sample {} with
  | error e m =>
    rw [hrun] at hnames
    cases hnames
  | ok root m =>
    rw [hrun] at hnames
    obtain ⟨rfl, -, -, -, t, hlabel, hunfolds, -, -, -, hnodes⟩ := tree_corresponds hrun
    exact ⟨m, t, rfl, hlabel, hunfolds, hnodes, hnames⟩

end Variability.Build
