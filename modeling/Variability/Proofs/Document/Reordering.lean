import Mathlib.Data.List.Count
import Mathlib.Data.List.Perm.Basic
import Variability.Proofs.Document.Unfolding

/-!
Documents that differ in the order of siblings and constraints only.

The members of each group may come in another order, and so may the groups of
each feature, but for the last one, and the constraints. Features may also have
other numbers, as long as these are given out one to one (`Reordered`).

What is proved for two such documents:
  1. The features that are reached are the same ones (`Reordered.reached`), the
     paths from the root form the same tree up to the order of the children
     (`Reordered.exists_counterpart`), and different paths lead to different names in
     both or in neither (`Reordered.distinctFrom`).
  2. If every feature belongs to one group at most (`ParentsUnique`), that group has
     its counterpart in the other document (`Reordered.parentGroup?`).
-/

namespace Variability.Document

variable {n n' : Nat} {σ : Fin n ≃ Fin n'}

/-! ## Groups and features -/

/-- The second group has the kind and the bounds of the first one, and its members in some order. -/
structure Group.Reordered (σ : Fin n ≃ Fin n') (g : Group n) (g' : Group n') : Prop where
  kind : g'.kind = g.kind
  lower : g'.lower = g.lower
  upper : g'.upper = g.upper
  members : g'.members.Perm (g.members.map σ)

/-- The second list has the groups of the first one, the last of them at the end again. -/
inductive GroupsReordered (σ : Fin n ≃ Fin n') : List (Group n) → List (Group n') → Prop
  | nil : GroupsReordered σ [] []
  | concat {front : List (Group n)} {front' : List (Group n')} {g : Group n} {g' : Group n'}
      (others : Relation.Comp (List.Forall₂ (Group.Reordered σ)) List.Perm front front')
      (last : g.Reordered σ g') : GroupsReordered σ (front ++ [g]) (front' ++ [g'])

/-- The second feature differs from the first one in the order of groups and members only. -/
structure Feature.Reordered (σ : Fin n ≃ Fin n') (f : Feature n) (f' : Feature n') : Prop where
  name : f'.name = f.name
  scope : f'.scope = f.scope
  type : f'.type = f.type
  lower : f'.lower = f.lower
  upper : f'.upper = f.upper
  attributes : f'.attributes = f.attributes
  groups : GroupsReordered σ f.groups f'.groups

theorem map_symm_perm {xs : List (Fin n)} {ys : List (Fin n')} (h : ys.Perm (xs.map σ)) :
    xs.Perm (ys.map σ.symm) := by
  have hmap := (h.map σ.symm).symm
  rwa [List.map_map, Equiv.symm_comp_self, List.map_id] at hmap

theorem Group.Reordered.symm {g : Group n} {g' : Group n'} (h : g.Reordered σ g') :
    g'.Reordered σ.symm g :=
  ⟨h.kind.symm, h.lower.symm, h.upper.symm, map_symm_perm h.members⟩

theorem exists_of_forall₂ {α β : Type} {r : α → β → Prop} {xs : List α} {ys : List β}
    (h : List.Forall₂ r xs ys) {x : α} (hx : x ∈ xs) : ∃ y ∈ ys, r x y := by
  induction h with
  | nil => cases hx
  | cons hxy _ ih =>
    rcases List.mem_cons.mp hx with rfl | hx
    · exact ⟨_, List.mem_cons_self, hxy⟩
    · obtain ⟨y, hy, hr⟩ := ih hx
      exact ⟨y, List.mem_cons_of_mem _ hy, hr⟩

theorem exists_forall₂ {α β : Type} {r : α → β → Prop} {xs : List α} (h : ∀ x ∈ xs, ∃ y, r x y) :
    ∃ ys, List.Forall₂ r xs ys := by
  induction xs with
  | nil => exact ⟨[], .nil⟩
  | cons x xs ih =>
    obtain ⟨⟨y, hy⟩, hxs⟩ := List.forall_mem_cons.mp h
    obtain ⟨ys, hys⟩ := ih hxs
    exact ⟨y :: ys, .cons hy hys⟩

/-- A list whose image has been put in another order can be put in that order itself. -/
theorem exists_perm_map_eq {α β : Type} {f : α → β} {xs : List α} {ys : List β}
    (h : ys.Perm (xs.map f)) : ∃ zs : List α, zs.map f = ys ∧ zs.Perm xs := by
  have himage : List.Forall₂ (fun y x => y = f x) (xs.map f) xs := by
    rw [List.forall₂_map_left_iff]
    exact List.forall₂_same.mpr (fun _ _ => rfl)
  obtain ⟨zs, hzs, hperm⟩ := List.perm_comp_forall₂ h himage
  rw [← List.forall₂_map_right_iff, List.forall₂_eq_eq_eq] at hzs
  exact ⟨zs, hzs.symm, hperm⟩

namespace GroupsReordered

variable {gs : List (Group n)} {gs' : List (Group n')}

theorem symm (h : GroupsReordered σ gs gs') : GroupsReordered σ.symm gs' gs := by
  cases h with
  | nil => exact .nil
  | concat others last =>
    obtain ⟨mid, hmid, hperm⟩ := others
    have hback : List.Forall₂ (Group.Reordered σ.symm) mid _ :=
      (hmid.imp (fun _ _ h => h.symm)).flip
    exact .concat (List.perm_comp_forall₂ hperm.symm hback) last.symm

/-- Every group has its counterpart. -/
theorem exists_group (h : GroupsReordered σ gs gs') {g : Group n} (hg : g ∈ gs) :
    ∃ g' ∈ gs', g.Reordered σ g' := by
  cases h with
  | nil => cases hg
  | concat others last =>
    obtain ⟨mid, hmid, hperm⟩ := others
    rcases List.mem_append.mp hg with hg | hg
    · obtain ⟨g', hg', hr⟩ := exists_of_forall₂ hmid hg
      exact ⟨g', List.mem_append_left _ (hperm.mem_iff.mp hg'), hr⟩
    · obtain rfl := List.mem_singleton.mp hg
      exact ⟨_, List.mem_append_right _ (List.mem_singleton_self _), last⟩

/-- The last group of the one list is the counterpart of that of the other one. -/
theorem getLast? (h : GroupsReordered σ gs gs') :
    Option.Rel (Group.Reordered σ) gs.getLast? gs'.getLast? := by
  cases h with
  | nil => exact .none
  | concat others last =>
    rw [List.getLast?_concat, List.getLast?_concat]
    exact .some last

theorem members_perm (h : GroupsReordered σ gs gs') :
    (gs'.flatMap Group.members).Perm ((gs.flatMap Group.members).map σ) := by
  cases h with
  | nil => exact .refl _
  | concat others last =>
    obtain ⟨mid, hmid, hperm⟩ := others
    have hfront : ∀ {gs : List (Group n)} {mid : List (Group n')},
        List.Forall₂ (Group.Reordered σ) gs mid →
        (mid.flatMap Group.members).Perm ((gs.flatMap Group.members).map σ) := by
      intro gs mid hmid
      induction hmid with
      | nil => exact .refl _
      | cons hg _ ih =>
        rw [List.flatMap_cons, List.flatMap_cons, List.map_append]
        exact hg.members.append ih
    rw [List.flatMap_append, List.flatMap_append, List.map_append, List.flatMap_singleton,
      List.flatMap_singleton]
    exact ((hperm.symm.flatMap_right _).trans (hfront hmid)).append last.members

end GroupsReordered

theorem Feature.Reordered.symm {f : Feature n} {f' : Feature n'} (h : f.Reordered σ f') :
    f'.Reordered σ.symm f :=
  ⟨h.name.symm, h.scope.symm, h.type.symm, h.lower.symm, h.upper.symm, h.attributes.symm,
    h.groups.symm⟩

/-! ## Documents -/

variable {d d' : Document}

/-- The second document differs from the first one in the order of groups, members and constraints
only, and in the numbers of the features, which `σ` translates. -/
structure Reordered (d d' : Document) (σ : Fin d.count ≃ Fin d'.count) : Prop where
  root : d'.root = σ d.root
  feature : ∀ i, (d.feature i).Reordered σ (d'.feature (σ i))
  constraints : d'.constraints.Perm d.constraints

/-- Every feature that is reached is a member of one group at most, and once, as the features of a
tree are. -/
structure ParentsUnique (d : Document) : Prop where
  parent : ∀ j, d.Reached j → ∀ i i', j ∈ d.childrenOf i → j ∈ d.childrenOf i' → i = i'
  place : ∀ j, d.Reached j → ∀ i, (d.childrenOf i).count j ≤ 1

/-- It is enough that all features belong to one group each, whether they are reached or not. -/
theorem ParentsUnique.of_forall {d : Document}
    (hparent : ∀ j i i', j ∈ d.childrenOf i → j ∈ d.childrenOf i' → i = i')
    (hplace : ∀ j i, (d.childrenOf i).count j ≤ 1) : d.ParentsUnique :=
  ⟨fun j _ => hparent j, fun j _ => hplace j⟩

namespace Reordered

variable {σ : Fin d.count ≃ Fin d'.count}

theorem symm (h : Reordered d d' σ) : Reordered d' d σ.symm where
  root := by rw [h.root, Equiv.symm_apply_apply]
  feature := by
    intro i
    have hf := (h.feature (σ.symm i)).symm
    rwa [Equiv.apply_symm_apply] at hf
  constraints := h.constraints.symm

theorem nameOf_eq (h : Reordered d d' σ) (i : Fin d.count) : d'.nameOf (σ i) = d.nameOf i := by
  rw [nameOf, nameOf, Feature.fullName, Feature.fullName, (h.feature i).scope, (h.feature i).name]

theorem childrenOf_perm (h : Reordered d d' σ) (i : Fin d.count) :
    (d'.childrenOf (σ i)).Perm ((d.childrenOf i).map σ) := (h.feature i).groups.members_perm

theorem mem_childrenOf (h : Reordered d d' σ) {i j : Fin d.count} :
    σ j ∈ d'.childrenOf (σ i) ↔ j ∈ d.childrenOf i := by
  rw [(h.childrenOf_perm i).mem_iff, List.mem_map_of_injective σ.injective]

theorem reached (h : Reordered d d' σ) {i : Fin d.count} (hi : d.Reached i) : d'.Reached (σ i) := by
  refine Reached.induction (motive := fun i => d'.Reached (σ i)) ?_ (fun i j _ hi hj => ?_) hi
  · rw [← h.root]
    exact reached_root
  · exact hi.child (h.mem_childrenOf.mpr hj)

/-! ### The tree of paths -/

/-- The second tree unfolds the counterpart of the feature that the first one starts from, and has
the counterparts of its features. -/
structure Counterpart (σ : Fin d.count ≃ Fin d'.count) (t : Tree (Fin d.count))
    (u : Tree (Fin d'.count)) : Prop where
  label : u.label = σ t.label
  unfolds : d'.Unfolds u
  order : u.order.Perm (t.order.map σ)

theorem counterparts_of_forall₂ {ts : List (Tree (Fin d.count))}
    {us : List (Tree (Fin d'.count))} (h : List.Forall₂ (Counterpart σ) ts us) :
    us.map Tree.label = (ts.map Tree.label).map σ ∧ (∀ u ∈ us, d'.Unfolds u) ∧
      (us.flatMap Tree.order).Perm ((ts.flatMap Tree.order).map σ) := by
  induction h with
  | nil => exact ⟨rfl, (fun u hu => nomatch hu), .refl _⟩
  | cons hu _ ih =>
    obtain ⟨hlabels, hunfolds, horders⟩ := ih
    refine ⟨?_, List.forall_mem_cons.mpr ⟨hu.unfolds, hunfolds⟩, ?_⟩
    · rw [List.map_cons, List.map_cons, List.map_cons, hu.label, hlabels]
    · rw [List.flatMap_cons, List.flatMap_cons, List.map_append]
      exact hu.order.append horders

/-- A tree that unfolds a feature becomes one that unfolds its counterpart. -/
theorem exists_counterpart (h : Reordered d d' σ) {t : Tree (Fin d.count)} (ht : d.Unfolds t) :
    ∃ u, Counterpart σ t u := by
  induction ht with
  | @node i ts hchildren _ ih =>
    obtain ⟨us, hus⟩ := exists_forall₂ ih
    obtain ⟨hlabels, hunfolds, horders⟩ := counterparts_of_forall₂ hus
    -- The trees of the children come in the order of the second document.
    have hperm : (d'.childrenOf (σ i)).Perm (us.map Tree.label) := by
      rw [hlabels, hchildren]
      exact h.childrenOf_perm i
    obtain ⟨vs, hvs, hpermuted⟩ := exists_perm_map_eq hperm
    refine ⟨.node (σ i) vs, rfl, .node hvs (fun v hv => hunfolds v (hpermuted.mem_iff.mp hv)), ?_⟩
    calc (Tree.node (σ i) vs).order.Perm
          (σ i :: vs.flatMap Tree.order) := Tree.order_perm _ _
      _ |>.Perm (σ i :: us.flatMap Tree.order) := (hpermuted.flatMap_right _).cons _
      _ |>.Perm (σ i :: (ts.flatMap Tree.order).map σ) := horders.cons _
      _ |>.Perm ((Tree.node i ts).order.map σ) := ((Tree.order_perm i ts).map σ).symm

/-- Different paths lead to different names in the one document if they do in the other one. -/
theorem distinctFrom (h : Reordered d d' σ) (hd : DistinctFrom d.nameOf d.root) :
    DistinctFrom d'.nameOf d'.root := by
  obtain ⟨t, hlabel, ht⟩ := Document.exists_unfolds hd
  obtain ⟨t', hlabel', ht', horder⟩ := h.exists_counterpart ht
  rw [hlabel, ← h.root] at hlabel'
  rw [← hlabel', ← nodup_order_iff ht', (horder.map d'.nameOf).nodup_iff, List.map_map]
  have hnames : d'.nameOf ∘ σ = d.nameOf := funext h.nameOf_eq
  rw [hnames, nodup_order_iff ht, hlabel]
  exact hd

/-! ### The groups that features belong to -/

theorem parentsUnique (h : Reordered d d' σ) (hd : d.ParentsUnique) : d'.ParentsUnique := by
  -- Whatever is said about the second document is said about the first one.
  have hback : ∀ j, d'.Reached j → d.Reached (σ.symm j) := fun j hj => h.symm.reached hj
  have hmem {i j : Fin d'.count} : σ.symm j ∈ d.childrenOf (σ.symm i) ↔ j ∈ d'.childrenOf i :=
    h.symm.mem_childrenOf
  constructor
  · intro j hj i i' hi hi'
    exact σ.symm.injective (hd.parent _ (hback j hj) _ _ (hmem.mpr hi) (hmem.mpr hi'))
  · intro j hj i
    rw [← List.count_map_of_injective _ _ σ.symm.injective, ← (h.symm.childrenOf_perm i).count_eq]
    exact hd.place _ (hback j hj) _

end Reordered

/-- A member of two groups of a list is there twice. -/
theorem group_unique {gs : List (Group n)} {j : Fin n}
    (hplace : (gs.flatMap Group.members).count j ≤ 1) {g g' : Group n} (hg : g ∈ gs)
    (hg' : g' ∈ gs) (hj : j ∈ g.members) (hj' : j ∈ g'.members) : g = g' := by
  induction gs with
  | nil => cases hg
  | cons first rest ih =>
    rw [List.flatMap_cons, List.count_append] at hplace
    have hrest {g : Group n} (hg : g ∈ rest) (hj : j ∈ g.members) :
        0 < (rest.flatMap Group.members).count j :=
      List.count_pos_iff.mpr (List.mem_flatMap.mpr ⟨g, hg, hj⟩)
    have hfirst (hj : j ∈ first.members) : 0 < first.members.count j := List.count_pos_iff.mpr hj
    rcases List.mem_cons.mp hg with rfl | hlater <;> rcases List.mem_cons.mp hg' with rfl | hlater'
    · rfl
    · have hone := hfirst hj
      have htwo := hrest hlater' hj'
      omega
    · have hone := hfirst hj'
      have htwo := hrest hlater hj
      omega
    · exact ih (by omega) hlater hlater'

theorem mem_groups {g : Group d.count} : g ∈ d.groups ↔ ∃ i, g ∈ (d.feature i).groups := by
  rw [groups, List.mem_flatMap]
  constructor
  · rintro ⟨f, hf, hg⟩
    obtain ⟨i, hi, rfl⟩ := List.mem_iff_getElem.mp hf
    rw [Vector.length_toList] at hi
    exact ⟨⟨i, hi⟩, hg⟩
  · rintro ⟨i, hg⟩
    exact ⟨d.feature i, Vector.mem_toList_iff.mpr (Vector.getElem_mem i.isLt), hg⟩

theorem exists_of_parentGroup? {j : Fin d.count} {g : Group d.count}
    (h : d.parentGroup? j = some g) : ∃ i, g ∈ (d.feature i).groups ∧ j ∈ g.members := by
  obtain ⟨hg, hj⟩ := List.mem_filter.mp (List.mem_of_getLast? h)
  obtain ⟨i, hi⟩ := mem_groups.mp hg
  exact ⟨i, hi, of_decide_eq_true hj⟩

/-- A feature that is reached belongs to each group that names it. -/
theorem ParentsUnique.parentGroup? (h : d.ParentsUnique) {j : Fin d.count} (hj : d.Reached j)
    {i : Fin d.count} {g : Group d.count} (hg : g ∈ (d.feature i).groups) (hm : j ∈ g.members) :
    d.parentGroup? j = some g := by
  cases hp : d.parentGroup? j with
  | none =>
    rw [Document.parentGroup?, List.getLast?_eq_none_iff, List.filter_eq_nil_iff] at hp
    exact absurd (decide_eq_true hm) (hp g (mem_groups.mpr ⟨i, hg⟩))
  | some g' =>
    obtain ⟨i', hg', hm'⟩ := exists_of_parentGroup? hp
    have hchild {i : Fin d.count} {g : Group d.count} (hg : g ∈ (d.feature i).groups)
        (hm : j ∈ g.members) : j ∈ d.childrenOf i := List.mem_flatMap.mpr ⟨g, hg, hm⟩
    obtain rfl := h.parent j hj i i' (hchild hg hm) (hchild hg' hm')
    rw [group_unique (h.place j hj i) hg' hg hm' hm]

/-- A group that a feature belongs to has its counterpart. -/
theorem Reordered.parentGroup? {σ : Fin d.count ≃ Fin d'.count} (h : Reordered d d' σ)
    (hd : d.ParentsUnique) {j : Fin d.count} (hj : d.Reached j) {g : Group d.count}
    (hg : d.parentGroup? j = some g) :
    ∃ g', d'.parentGroup? (σ j) = some g' ∧ g'.kind = g.kind := by
  obtain ⟨i, hi, hm⟩ := exists_of_parentGroup? hg
  obtain ⟨g', hg', hr⟩ := (h.feature i).groups.exists_group hi
  have hm' : σ j ∈ g'.members := hr.members.mem_iff.mpr (List.mem_map_of_mem hm)
  exact ⟨g', (h.parentsUnique hd).parentGroup? (h.reached hj) hg' hm', hr.kind⟩

end Variability.Document
