import Variability.Proofs.Build.Progress

/-!
The documents that a tree can be built from.

A document is well formed if the features that are reached from its root have
different names, counted once for each path, and their groups, bounds, types and
attributes are sound (`Document.WellFormed`). No condition speaks about an order
of the features or about the construction.

What is proved (`tree_succeeds_iff`): a tree is built from a document iff the
document is well formed. The conditions are necessary because the model at the
end agrees with the document, and they are sufficient because every part of the
construction succeeds (`tree_succeeds`).
-/

namespace Variability

open Build

/-! ## Well-formed documents -/

/-- What is asked of the features that are reached from the root. -/
structure Document.WellFormed (d : Document) : Prop where
  /-- Different paths lead to different names. -/
  names : DistinctFrom d.nameOf d.root
  /-- Every group, also one without members, is of one of the five kinds. -/
  kinds : ∀ i, d.Reached i → ∀ g ∈ (d.feature i).groups, ∃ k : GroupKind, g.kind = .text k.name
  /-- The bounds of a group matter if its kind says so. -/
  groupBounds : ∀ i, d.Reached i → ∀ g ∈ (d.feature i).groups,
    g.kind = .text GroupKind.cardinality.name → ∃ r, Bounds g.lower g.upper r
  /-- The bounds of a feature matter unless the kind of its group decides its cardinality. -/
  bounds : ∀ i, d.Reached i → ¬HasKind d i .mandatory → ¬HasKind d i .optional →
    ∃ r, FeatureBounds (d.feature i).lower (d.feature i).upper r
  types : ∀ i, d.Reached i → ∃ t, Declares (d.feature i).type t
  values : ∀ i, d.Reached i → ∀ e ∈ (d.feature i).attributes.entries, e.2 ≠ .null
  keys : ∀ i, d.Reached i → ∀ e ∈ (d.feature i).attributes.entries,
    e.1 ≠ Attribute.abstract.name → e.1 ≠ Attribute.hidden.name →
      AttributeKey.isolatedColons false e.1.toList ≤ 1
  /-- There is one type for each attribute, and the built-in attributes have theirs. -/
  attributes : ∃ τ : Option String × String → ValueType,
    (∀ a ∈ [Attribute.abstract, Attribute.hidden], τ (a.scope, a.name) = a.type) ∧
      ∀ i, d.Reached i → ∀ e ∈ (d.feature i).attributes.entries, ∀ a,
        attributeOf? e.1 = some a → τ a = e.2.type

namespace Build

variable {d : Document} {m : FeatureModel} {order : List (Fin d.count)}

/-! ## Sound features -/

/-- All features of a well-formed document pass the checks, with the same types. -/
theorem checked_of_wellFormed (h : d.WellFormed) :
    ∃ τ, ∀ i, d.Reached i → Checked d τ i := by
  obtain ⟨τ, hbuiltIn, htype⟩ := h.attributes
  refine ⟨τ, fun i hi => ⟨⟨⟨hbuiltIn, h.values i hi, fun e he => ?_⟩, h.types i hi⟩, ?_, ?_⟩⟩
  · obtain ⟨a, ha⟩ := Option.isSome_iff_exists.mp (isSome_attributeOf?_iff.mpr (h.keys i hi e he))
    exact ⟨a, ha, htype i hi e he a ha⟩
  · exact exists_selects_iff.mpr (h.bounds i hi)
  · exact fun g hg => exists_spans_iff.mpr ⟨h.kinds i hi g hg, h.groupBounds i hi g hg⟩

/-- If all features that are reached pass the checks, with the same types, and have different
names, the document is well formed. -/
theorem wellFormed_of_checked (hdistinct : Document.DistinctFrom d.nameOf d.root)
    {τ : Option String × String → ValueType} (h : ∀ i, d.Reached i → Checked d τ i) :
    d.WellFormed where
  names := hdistinct
  kinds := fun i hi g hg => (exists_spans_iff.mp ((h i hi).spans g hg)).1
  groupBounds := fun i hi g hg => (exists_spans_iff.mp ((h i hi).spans g hg)).2
  bounds := fun i hi => exists_selects_iff.mp (h i hi).selects
  types := fun i hi => (h i hi).sound.declares
  values := fun i hi => (h i hi).sound.typable.present
  keys := by
    intro i hi e he
    obtain ⟨a, ha, -⟩ := (h i hi).sound.typable.type_eq e he
    exact isSome_attributeOf?_iff.mp (ha ▸ rfl)
  attributes := by
    refine ⟨τ, (h d.root Document.reached_root).sound.typable.builtIn, fun i hi e he a ha => ?_⟩
    obtain ⟨b, hb, htype⟩ := (h i hi).sound.typable.type_eq e he
    obtain rfl := Option.some.inj (ha.symm.trans hb)
    exact htype

/-- The features of a construction at its end pass the checks, with the types of the registry. -/
theorem Stage.checked {built : Nat → List (Document.Group d.count)} {ranged : Nat → Prop}
    (h : Stage d order built ranged m) (hp : Pending d order [] built ranged) {i : Fin d.count}
    (hi : i ∈ order) :
    Checked d (fun a => (m.registry.types.find? a).getD .null) i := by
  obtain ⟨k, hk⟩ := List.mem_iff_getElem?.mp hi
  obtain ⟨hgroups, hranged⟩ := hp.done k i hk List.not_mem_nil
  obtain ⟨htyped, f, -, -, hdeclares⟩ := h.described i hi
  refine ⟨⟨⟨fun a ha => ?_, fun e he => (htyped e he).1, fun e he => ?_⟩, f.type, hdeclares⟩, ?_,
    fun g hg => ?_⟩
  · rw [h.builtIns a ha, Option.getD_some]
  · obtain ⟨-, a, ha, htype⟩ := htyped e he
    exact ⟨a, ha, by rw [htype, Option.getD_some]⟩
  · obtain ⟨r, -, hr⟩ := h.cardinality k i hk hranged
    exact ⟨r, hr⟩
  · obtain ⟨j, hj⟩ := List.mem_iff_getElem?.mp hg
    have hmatch := h.groups k (List.getElem?_eq_some_iff.mp hk).1
    rw [hgroups] at hmatch
    obtain ⟨g', -, hg'⟩ := hmatch.later j g hj
    exact ⟨g'.range, hg'.spans⟩

/-! ## Documents that are built -/

/-- A tree is built from a document iff the document is well formed. -/
theorem tree_succeeds_iff (d : Document) : (∃ root m, tree d {} = .ok root m) ↔ d.WellFormed := by
  constructor
  · rintro ⟨root, m, hrun⟩
    obtain ⟨-, t, built, ranged, hlabel, hunfolds, h, hp⟩ := tree_completes hrun
    have hdistinct := (Document.nodup_order_iff hunfolds).mp h.nodup_names
    rw [hlabel] at hdistinct
    refine wellFormed_of_checked hdistinct (fun i hi => h.checked hp ?_)
    rw [Document.mem_order_iff hunfolds, hlabel]
    exact hi
  · intro h
    obtain ⟨τ, hchecked⟩ := checked_of_wellFormed h
    exact tree_succeeds h.names hchecked

end Build

end Variability
