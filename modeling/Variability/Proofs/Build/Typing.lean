import Variability.Proofs.Build.Feature
import Variability.Proofs.Build.Meaning

/-!
The types of attributes while features are built.

The first value of an attribute decides its type, and a registry only grows.
So the features that are built one after the other agree with the registry at
the end (`addFeature_typed`), and the other way round a feature can be built if
its name is new and its values agree with one assignment of types that the
registry agrees with too (`addFeature_succeeds`).
-/

namespace Variability

/-! ## Growing registries -/

namespace AttributeRegistry

/-- What is declared in the first registry has the same type in the second one. -/
def Extends (r r' : AttributeRegistry) : Prop :=
  ∀ a type, r.types.find? a = some type → r'.types.find? a = some type

theorem Extends.refl (r : AttributeRegistry) : r.Extends r := fun _ _ h => h

theorem Extends.trans {r₁ r₂ r₃ : AttributeRegistry} (h : r₁.Extends r₂) (h' : r₂.Extends r₃) :
    r₁.Extends r₃ := fun a type ha => h' a type (h a type ha)

/-- The built-in attributes are declared. -/
def HasBuiltIns (r : AttributeRegistry) : Prop :=
  ∀ a ∈ [Attribute.abstract, Attribute.hidden], r.types.find? (a.scope, a.name) = some a.type

theorem HasBuiltIns.mono {r r' : AttributeRegistry} (h : r.HasBuiltIns) (hr : r.Extends r') :
    r'.HasBuiltIns := fun a ha => hr _ _ (h a ha)

theorem hasBuiltIns_builtIn : builtIn.HasBuiltIns := by
  intro a ha
  rcases List.mem_cons.mp ha with rfl | ha
  · rfl
  · rw [List.mem_singleton.mp ha]
    rfl

/-- All declared types are those of the assignment. -/
def Agrees (r : AttributeRegistry) (τ : Option String × String → ValueType) : Prop :=
  ∀ a type, r.types.find? a = some type → τ a = type

theorem agrees_builtIn {τ : Option String × String → ValueType}
    (h : ∀ a ∈ [Attribute.abstract, Attribute.hidden], τ (a.scope, a.name) = a.type) :
    builtIn.Agrees τ := by
  intro a type ha
  have hentries : builtIn.types.entries =
      [Attribute.abstract, Attribute.hidden].map (fun a => ((a.scope, a.name), a.type)) := by decide
  have hmem := Table.find?_eq_some_iff.mp ha
  rw [hentries] at hmem
  obtain ⟨b, hb, he⟩ := List.mem_map.mp hmem
  obtain ⟨rfl, rfl⟩ := Prod.mk.inj he
  exact h b hb

theorem declare_eq_ok {r r' : AttributeRegistry} {scope : Option String} {name : String}
    {type : ValueType} {a : Attribute} (h : r.declare scope name type = .ok (a, r')) :
    a = ⟨scope, name, type⟩ ∧ r.Extends r' ∧ r'.types.find? (scope, name) = some type := by
  unfold declare at h
  split at h
  · next hnone =>
    cases h
    refine ⟨rfl, fun b type' hb => ?_, by rw [Table.find?_insert, if_pos rfl]⟩
    have hne : b ≠ (scope, name) := by
      rintro rfl
      rw [hnone] at hb
      cases hb
    rw [Table.find?_insert, if_neg hne, hb]
  · next declared hsome =>
    split at h
    · next he =>
      cases h
      exact ⟨rfl, .refl r, he ▸ hsome⟩
    · cases h

/-- An attribute can be declared with the type of an assignment that the registry agrees with. -/
theorem declare_succeeds {r : AttributeRegistry} {τ : Option String × String → ValueType}
    (h : r.Agrees τ) (scope : Option String) (name : String) :
    ∃ r', r.declare scope name (τ (scope, name)) = .ok (⟨scope, name, τ (scope, name)⟩, r') ∧
      r'.Agrees τ := by
  unfold declare
  split
  · next hnone =>
    refine ⟨_, rfl, fun a type ha => ?_⟩
    rw [Table.find?_insert] at ha
    split at ha
    · next he => rw [he, Option.some.inj ha]
    · exact h a type ha
  · next declared hsome =>
    rw [if_pos (h _ _ hsome).symm]
    exact ⟨r, rfl, h⟩

end AttributeRegistry

namespace Build

open Edit
open FeatureModel (Named)

variable {m m' : FeatureModel} {name : Option String}

/-! ## Features that are built -/

/-- Every value is present and has the type that is declared for its attribute. -/
def Typed (r : AttributeRegistry) (entries : List (String × Value)) : Prop :=
  ∀ e ∈ entries, e.2 ≠ .null ∧ ∃ a, attributeOf? e.1 = some a ∧ r.types.find? a = some e.2.type

theorem Typed.mono {r r' : AttributeRegistry} {entries : List (String × Value)}
    (h : Typed r entries) (hr : r.Extends r') : Typed r' entries := by
  intro e he
  obtain ⟨hpresent, a, ha, htype⟩ := h e he
  exact ⟨hpresent, a, ha, hr _ _ htype⟩

/-- The registry has grown, and at most the feature with the given name is another one. -/
structure Entered (m m' : FeatureModel) (name : Option String) : Prop where
  registry : m.registry.Extends m'.registry
  others : ∀ name', name' ≠ name → m'.features.find? name' = m.features.find? name'

theorem Entered.trans {m₁ m₂ m₃ : FeatureModel} (h : Entered m₁ m₂ name) (h' : Entered m₂ m₃ name) :
    Entered m₁ m₃ name where
  registry := h.registry.trans h'.registry
  others := fun name' hne => (h'.others name' hne).trans (h.others name' hne)

theorem entered_storeFeature (m : FeatureModel) {f : Feature} (hf : f.name = name) :
    Entered m (m.storeFeature f) name where
  registry := .refl _
  others := by
    intro name' hne
    rw [FeatureModel.storeFeature, Table.find?_insert, if_neg (hf ▸ hne)]

theorem entered_setValue (hm : m.Named) {a : Attribute} {value : Value} {u : Unit}
    (h : setValue name a value m = .ok u m') : Entered m m' name ∧ value.type = a.type := by
  obtain ⟨htype, rfl⟩ := setValue_iff.mp h
  exact ⟨entered_storeFeature m (FeatureModel.name_featureOf hm name), htype⟩

theorem mem_of_ofPlainKey? {key : String} {a : Attribute} (h : Attribute.ofPlainKey? key = some a) :
    a ∈ [Attribute.abstract, Attribute.hidden] := by
  unfold Attribute.ofPlainKey? at h
  split at h
  · cases h
    exact List.mem_cons_self
  · split at h
    · cases h
      exact List.mem_cons_of_mem _ List.mem_cons_self
    · cases h

theorem resolveAttribute_typed (name : Option String) (hb : m.registry.HasBuiltIns) {key : String}
    {type : ValueType} {a : Attribute} (h : resolveAttribute key type m = .ok a m') :
    Entered m m' name ∧ attributeOf? key = some (a.scope, a.name) ∧
      m'.registry.types.find? (a.scope, a.name) = some a.type := by
  rw [attributeOf?]
  rcases resolveAttribute_iff.mp h with ⟨hplain, rfl⟩ | ⟨hplain, scope, key', hkey, hdeclare⟩
  · rw [hplain]
    exact ⟨⟨.refl _, fun _ _ => rfl⟩, rfl, hb a (mem_of_ofPlainKey? hplain)⟩
  · obtain ⟨registry, hregistry, rfl⟩ := declare_iff.mp hdeclare
    obtain ⟨rfl, hextends, htype⟩ := AttributeRegistry.declare_eq_ok hregistry
    rw [hplain]
    exact ⟨⟨hextends, fun _ _ => rfl⟩, hkey, htype⟩

theorem setAttributes_typed (hm : m.Named) (hb : m.registry.HasBuiltIns)
    (hname : name ∈ m.features.keys) {entries : List (String × Value)} {u : Unit}
    (h : setAttributes name entries m = .ok u m') :
    Entered m m' name ∧ Typed m'.registry entries := by
  induction entries generalizing m with
  | nil =>
    obtain ⟨-, rfl⟩ := pure_eq_ok.mp h
    exact ⟨⟨.refl _, fun _ _ => rfl⟩, fun e he => nomatch he⟩
  | cons entry rest ih =>
    obtain ⟨hpresent, a, m₁, hresolve, v, m₂, hset, h⟩ := setAttributes_cons.mp h
    have hm₁ := resolveAttribute_eq_ok hm hresolve
    have hm₂ := hm₁.trans (setValue_eq_ok hm₁.named (hm₁.keys ▸ hname) hset)
    obtain ⟨h₁, hkey, hdeclared⟩ := resolveAttribute_typed name hb hresolve
    obtain ⟨h₂, htype⟩ := entered_setValue hm₁.named hset
    obtain ⟨h₃, hrest⟩ :=
      ih hm₂.named (hb.mono (h₁.trans h₂).registry) (hm₂.keys ▸ hname) h
    refine ⟨(h₁.trans h₂).trans h₃, List.forall_mem_cons.mpr ⟨?_, hrest⟩⟩
    refine ⟨isPresent_iff.mp hpresent, (a.scope, a.name), hkey, ?_⟩
    rw [htype]
    exact (h₂.trans h₃).registry _ _ hdeclared

/-- A feature that is built has the type and the values of the document. -/
structure Described {n : Nat} (m : FeatureModel) (f : Document.Feature n) : Prop where
  typed : Typed m.registry f.attributes.entries
  declared : ∃ g, m.features.find? f.fullName = some g ∧ g.name = f.fullName ∧
    Declares f.type g.type

theorem addFeature_typed (hm : m.Named) (hb : m.registry.HasBuiltIns) {n : Nat}
    {f : Document.Feature n} (h : addFeature f m = .ok name m') :
    Entered m m' f.fullName ∧ Described m' f := by
  obtain ⟨rfl, _, m₁, hadd, _, m₂, habstract, _, m₃, hattributes, type, htype, rfl⟩ :=
    addFeature_iff.mp h
  have hm₁ := FeatureModel.registered_addFeature hm hadd
  have hm₂ := hm₁.trans (setValue_eq_ok hm₁.named hm₁.mem habstract)
  have hm₃ := hm₂.trans (setAttributes_eq_ok hm₂.named hm₂.mem hattributes)
  have hname := FeatureModel.name_featureOf hm₃.named f.fullName
  have h₁ : Entered m m₁ f.fullName := by
    obtain ⟨-, rfl, rfl⟩ := FeatureModel.addFeature_iff.mp hadd
    refine ⟨.refl _, fun name' hne => ?_⟩
    rw [FeatureModel.storeFeature, Table.find?_insert, if_neg hne]
  have h₂ := h₁.trans (entered_setValue hm₁.named habstract).1
  obtain ⟨h₃, htyped⟩ :=
    setAttributes_typed hm₂.named (hb.mono h₂.registry) hm₂.mem hattributes
  refine ⟨(h₂.trans h₃).trans (entered_storeFeature m₃ hname), htyped, ?_⟩
  refine ⟨{ m₃.featureOf (.registered f.fullName) with type }, ?_, hname,
    featureType_eq_ok.mp htype⟩
  rw [FeatureModel.storeFeature, Table.find?_insert, if_pos hname.symm]

/-- Features with other names stay as they are, and the registry only grows. -/
theorem Described.mono {n : Nat} {f : Document.Feature n} (h : Described m f)
    (hm : Entered m m' name) (hne : f.fullName ≠ name) : Described m' f where
  typed := h.typed.mono hm.registry
  declared := by
    obtain ⟨g, hg, hdeclared⟩ := h.declared
    exact ⟨g, (hm.others _ hne).trans hg, hdeclared⟩

theorem Described.congr {n : Nat} {f : Document.Feature n} (h : Described m f)
    (hfeatures : m'.features = m.features) (hregistry : m'.registry = m.registry) :
    Described m' f where
  typed := hregistry ▸ h.typed
  declared := hfeatures ▸ h.declared

/-! ## Features that can be built -/

/-- The values are present, and their types are those of the assignment, which the built-in
attributes agree with. -/
structure Typable (τ : Option String × String → ValueType) (entries : List (String × Value)) :
    Prop where
  builtIn : ∀ a ∈ [Attribute.abstract, Attribute.hidden], τ (a.scope, a.name) = a.type
  present : ∀ e ∈ entries, e.2 ≠ .null
  type_eq : ∀ e ∈ entries, ∃ a, attributeOf? e.1 = some a ∧ τ a = e.2.type

theorem setValue_succeeds (name : Option String) (m : FeatureModel) {a : Attribute} {value : Value}
    (h : value.type = a.type) :
    ∃ m', setValue name a value m = .ok () m' ∧ m'.registry = m.registry :=
  ⟨_, setValue_iff.mpr ⟨h, rfl⟩, rfl⟩

theorem addFeature_of_not_mem (h : name ∉ m.features.keys) :
    ∃ f m', FeatureModel.addFeature name .boolean m = .ok f m' ∧ m'.registry = m.registry := by
  have hfree : ¬m.features.contains name = true := fun hc => h (Table.contains_iff.mp hc)
  exact ⟨_, _, FeatureModel.addFeature_iff.mpr ⟨Bool.eq_false_iff.mpr hfree, rfl, rfl⟩, rfl⟩

section
variable {τ : Option String × String → ValueType}
  (hbuiltIn : ∀ a ∈ [Attribute.abstract, Attribute.hidden], τ (a.scope, a.name) = a.type)
include hbuiltIn

theorem resolveAttribute_succeeds (h : m.registry.Agrees τ) {key : String}
    {a : Option String × String} (hkey : attributeOf? key = some a) :
    ∃ b m', resolveAttribute key (τ a) m = .ok b m' ∧ b.type = τ a ∧ m'.registry.Agrees τ := by
  rw [attributeOf?] at hkey
  cases hplain : Attribute.ofPlainKey? key with
  | some b =>
    rw [hplain] at hkey
    obtain rfl := Option.some.inj hkey
    exact ⟨b, m, resolveAttribute_iff.mpr (.inl ⟨hplain, rfl⟩),
      (hbuiltIn b (mem_of_ofPlainKey? hplain)).symm, h⟩
  | none =>
    rw [hplain] at hkey
    obtain ⟨scope, name⟩ := a
    obtain ⟨registry, hdeclare, hagrees⟩ := AttributeRegistry.declare_succeeds h scope name
    exact ⟨_, _, resolveAttribute_iff.mpr
      (.inr ⟨hplain, scope, name, hkey, declare_iff.mpr ⟨registry, hdeclare, rfl⟩⟩), rfl, hagrees⟩

theorem setAttributes_succeeds (name : Option String) (h : m.registry.Agrees τ)
    {entries : List (String × Value)} (hpresent : ∀ e ∈ entries, e.2 ≠ .null)
    (htype : ∀ e ∈ entries, ∃ a, attributeOf? e.1 = some a ∧ τ a = e.2.type) :
    ∃ u m', setAttributes name entries m = .ok u m' ∧ m'.registry.Agrees τ := by
  induction entries generalizing m with
  | nil => exact ⟨(), m, rfl, h⟩
  | cons entry rest ih =>
    obtain ⟨hvalue, hpresent⟩ := List.forall_mem_cons.mp hpresent
    obtain ⟨⟨a, hkey, ha⟩, htype⟩ := List.forall_mem_cons.mp htype
    obtain ⟨b, m₁, hresolve, hb, h₁⟩ := resolveAttribute_succeeds hbuiltIn h hkey
    rw [ha] at hresolve hb
    obtain ⟨m₂, hset, hregistry⟩ := setValue_succeeds name m₁ hb.symm
    obtain ⟨u, m', hrest, h'⟩ := ih (hregistry ▸ h₁) hpresent htype
    exact ⟨u, m', setAttributes_cons.mpr ⟨isPresent_iff.mpr hvalue, b, m₁, hresolve, (), m₂, hset,
      hrest⟩, h'⟩

end

/-- The feature is abstract or not as the document says; it is not if that says nothing. -/
theorem abstractValue_cases {n : Nat} (f : Document.Feature n) :
    abstractValue f = .bool false ∨
      (Attribute.abstract.name, abstractValue f) ∈ f.attributes.entries := by
  unfold abstractValue
  split
  · exact .inl rfl
  · exact .inl rfl
  · next value _ hfind => exact .inr (Table.find?_eq_some_iff.mp hfind)

theorem abstractValue_type {n : Nat} {f : Document.Feature n}
    {τ : Option String × String → ValueType} (h : Typable τ f.attributes.entries) :
    (abstractValue f).type = Attribute.abstract.type := by
  rcases abstractValue_cases f with hfalse | hmem
  · rw [hfalse]
    rfl
  · obtain ⟨a, hkey, htype⟩ := h.type_eq _ hmem
    have habstract : attributeOf? Attribute.abstract.name =
        some (Attribute.abstract.scope, Attribute.abstract.name) := by decide
    obtain rfl := Option.some.inj (hkey.symm.trans habstract)
    rw [← htype, h.builtIn _ List.mem_cons_self]

/-- The values of a feature agree with an assignment of types, and the feature has a type. -/
structure Sound {n : Nat} (τ : Option String × String → ValueType) (f : Document.Feature n) :
    Prop where
  typable : Typable τ f.attributes.entries
  declares : ∃ t, Declares f.type t

/-- A sound feature can be built if its name is new and the registry agrees with the types. -/
theorem addFeature_succeeds {n : Nat} {f : Document.Feature n}
    {τ : Option String × String → ValueType} (hf : Sound τ f)
    (hnew : f.fullName ∉ m.features.keys) (hm : m.registry.Agrees τ) :
    ∃ name m', addFeature f m = .ok name m' ∧ m'.registry.Agrees τ := by
  obtain ⟨hτ, t, htype⟩ := hf
  obtain ⟨g, m₁, hadd, h₁⟩ := addFeature_of_not_mem hnew
  obtain ⟨m₂, hvalue, h₂⟩ := setValue_succeeds f.fullName m₁ (abstractValue_type hτ)
  -- Neither the new name nor the first value has changed the registry.
  have hm₂ : m₂.registry.Agrees τ := by
    rw [h₂, h₁]
    exact hm
  obtain ⟨u, m₃, hrest, h₃⟩ :=
    setAttributes_succeeds hτ.builtIn f.fullName hm₂ hτ.present hτ.type_eq
  exact ⟨_, _, addFeature_iff.mpr ⟨rfl, g, m₁, hadd, (), m₂, hvalue, u, m₃, hrest, t,
    featureType_eq_ok.mpr htype, rfl⟩, h₃⟩

end Build

end Variability
