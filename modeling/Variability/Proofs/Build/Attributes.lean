import Variability.Proofs.Build.Run

/-!
The attributes in a model that is built.

Which values the features have is seen through one relation (`Stores`), and every
part of the construction is described by what it changes there. Every attribute
of a feature is the one that is declared under its scope and name, and its value
has the declared type (`Consistent`). The registry says so for the whole model,
so no two features disagree about an attribute, and besides the built-in ones it
holds just those that a key of the document denotes (`toFeatureModel_attributes`).
-/

namespace Variability

/-! ## The values of features -/

namespace FeatureModel

/-- The feature with the name has the value for the attribute. -/
def Stores (m : FeatureModel) (name : Option String) (a : Attribute) (v : Value) : Prop :=
  ∃ f, m.features.find? name = some f ∧ f.attributes.find? a = some v

variable {m m' : FeatureModel} {name other : Option String} {a : Attribute} {v : Value}

theorem stores_congr (h : m'.features = m.features) :
    m'.Stores name a v ↔ m.Stores name a v := by
  rw [Stores, Stores, h]

/-- The feature that stands for a missing one has no values. -/
theorem find?_featureOf :
    (m.featureOf (.registered name)).attributes.find? a = some v ↔ m.Stores name a v := by
  rw [featureOf, Stores]
  cases m.features.find? name with
  | none =>
    constructor
    · intro h
      cases h
    · rintro ⟨f, hf, -⟩
      cases hf
  | some f => simp

theorem stores_storeFeature {f : Feature} :
    (m.storeFeature f).Stores name a v ↔
      if name = f.name then f.attributes.find? a = some v else m.Stores name a v := by
  rw [Stores, storeFeature, Table.find?_insert]
  split
  · simp
  · exact Iff.rfl

/-- A feature that has just been registered has no values. -/
theorem stores_addFeature {type : FeatureType} {f : Feature}
    (h : addFeature other type m = .ok f m') : m'.Stores name a v ↔ m.Stores name a v := by
  obtain ⟨hnew, rfl, rfl⟩ := addFeature_iff.mp h
  rw [Stores, storeFeature, Table.find?_insert]
  split
  · next he =>
    constructor
    · rintro ⟨f, hf, ha⟩
      obtain rfl := Option.some.inj hf
      cases ha
    · rintro ⟨f, hf, -⟩
      rw [he] at hf
      rw [Table.contains_iff_find?.mpr ⟨f, hf⟩] at hnew
      cases hnew
  · exact Iff.rfl

end FeatureModel

namespace Build

open Edit
open FeatureModel (Named)

variable {m m' : FeatureModel} {name other : Option String} {a b : Attribute} {v value : Value}

theorem stores_setValue (hm : m.Named) {u : Unit} (h : setValue name a value m = .ok u m') :
    m'.Stores other b v ↔
      if other = name ∧ b = a then value = v else m.Stores other b v := by
  obtain ⟨-, rfl⟩ := setValue_iff.mp h
  rw [FeatureModel.stores_storeFeature]
  dsimp only
  rw [FeatureModel.name_featureOf hm]
  by_cases hother : other = name
  · subst hother
    rw [if_pos rfl, Table.find?_insert]
    by_cases hb : b = a
    · simp [hb]
    · simp [hb, FeatureModel.find?_featureOf]
  · simp [hother]

/-- Giving a feature its type changes no values. -/
theorem stores_type (hm : m.Named) {type : FeatureType} :
    (m.storeFeature { m.featureOf (.registered name) with type }).Stores other b v ↔
      m.Stores other b v := by
  rw [FeatureModel.stores_storeFeature]
  dsimp only
  rw [FeatureModel.name_featureOf hm]
  split
  · next h => rw [h, FeatureModel.find?_featureOf]
  · exact Iff.rfl

end Build

/-! ## Consistent models -/

/-- The scopes and names of the built-in attributes. -/
def AttributeRegistry.builtInKeys : List (Option String × String) :=
  [Attribute.abstract, Attribute.hidden].map (fun a => (a.scope, a.name))

/-- A key of a feature that can be reached stands for the attribute with the scope and name. -/
def Document.Denotes (d : Document) (k : Option String × String) : Prop :=
  ∃ i, d.Reached i ∧ ∃ e ∈ (d.feature i).attributes.entries, Build.attributeOf? e.1 = some k

/-- A declared attribute stays the only one with its scope and name. -/
theorem AttributeRegistry.keys_declare {r r' : AttributeRegistry} {scope : Option String}
    {name : String} {type : ValueType} {a : Attribute}
    (h : r.declare scope name type = .ok (a, r')) :
    r'.types.keys = appendNew r.types.keys (scope, name) := by
  unfold declare at h
  split at h
  · cases h
    exact Table.keys_insert ..
  · next declared hsome =>
    split at h
    · cases h
      rw [appendNew, if_pos (Table.contains_iff.mp (Table.contains_iff_find?.mpr ⟨_, hsome⟩))]
    · cases h

namespace Build

open Edit
open FeatureModel (Named)

variable {d : Document} {m m' : FeatureModel} {name : Option String} {a : Attribute}
  {value : Value}

/-- Every value has the type that is declared for its attribute, and what is declared is built in or
comes from the document. -/
structure Consistent (d : Document) (m : FeatureModel) : Prop where
  builtIns : m.registry.HasBuiltIns
  declared : ∀ {name a v}, m.Stores name a v →
    m.registry.types.find? (a.scope, a.name) = some a.type
  typed : ∀ {name a v}, m.Stores name a v → v.type = a.type
  registered : ∃ rest, m.registry.types.keys = AttributeRegistry.builtInKeys ++ rest ∧
    ∀ k ∈ rest, d.Denotes k

namespace Consistent

theorem empty : Consistent d {} where
  builtIns := AttributeRegistry.hasBuiltIns_builtIn
  declared := fun ⟨_, hf, _⟩ => nomatch hf
  typed := fun ⟨_, hf, _⟩ => nomatch hf
  registered := ⟨[], rfl, fun _ hk => nomatch hk⟩

theorem congr (h : Consistent d m) (hregistry : m'.registry = m.registry)
    (hstores : ∀ {name a v}, m'.Stores name a v ↔ m.Stores name a v) : Consistent d m' where
  builtIns := hregistry ▸ h.builtIns
  declared := fun hs => hregistry ▸ h.declared (hstores.mp hs)
  typed := fun hs => h.typed (hstores.mp hs)
  registered := hregistry ▸ h.registered

theorem setValue (h : Consistent d m) (hm : m.Named)
    (ha : m.registry.types.find? (a.scope, a.name) = some a.type) {u : Unit}
    (hrun : Build.setValue name a value m = .ok u m') : Consistent d m' := by
  have hstores {other b v} : m'.Stores other b v ↔ _ := stores_setValue hm hrun
  obtain ⟨htype, rfl⟩ := setValue_iff.mp hrun
  refine { builtIns := h.builtIns, declared := ?declared, typed := ?typed,
           registered := h.registered }
  case declared =>
    intro other b v hs
    rw [hstores] at hs
    split at hs
    · next hb =>
      rw [hb.2]
      exact ha
    · exact h.declared hs
  case typed =>
    intro other b v hs
    rw [hstores] at hs
    split at hs
    · next hb => rw [← hs, hb.2, htype]
    · exact h.typed hs

/-- The attribute of a key that the document has is declared then. -/
theorem resolveAttribute (h : Consistent d m) {key : String} {type : ValueType}
    (hkey : ∀ k, attributeOf? key = some k → d.Denotes k)
    (hrun : Build.resolveAttribute key type m = .ok a m') :
    Consistent d m' ∧ m'.registry.types.find? (a.scope, a.name) = some a.type ∧
      m'.features = m.features := by
  rcases resolveAttribute_iff.mp hrun with ⟨hplain, rfl⟩ | ⟨hplain, scope, key', hdecode, hdeclare⟩
  · exact ⟨h, h.builtIns a (mem_of_ofPlainKey? hplain), rfl⟩
  obtain ⟨registry, hregistry, rfl⟩ := declare_iff.mp hdeclare
  obtain ⟨rfl, hextends, htype⟩ := AttributeRegistry.declare_eq_ok hregistry
  refine ⟨{
    builtIns := h.builtIns.mono hextends
    declared := fun hs => hextends _ _ (h.declared hs)
    typed := fun hs => h.typed hs
    registered := ?_ }, htype, rfl⟩
  have hdenotes : d.Denotes (scope, key') := by
    apply hkey
    rw [attributeOf?, hplain]
    exact hdecode
  obtain ⟨rest, hkeys, hrest⟩ := h.registered
  show ∃ rest, registry.types.keys = _ ∧ _
  rw [AttributeRegistry.keys_declare hregistry, hkeys, appendNew]
  split
  · exact ⟨rest, rfl, hrest⟩
  · refine ⟨rest ++ [(scope, key')], List.append_assoc .., ?_⟩
    exact List.forall_mem_append.mpr ⟨hrest, List.forall_mem_singleton.mpr hdenotes⟩

/-- No feature loses a value when a feature gets its attributes. -/
theorem setAttributes (h : Consistent d m) (hm : m.Named) (hname : name ∈ m.features.keys)
    {entries : List (String × Value)}
    (hentries : ∀ e ∈ entries, ∀ k, attributeOf? e.1 = some k → d.Denotes k) {u : Unit}
    (hrun : Build.setAttributes name entries m = .ok u m') :
    Consistent d m' ∧ ∀ other b v, m.Stores other b v → ∃ v', m'.Stores other b v' := by
  induction entries generalizing m with
  | nil =>
    obtain ⟨-, rfl⟩ := pure_eq_ok.mp hrun
    exact ⟨h, fun other b v hs => ⟨v, hs⟩⟩
  | cons entry rest ih =>
    obtain ⟨hentry, hrest⟩ := List.forall_mem_cons.mp hentries
    obtain ⟨-, a, m₁, hresolve, u₁, m₂, hset, hrun⟩ := setAttributes_cons.mp hrun
    have hm₁ := resolveAttribute_eq_ok hm hresolve
    have hm₂ := hm₁.trans (setValue_eq_ok hm₁.named (hm₁.keys ▸ hname) hset)
    obtain ⟨h₁, ha, hfeatures⟩ := h.resolveAttribute hentry hresolve
    have h₂ := h₁.setValue hm₁.named ha hset
    obtain ⟨h', hkept⟩ := ih h₂ hm₂.named (hm₂.keys ▸ hname) hrest hrun
    refine ⟨h', fun other b v hs => ?_⟩
    rw [← FeatureModel.stores_congr hfeatures] at hs
    -- The value that was there is kept or replaced.
    by_cases hb : other = name ∧ b = a
    · exact hkept other b entry.2 ((stores_setValue hm₁.named hset).mpr (by rw [if_pos hb]))
    · exact hkept other b v ((stores_setValue hm₁.named hset).mpr (by rwa [if_neg hb]))

end Consistent

/-- A model is kept consistent, and every feature has a value for the built-in attribute of features
without artefacts. -/
theorem addFeature_consistent {i : Fin d.count} (hi : d.Reached i) (hm : m.Named)
    (h : Consistent d m) (habstract : ∀ name ∈ m.features.keys, ∃ v, m.Stores name .abstract v)
    (hrun : addFeature (d.feature i) m = .ok name m') :
    Consistent d m' ∧ ∀ name ∈ m'.features.keys, ∃ v, m'.Stores name .abstract v := by
  obtain ⟨-, hr⟩ := addFeature_eq_ok hm hrun
  obtain ⟨rfl, _, m₁, hadd, u₁, m₂, hvalue, u₂, m₃, hattributes, type, -, rfl⟩ :=
    addFeature_iff.mp hrun
  have hm₁ := FeatureModel.registered_addFeature hm hadd
  have hm₂ := hm₁.trans (setValue_eq_ok hm₁.named hm₁.mem hvalue)
  have hm₃ := setAttributes_eq_ok hm₂.named hm₂.mem hattributes
  have h₁ : Consistent d m₁ := by
    refine h.congr ?_ (FeatureModel.stores_addFeature hadd)
    obtain ⟨-, -, rfl⟩ := FeatureModel.addFeature_iff.mp hadd
    rfl
  have h₂ := h₁.setValue hm₁.named (h₁.builtIns _ List.mem_cons_self) hvalue
  obtain ⟨h₃, hkept⟩ := h₂.setAttributes hm₂.named hm₂.mem
    (fun e he k hk => ⟨i, hi, e, he, hk⟩) hattributes
  refine ⟨h₃.congr rfl (stores_type hm₃.named), fun name hname => ?_⟩
  -- The new feature has got its value first, and the others had theirs before.
  obtain ⟨v, hv⟩ : ∃ v, m₂.Stores name .abstract v := by
    by_cases hnew : name = (d.feature i).fullName
    · refine ⟨abstractValue (d.feature i), (stores_setValue hm₁.named hvalue).mpr ?_⟩
      rw [if_pos ⟨hnew, rfl⟩]
    · rw [hr.keys, List.mem_append, List.mem_singleton, or_iff_left hnew] at hname
      obtain ⟨v, hv⟩ := habstract name hname
      rw [← FeatureModel.stores_addFeature hadd] at hv
      refine ⟨v, (stores_setValue hm₁.named hvalue).mpr ?_⟩
      rwa [if_neg (fun hb => hnew hb.1)]
  obtain ⟨v', hv'⟩ := hkept _ _ _ hv
  exact ⟨v', (stores_type hm₃.named).mpr hv'⟩

/-- However the features are reached, all of them keep the model consistent. -/
theorem keeps_consistent (d : Document) :
    Keeps d (fun m => Consistent d m ∧ ∀ name ∈ m.features.keys, ∃ v, m.Stores name .abstract v)
      (fun _ => True) where
  congr := by
    intro m m' hfeatures hregistry h
    rw [hfeatures]
    exact ⟨h.1.congr hregistry (FeatureModel.stores_congr hfeatures), fun name hname =>
      (h.2 name hname).imp fun v hv => (FeatureModel.stores_congr hfeatures).mpr hv⟩
  feature := fun hi hm h =>
    .of_ok fun name m' hrun => addFeature_consistent hi hm h.1 h.2 hrun
  cardinality := fun _ _ => trivial
  range := fun _ _ _ => trivial

theorem tree_consistent {root : Nat} (hrun : tree d {} = .ok root m) :
    Consistent d m ∧ ∀ name ∈ m.features.keys, ∃ v, m.Stores name .abstract v :=
  ((keeps_consistent d).tree ⟨.empty, fun _ hname => nomatch hname⟩).of_eq_ok hrun

/-- What a key of the document stands for is declared. -/
theorem tree_declares {root : Nat} (hrun : tree d {} = .ok root m) {k : Option String × String}
    (hk : d.Denotes k) : k ∈ m.registry.types.keys := by
  obtain ⟨i, hi, e, he, hk⟩ := hk
  obtain ⟨-, t, built, ranged, hlabel, hunfolds, h, -⟩ := tree_completes hrun
  have hmem : i ∈ t.order := by
    rw [Document.mem_order_iff hunfolds, hlabel]
    exact hi
  obtain ⟨-, k', hk', htype⟩ := (h.described i hmem).typed e he
  obtain rfl := Option.some.inj (hk'.symm.trans hk)
  exact Table.contains_iff.mp (Table.contains_iff_find?.mpr ⟨_, htype⟩)

end Build

/-! ## Models of documents -/

/-- The attributes of all features have the types that the registry declares, and it declares the
built-in ones and those that the keys of the document denote. -/
structure FeatureModel.AttributesAgree (m : FeatureModel) (d : Document) : Prop where
  builtIns : m.registry.HasBuiltIns
  declared : ∀ name a v, m.Stores name a v →
    m.registry.types.find? (a.scope, a.name) = some a.type
  typed : ∀ name a v, m.Stores name a v → v.type = a.type
  /-- No two features have attributes of the same scope and name with different types. -/
  unique : ∀ name a v name' a' v', m.Stores name a v → m.Stores name' a' v' →
    a.scope = a'.scope → a.name = a'.name → a = a'
  bool : ∀ name a v, m.Stores name a v →
    (a.scope, a.name) ∈ AttributeRegistry.builtInKeys → ∃ b, v = .bool b
  abstract : ∀ name ∈ m.features.keys, ∃ b, m.Stores name .abstract (.bool b)
  registered : ∃ rest, m.registry.types.keys = AttributeRegistry.builtInKeys ++ rest ∧
    rest.Nodup ∧ ∀ k, k ∈ rest ↔ k ∉ AttributeRegistry.builtInKeys ∧ d.Denotes k

variable {d : Document} {m : FeatureModel}

theorem Value.eq_bool_of_type {v : Value} (h : v.type = .bool) : ∃ b, v = .bool b := by
  cases v with
  | bool b => exact ⟨b, rfl⟩
  | null | int | float | text | list | dict => cases h

theorem Build.tree_attributes {root : Nat} (hrun : Build.tree d {} = .ok root m) :
    m.AttributesAgree d := by
  obtain ⟨h, habstract⟩ := tree_consistent hrun
  refine {
    builtIns := h.builtIns
    declared := fun _ _ _ hs => h.declared hs
    typed := fun _ _ _ hs => h.typed hs
    unique := ?unique
    bool := ?bool
    abstract := ?abstract
    registered := ?registered }
  case unique =>
    rintro name ⟨scope, key, type⟩ v name' ⟨scope', key', type'⟩ v' hs hs' hscope hkey
    obtain rfl : scope = scope' := hscope
    obtain rfl : key = key' := hkey
    have htypes : some type = some type' := (h.declared hs).symm.trans (h.declared hs')
    rw [Option.some.inj htypes]
  case bool =>
    intro name a v hs hkey
    obtain ⟨b, hb, hkeys⟩ := List.mem_map.mp hkey
    have htypes := h.builtIns b hb
    rw [hkeys, h.declared hs] at htypes
    apply Value.eq_bool_of_type
    rw [h.typed hs, Option.some.inj htypes]
    rcases List.mem_cons.mp hb with rfl | hb
    · rfl
    · rw [List.mem_singleton.mp hb]
      rfl
  case abstract =>
    intro name hname
    obtain ⟨v, hv⟩ := habstract name hname
    obtain ⟨b, rfl⟩ := Value.eq_bool_of_type (h.typed hv)
    exact ⟨b, hv⟩
  case registered =>
    obtain ⟨rest, hkeys, hrest⟩ := h.registered
    have hnodup : (AttributeRegistry.builtInKeys ++ rest).Nodup := hkeys ▸ m.registry.types.nodup
    obtain ⟨-, hnodup, hdisjoint⟩ := List.nodup_append.mp hnodup
    refine ⟨rest, hkeys, hnodup, fun k => ⟨fun hk => ?_, fun ⟨hnew, hk⟩ => ?_⟩⟩
    · exact ⟨fun hmem => hdisjoint k hmem k hk rfl, hrest k hk⟩
    · have hmem := tree_declares hrun hk
      rw [hkeys, List.mem_append] at hmem
      exact hmem.resolve_left hnew

/-- In every model that is built from a document the attributes agree. -/
theorem Document.toFeatureModel_attributes {root : Nat} (h : d.toFeatureModel = .ok (m, root)) :
    m.AttributesAgree d := by
  obtain ⟨m₀, hrun, rfl⟩ := toFeatureModel_eq_ok.mp h
  -- The constraints and problems have nothing to do with the attributes.
  obtain ⟨hbuiltIns, hdeclared, htyped, hunique, hbool, habstract, hregistered⟩ :=
    Build.tree_attributes hrun
  exact ⟨hbuiltIns, hdeclared, htyped, hunique, hbool, habstract, hregistered⟩

/-- Two features that share an attribute, and reach the built-in ones with and without their
scope. -/
def Document.sharedAttributes : Document where
  count := 2
  features := #v[
    { name := some "R"
      attributes := .ofList [("abstract", .bool true), ("vendor:price", .int 3)]
      groups := [{ kind := .text "mandatory", members := [1] }] },
    { name := some "A"
      attributes := .ofList [("feature_model:hidden", .bool true), ("vendor:price", .int 4),
        ("a::b", .text "c")] }]
  root := 0

theorem Document.toFeatureModel_attributes_shared :
    ∃ m root, sharedAttributes.toFeatureModel = .ok (m, root) ∧
      m.AttributesAgree sharedAttributes ∧
      m.registry.types.keys =
        AttributeRegistry.builtInKeys ++ [(some "vendor", "price"), (none, "a:b")] := by
  have hkeys : sharedAttributes.toFeatureModel.toOption.map (fun p => p.1.registry.types.keys) =
      some (AttributeRegistry.builtInKeys ++ [(some "vendor", "price"), (none, "a:b")]) := by
    decide +kernel
  cases h : sharedAttributes.toFeatureModel with
  | error e =>
    rw [h] at hkeys
    cases hkeys
  | ok p =>
    obtain ⟨m, root⟩ := p
    rw [h] at hkeys
    exact ⟨m, root, rfl, toFeatureModel_attributes h, Option.some.inj hkeys⟩

end Variability
