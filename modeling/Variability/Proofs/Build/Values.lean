import Mathlib.Data.List.Basic
import Variability.Proofs.Attribute
import Variability.Proofs.Build.Typing

/-!
The values of a feature that is built.

A feature under construction is seen through the table of its attributes
(`Holds`): the value that makes it abstract or not is stored first, and then one
value for each key of the document (`addFeature_holds`). No two keys stand for one
attribute, unless a built-in attribute is also given with its scope
(`attributeOf?_eq_iff`), and then both values are truth values. So no value is
lost, merged with another one or moved to another place (`addFeature_values`).
-/

namespace Variability.Build

open Edit

variable {m m' : FeatureModel} {name : Option String} {g : Feature}

/-! ## Storing what the entries stand for -/

/-- The feature with the name, which knows its name itself. -/
structure Holds (m : FeatureModel) (name : Option String) (g : Feature) : Prop where
  find?_eq : m.features.find? name = some g
  name_eq : g.name = name

theorem Holds.featureOf_eq (h : Holds m name g) : m.featureOf (.registered name) = g := by
  rw [FeatureModel.featureOf, h.find?_eq, Option.getD_some]

theorem Holds.mem_keys (h : Holds m name g) : name ∈ m.features.keys :=
  Table.contains_iff.mp (Table.contains_iff_find?.mpr ⟨g, h.find?_eq⟩)

/-- Storing a feature under a name that is registered changes no names. -/
theorem Holds.storeFeature (h : Holds m name g) (g' : Feature) (hname : g'.name = name) :
    Holds (m.storeFeature g') name g' ∧ (m.storeFeature g').features.keys = m.features.keys := by
  refine ⟨⟨?_, hname⟩, ?_⟩
  · rw [FeatureModel.storeFeature, Table.find?_insert, if_pos hname.symm]
  · rw [FeatureModel.storeFeature, Table.keys_insert, appendNew, hname, if_pos h.mem_keys]

theorem setValue_holds (h : Holds m name g) {a : Attribute} {value : Value} {u : Unit}
    (hrun : setValue name a value m = .ok u m') :
    value.type = a.type ∧ m'.features.keys = m.features.keys ∧
      Holds m' name { g with attributes := g.attributes.insert a value } := by
  obtain ⟨htype, rfl⟩ := setValue_iff.mp hrun
  rw [h.featureOf_eq]
  obtain ⟨h', hkeys⟩ :=
    h.storeFeature { g with attributes := g.attributes.insert a value } h.name_eq
  exact ⟨htype, hkeys, h'⟩

/-- The attribute of a key has the scope and the name that the key stands for. -/
theorem attributeOf?_of_resolveAttribute {key : String} {type : ValueType} {a : Attribute}
    (hrun : resolveAttribute key type m = .ok a m') :
    attributeOf? key = some (a.scope, a.name) ∧ m'.features = m.features := by
  rw [attributeOf?]
  rcases resolveAttribute_iff.mp hrun with ⟨hplain, rfl⟩ | ⟨hplain, scope, key', hkey, hdeclare⟩
  · rw [hplain]
    exact ⟨rfl, rfl⟩
  · obtain ⟨registry, hregistry, rfl⟩ := declare_iff.mp hdeclare
    obtain ⟨rfl, -, -⟩ := AttributeRegistry.declare_eq_ok hregistry
    rw [hplain]
    exact ⟨hkey, rfl⟩

/-- The attribute that an entry of a document stands for, of the type of the value, and the
value. -/
def assignment? (e : String × Value) : Option (Attribute × Value) :=
  (attributeOf? e.1).map (fun k => (⟨k.1, k.2, e.2.type⟩, e.2))

/-- What is stored for a feature, one after the other: the value that makes it abstract or not, then
what its entries stand for. -/
def stored {n : Nat} (f : Document.Feature n) : List (Attribute × Value) :=
  (.abstract, abstractValue f) :: f.attributes.entries.filterMap assignment?

/-- The values are stored one after the other, and every key stands for an attribute. -/
theorem setAttributes_holds {entries : List (String × Value)} (h : Holds m name g) {u : Unit}
    (hrun : setAttributes name entries m = .ok u m') :
    (∀ e ∈ entries, ∃ k, attributeOf? e.1 = some k) ∧ m'.features.keys = m.features.keys ∧
      Holds m' name { g with
        attributes := (entries.filterMap assignment?).foldl (fun t p => t.insert p.1 p.2)
          g.attributes } := by
  induction entries generalizing m g with
  | nil =>
    obtain ⟨-, rfl⟩ := pure_eq_ok.mp hrun
    exact ⟨fun _ he => (List.not_mem_nil he).elim, rfl, h⟩
  | cons e rest ih =>
    obtain ⟨-, ⟨scope, key, type⟩, m₁, hresolve, v, m₂, hset, hrun⟩ := setAttributes_cons.mp hrun
    obtain ⟨hkey, hfeatures⟩ := attributeOf?_of_resolveAttribute hresolve
    have h₁ : Holds m₁ name g := ⟨hfeatures ▸ h.find?_eq, h.name_eq⟩
    obtain ⟨htype, hkeys, h₂⟩ := setValue_holds h₁ hset
    obtain ⟨hrest, hkeys', h₃⟩ := ih h₂ hrun
    have hassign : assignment? e = some (⟨scope, key, type⟩, e.2) := by
      rw [assignment?, hkey, Option.map_some, htype]
    refine ⟨List.forall_mem_cons.mpr ⟨⟨_, hkey⟩, hrest⟩, ?_, ?_⟩
    · rw [hkeys', hkeys, hfeatures]
    · rw [List.filterMap_cons_some hassign, List.foldl_cons]
      exact h₃

/-- A feature that is built has a new name, which is registered after the others. Its attributes are
those that were stored, the one of abstract features first. -/
theorem addFeature_holds {n : Nat} {f : Document.Feature n}
    (hrun : addFeature f m = .ok name m') :
    name = f.fullName ∧ m'.features.keys = m.features.keys ++ [name] ∧
      (abstractValue f).type = Attribute.abstract.type ∧
      (∀ e ∈ f.attributes.entries, ∃ k, attributeOf? e.1 = some k) ∧
      ∃ g, Holds m' name g ∧ g.attributes = Table.ofList (stored f) := by
  obtain ⟨rfl, _, m₁, hadd, _, m₂, hvalue, _, m₃, hattributes, type, -, rfl⟩ :=
    addFeature_iff.mp hrun
  obtain ⟨hnew, rfl, rfl⟩ := FeatureModel.addFeature_iff.mp hadd
  have h₁ : Holds (m.storeFeature { name := f.fullName }) f.fullName { name := f.fullName } := by
    refine ⟨?_, rfl⟩
    rw [FeatureModel.storeFeature, Table.find?_insert, if_pos rfl]
  have hkeys₁ : (m.storeFeature { name := f.fullName }).features.keys =
      m.features.keys ++ [f.fullName] := by
    have hfree : f.fullName ∉ m.features.keys := by
      rw [← Table.contains_iff, hnew]
      exact Bool.false_ne_true
    rw [FeatureModel.storeFeature, Table.keys_insert, appendNew, if_neg hfree]
  obtain ⟨habstract, hkeys₂, h₂⟩ := setValue_holds h₁ hvalue
  obtain ⟨hentries, hkeys₃, h₃⟩ := setAttributes_holds h₂ hattributes
  rw [h₃.featureOf_eq]
  obtain ⟨h₄, hkeys₄⟩ := h₃.storeFeature { name := f.fullName, type, attributes := _ } rfl
  exact ⟨rfl, by rw [hkeys₄, hkeys₃, hkeys₂, hkeys₁], habstract, hentries, _, h₄, rfl⟩

/-! ## Keys of one attribute -/

/-- The keys that stand for the attribute of another key. -/
def synonyms : List (String × String) :=
  [("abstract", "feature_model:abstract"), ("feature_model:abstract", "abstract"),
    ("hidden", "feature_model:hidden"), ("feature_model:hidden", "hidden")]

theorem ofPlainKey?_eq_some {key : String} {a : Attribute}
    (h : Attribute.ofPlainKey? key = some a) :
    a ∈ [Attribute.abstract, Attribute.hidden] ∧ a.name = key := by
  refine ⟨mem_of_ofPlainKey? h, ?_⟩
  unfold Attribute.ofPlainKey? at h
  split at h
  · next hkey => rw [← Option.some.inj h, hkey]
  · split at h
    · next hkey => rw [← Option.some.inj h, hkey]
    · cases h

/-- A key that is read as a built-in attribute spells out its scope. -/
theorem eq_label_of_decode? {key : String} {a : Attribute}
    (ha : a ∈ [Attribute.abstract, Attribute.hidden])
    (h : AttributeKey.decode? key = some (a.scope, a.name)) : key = a.label := by
  obtain ⟨-, hkey⟩ := AttributeKey.encode_of_decode? h
  rw [← hkey]
  rcases List.mem_cons.mp ha with rfl | ha
  · decide +kernel
  · rw [List.mem_singleton.mp ha]
    decide +kernel

theorem exists_builtIn_of_synonyms {p : String × String} (h : p ∈ synonyms) :
    ∃ a ∈ [Attribute.abstract, Attribute.hidden], attributeOf? p.1 = some (a.scope, a.name) ∧
      attributeOf? p.2 = some (a.scope, a.name) := by
  have hall : ∀ p ∈ synonyms, ∃ a ∈ [Attribute.abstract, Attribute.hidden],
      attributeOf? p.1 = some (a.scope, a.name) ∧ attributeOf? p.2 = some (a.scope, a.name) := by
    decide +kernel
  exact hall p h

/-- Only a built-in attribute has two keys, with its scope and without it. -/
theorem attributeOf?_eq_iff {key key' : String} (hne : key ≠ key') :
    (∃ k, attributeOf? key = some k ∧ attributeOf? key' = some k) ↔ (key, key') ∈ synonyms := by
  constructor
  · rintro ⟨k, h, h'⟩
    have hlabel : ∀ a ∈ [Attribute.abstract, Attribute.hidden],
        (a.name, a.label) ∈ synonyms ∧ (a.label, a.name) ∈ synonyms := by decide +kernel
    unfold attributeOf? at h h'
    split at h <;> split at h'
    · -- Both keys are names of built-in attributes, so they are one name.
      next a ha _ a' ha' =>
      have hname : a.name = a'.name := congrArg Prod.snd (Option.some.inj (h.trans h'.symm))
      rw [(ofPlainKey?_eq_some ha).2, (ofPlainKey?_eq_some ha').2] at hname
      exact absurd hname hne
    · next a ha _ _ =>
      obtain ⟨hmem, rfl⟩ := ofPlainKey?_eq_some ha
      obtain rfl := Option.some.inj h
      rw [eq_label_of_decode? hmem h']
      exact (hlabel a hmem).1
    · next _ _ a ha =>
      obtain ⟨hmem, rfl⟩ := ofPlainKey?_eq_some ha
      obtain rfl := Option.some.inj h'
      rw [eq_label_of_decode? hmem h]
      exact (hlabel a hmem).2
    · exact absurd (AttributeKey.eq_of_decode? h h') hne
  · intro hmem
    obtain ⟨a, -, h⟩ := exists_builtIn_of_synonyms hmem
    exact ⟨_, h⟩

/-- The values that are given to a built-in attribute are truth values. -/
theorem setAttributes_builtIn {entries : List (String × Value)} (hb : m.registry.HasBuiltIns)
    {u : Unit} (hrun : setAttributes name entries m = .ok u m') {b : Attribute}
    (hmem : b ∈ [Attribute.abstract, Attribute.hidden]) :
    ∀ e ∈ entries, attributeOf? e.1 = some (b.scope, b.name) → e.2.type = b.type := by
  induction entries generalizing m with
  | nil => exact fun e he => nomatch he
  | cons e rest ih =>
    obtain ⟨-, a, m₁, hresolve, v, m₂, hset, hrun⟩ := setAttributes_cons.mp hrun
    obtain ⟨hentered, hkey, hdeclared⟩ := resolveAttribute_typed name hb hresolve
    have hb₁ := hb.mono hentered.registry
    have hb₂ : m₂.registry.HasBuiltIns := by
      obtain ⟨-, rfl⟩ := setValue_iff.mp hset
      exact hb₁
    refine List.forall_mem_cons.mpr ⟨fun he => ?_, ih hb₂ hrun⟩
    have hsame : (a.scope, a.name) = (b.scope, b.name) := Option.some.inj (hkey.symm.trans he)
    rw [hsame, hb₁ b hmem] at hdeclared
    rw [(setValue_iff.mp hset).1, Option.some.inj hdeclared]

/-! ## The last values -/

/-- The value of the last entry whose key stands for the attribute, and false without such an
entry. -/
def valueOf (entries : List (String × Value)) (k : Option String × String) : Value :=
  ((entries.filter (fun e => attributeOf? e.1 = some k)).getLast?.map Prod.snd).getD (.bool false)

theorem exists_valueOf {entries : List (String × Value)} {k : Option String × String}
    (h : ∃ e ∈ entries, attributeOf? e.1 = some k) :
    ∃ e ∈ entries, attributeOf? e.1 = some k ∧
      (entries.filter (fun e => attributeOf? e.1 = some k)).getLast?.map Prod.snd = some e.2 ∧
      valueOf entries k = e.2 := by
  obtain ⟨e₀, he₀, hk₀⟩ := h
  have hne : entries.filter (fun e => attributeOf? e.1 = some k) ≠ [] :=
    List.ne_nil_of_mem (List.mem_filter.mpr ⟨he₀, decide_eq_true hk₀⟩)
  obtain ⟨hmem, hkey⟩ := List.mem_filter.mp (List.getLast_mem hne)
  have hlast := congrArg (Option.map Prod.snd) (List.getLast?_eq_some_getLast hne)
  exact ⟨_, hmem, of_decide_eq_true hkey, hlast, by rw [valueOf, hlast]; rfl⟩

theorem getLast?_of_forall_ne {entries : List (String × Value)} {k : Option String × String}
    (h : ∀ e ∈ entries, attributeOf? e.1 ≠ some k) :
    (entries.filter (fun e => attributeOf? e.1 = some k)).getLast?.map Prod.snd = none := by
  rw [List.filter_eq_nil_iff.mpr (fun e he => by simpa using h e he)]
  rfl

theorem valueOf_of_forall_ne {entries : List (String × Value)} {k : Option String × String}
    (h : ∀ e ∈ entries, attributeOf? e.1 ≠ some k) : valueOf entries k = .bool false := by
  rw [valueOf, getLast?_of_forall_ne h]
  rfl

/-- What is stored for an attribute are the values of its entries. -/
theorem filter_assignments (entries : List (String × Value)) (k : Option String × String) :
    ((entries.filterMap assignment?).filter (fun p => (p.1.scope, p.1.name) = k)).map Prod.snd =
      (entries.filter (fun e => attributeOf? e.1 = some k)).map Prod.snd := by
  induction entries with
  | nil => rfl
  | cons e rest ih =>
    rw [List.filterMap_cons, List.filter_cons, assignment?]
    cases hkey : attributeOf? e.1 with
    | none => simpa using ih
    | some k' =>
      rw [Option.map_some, List.filter_cons]
      by_cases hk : k' = k
      · simpa [hk] using ih
      · simpa [hk] using ih

section
variable {n : Nat} {f : Document.Feature n}
  (hb : ∀ b ∈ [Attribute.abstract, Attribute.hidden], ∀ e ∈ f.attributes.entries,
    attributeOf? e.1 = some (b.scope, b.name) → e.2.type = b.type)
include hb

/-- Values that are given to one attribute have one type. -/
theorem type_eq_of_attributeOf? {e e' : String × Value} (he : e ∈ f.attributes.entries)
    (he' : e' ∈ f.attributes.entries) {k : Option String × String}
    (hk : attributeOf? e.1 = some k) (hk' : attributeOf? e'.1 = some k) :
    e.2.type = e'.2.type := by
  by_cases hkey : e.1 = e'.1
  · -- Then it is one entry, as the keys of the document are different.
    have hfind : f.attributes.find? e.1 = some e.2 := Table.find?_eq_some_iff.mpr he
    have hfind' : f.attributes.find? e'.1 = some e'.2 := Table.find?_eq_some_iff.mpr he'
    rw [hkey, hfind'] at hfind
    rw [Option.some.inj hfind]
  · obtain ⟨b, hmem, h, h'⟩ :=
      exists_builtIn_of_synonyms ((attributeOf?_eq_iff hkey).mp ⟨k, hk, hk'⟩)
    rw [hb b hmem e he h, hb b hmem e' he' h']

/-- Every attribute has the type of the value that it ends up with. -/
theorem type_valueOf {e : String × Value} (he : e ∈ f.attributes.entries)
    {k : Option String × String} (hk : attributeOf? e.1 = some k) :
    (valueOf f.attributes.entries k).type = e.2.type := by
  obtain ⟨e', he', hk', -, hvalue⟩ := exists_valueOf ⟨e, he, hk⟩
  rw [hvalue]
  exact type_eq_of_attributeOf? hb he' he hk' hk

end

/-! ## All values -/

/-- The scope and the name of the attribute of abstract features. -/
def abstractKey : Option String × String := (Attribute.abstract.scope, Attribute.abstract.name)

/-- The attribute with the scope and name, of the type of its last value. -/
def attributeFor (entries : List (String × Value)) (k : Option String × String) : Attribute :=
  ⟨k.1, k.2, (valueOf entries k).type⟩

theorem attributeFor_injective {entries : List (String × Value)} (k k' : Option String × String)
    (h : attributeFor entries k = attributeFor entries k') : k = k' :=
  Prod.ext (congrArg Attribute.scope h) (congrArg Attribute.name h)

/-- The scopes and names of the attributes of a feature with the given entries: that of abstract
features first, then the others in the order of their first keys. -/
def attributesOf (entries : List (String × Value)) : List (Option String × String) :=
  abstractKey ::
    ((entries.filterMap (fun e => attributeOf? e.1)).filter (· ≠ abstractKey)).eraseDups

section
variable {n : Nat} {f : Document.Feature n}
  (hb : ∀ b ∈ [Attribute.abstract, Attribute.hidden], ∀ e ∈ f.attributes.entries,
    attributeOf? e.1 = some (b.scope, b.name) → e.2.type = b.type)

/-- Without an entry for abstract features the value is the one that was stored first. -/
theorem valueOf_abstractKey
    (h : ∀ e ∈ f.attributes.entries, attributeOf? e.1 ≠ some abstractKey) :
    abstractValue f = valueOf f.attributes.entries abstractKey := by
  rw [valueOf_of_forall_ne h]
  apply (abstractValue_cases f).resolve_right
  intro hmem
  have hkey : attributeOf? Attribute.abstract.name = some abstractKey := by decide
  exact h _ hmem hkey

/-- The last value that is stored for an attribute is the one of its last entry. -/
theorem getLast?_stored {k : Option String × String}
    (hk : k ∈ abstractKey :: f.attributes.entries.filterMap (fun e => attributeOf? e.1)) :
    ((stored f).filter (fun p => (p.1.scope, p.1.name) = k)).getLast?.map Prod.snd =
      some (valueOf f.attributes.entries k) := by
  rw [stored]
  have hlast := congrArg List.getLast? (filter_assignments f.attributes.entries k)
  rw [List.getLast?_map, List.getLast?_map] at hlast
  have hstored (h : ∃ e ∈ f.attributes.entries, attributeOf? e.1 = some k) :
      ((f.attributes.entries.filterMap assignment?).filter
        (fun p => (p.1.scope, p.1.name) = k)).getLast?.map Prod.snd =
        some (valueOf f.attributes.entries k) := by
    obtain ⟨e, -, -, hentry, hvalue⟩ := exists_valueOf h
    rw [hlast, hentry, hvalue]
  by_cases hfirst : abstractKey = k
  · subst hfirst
    rw [List.filter_cons_of_pos (by simp [abstractKey]), List.getLast?_cons, Option.map_some]
    -- The value that is stored first counts only if it is the only one.
    by_cases h : ∃ e ∈ f.attributes.entries, attributeOf? e.1 = some abstractKey
    · obtain ⟨p, hp, hvalue⟩ := Option.map_eq_some_iff.mp (hstored h)
      rw [hp, Option.getD_some, hvalue]
    · have hnone : ∀ e ∈ f.attributes.entries, attributeOf? e.1 ≠ some abstractKey :=
        fun e he hkey => h ⟨e, he, hkey⟩
      rw [getLast?_of_forall_ne hnone, Option.map_eq_none_iff] at hlast
      rw [hlast, Option.getD_none, valueOf_abstractKey hnone]
  · have hother : ¬(Attribute.abstract.scope, Attribute.abstract.name) = k := hfirst
    rw [List.filter_cons_of_neg (by simpa using hother)]
    obtain ⟨e, he, hkey⟩ :=
      List.mem_filterMap.mp ((List.mem_cons.mp hk).resolve_left (Ne.symm hfirst))
    exact hstored ⟨e, he, hkey⟩

include hb

theorem type_valueOf_abstractKey :
    (valueOf f.attributes.entries abstractKey).type = Attribute.abstract.type := by
  by_cases h : ∃ e ∈ f.attributes.entries, attributeOf? e.1 = some abstractKey
  · obtain ⟨e, he, hk⟩ := h
    rw [type_valueOf hb he hk, hb _ List.mem_cons_self e he hk]
  · rw [valueOf_of_forall_ne (fun e he hk => h ⟨e, he, hk⟩)]
    rfl

/-- The attributes that values are stored for, one after the other. -/
theorem map_fst_stored :
    (stored f).map Prod.fst =
      (abstractKey :: f.attributes.entries.filterMap (fun e => attributeOf? e.1)).map
        (attributeFor f.attributes.entries) := by
  have hfirst : attributeFor f.attributes.entries abstractKey = .abstract := by
    rw [attributeFor, type_valueOf_abstractKey hb]
    rfl
  rw [stored, List.map_cons, List.map_cons, hfirst, List.map_filterMap, List.map_filterMap]
  congr 1
  apply List.filterMap_congr
  intro e he
  rw [assignment?]
  cases hkey : attributeOf? e.1 with
  | none => rfl
  | some k =>
    rw [Option.map_some, Option.map_some, Option.map_some, attributeFor, type_valueOf hb he hkey]

/-- The table of what is stored has one value for each attribute. -/
theorem entries_stored :
    (Table.ofList (stored f)).entries =
      (attributesOf f.attributes.entries).map (fun k =>
        (attributeFor f.attributes.entries k, valueOf f.attributes.entries k)) := by
  have hfst := map_fst_stored hb
  have hvalues : (Table.ofList (stored f)).entries =
      ((stored f).map Prod.fst).eraseDups.map
        (fun a => (a, valueOf f.attributes.entries (a.scope, a.name))) := by
    apply Table.entries_ofList_eq_map
    intro a ha
    rw [hfst] at ha
    obtain ⟨k, hk, rfl⟩ := List.mem_map.mp ha
    show _ = some (valueOf f.attributes.entries k)
    rw [← getLast?_stored hk]
    congr 2
    apply List.filter_congr
    intro p hp
    -- What is stored for the scope and the name is stored for the attribute.
    have hmem := List.mem_map_of_mem (f := Prod.fst) hp
    rw [hfst] at hmem
    obtain ⟨k', -, hk'⟩ := List.mem_map.mp hmem
    rw [← hk', decide_eq_decide]
    exact ⟨attributeFor_injective k' k, congrArg _⟩
  rw [hvalues, hfst, eraseDups_map attributeFor_injective, List.map_map, List.eraseDups_cons,
    attributesOf]
  congr 3
  apply List.filter_congr
  intro k _
  rw [Bool.eq_iff_iff]
  simp

end

/-- The values that a feature gets for a built-in attribute are truth values. -/
theorem addFeature_builtIn {n : Nat} {f : Document.Feature n} (hb : m.registry.HasBuiltIns)
    (hrun : addFeature f m = .ok name m') :
    ∀ b ∈ [Attribute.abstract, Attribute.hidden], ∀ e ∈ f.attributes.entries,
      attributeOf? e.1 = some (b.scope, b.name) → e.2.type = b.type := by
  obtain ⟨rfl, _, m₁, hadd, _, m₂, hvalue, _, m₃, hattributes, -⟩ := addFeature_iff.mp hrun
  have hb₂ : m₂.registry.HasBuiltIns := by
    obtain ⟨-, -, rfl⟩ := FeatureModel.addFeature_iff.mp hadd
    obtain ⟨-, rfl⟩ := setValue_iff.mp hvalue
    exact hb
  exact fun b hmem => setAttributes_builtIn hb₂ hattributes hmem

/-- Every key of a feature that is built stands for an attribute, and the feature has these
attributes and that of abstract features. The latter is the first one, the others follow in the
order of their first keys, and each of them has the value of its last key. Different keys stand for
one attribute only if it is a built-in one, with and without its scope. -/
theorem addFeature_values {n : Nat} {f : Document.Feature n} (hb : m.registry.HasBuiltIns)
    (hrun : addFeature f m = .ok name m') :
    (∀ e ∈ f.attributes.entries, ∃ k, attributeOf? e.1 = some k) ∧
    (∃ g, m'.features.find? f.fullName = some g ∧
      g.attributes.entries = (attributesOf f.attributes.entries).map (fun k =>
        (attributeFor f.attributes.entries k, valueOf f.attributes.entries k))) ∧
    ∀ key key' : String, key ≠ key' →
      ((∃ k, attributeOf? key = some k ∧ attributeOf? key' = some k) ↔
        (key, key') ∈ synonyms) := by
  obtain ⟨rfl, -, -, hentries, g, hg, hstored⟩ := addFeature_holds hrun
  refine ⟨hentries, ⟨g, hg.find?_eq, ?_⟩, fun key key' => attributeOf?_eq_iff⟩
  rw [hstored, entries_stored (addFeature_builtIn hb hrun)]

/-- A feature that is abstract after all, and has an attribute with a colon in its name. -/
def overridden : Document.Feature 0 where
  name := some "F"
  attributes := .ofList [("vendor:price", .int 3), ("abstract", .bool false), ("a::b", .text "c"),
    ("feature_model:abstract", .bool true)]

theorem addFeature_values_overridden :
    (FeatureModel.registry {}).HasBuiltIns ∧
    ∃ m', addFeature overridden {} = .ok (some "F") m' ∧
      ∃ g, m'.features.find? (some "F") = some g ∧
        g.attributes.entries = [(.abstract, .bool true), (⟨some "vendor", "price", .int⟩, .int 3),
          (⟨none, "a:b", .text⟩, .text "c")] := by
  have hb : (FeatureModel.registry {}).HasBuiltIns := AttributeRegistry.hasBuiltIns_builtIn
  have hname : (match addFeature overridden {} with | .ok name _ => name | .error _ _ => none) =
      some "F" := by decide +kernel
  cases hrun : addFeature overridden {} with
  | error e m' =>
    rw [hrun] at hname
    cases hname
  | ok name m' =>
    rw [hrun] at hname
    obtain rfl : name = some "F" := hname
    obtain ⟨-, ⟨g, hg, hentries⟩, -⟩ := addFeature_values hb hrun
    exact ⟨hb, m', rfl, g, hg, hentries.trans rfl⟩

end Variability.Build
