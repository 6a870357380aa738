import Variability.Build.Feature
import Variability.Proofs.FeatureModel.Operations
import Variability.Proofs.Table

/-!
What building one feature does to a model.

A run of a construction that succeeds is taken apart into the runs of its
parts, among them operations on the model (`onModel_eq_ok`). Building a feature
registers one new name after the others and leaves the tree alone
(`addFeature_eq_ok`); the attributes are stored under names that are registered
(`Unmoved`).
-/

namespace Variability

namespace Build

open Edit

variable {α β ε : Type} {m m' : FeatureModel}

/-! ## Runs that succeed -/

theorem orThrow_eq_ok {cause : ε → Error} {x : Except ε α} {a : α} :
    orThrow cause x m = .ok a m' ↔ x = .ok a ∧ m = m' := by
  cases x with
  | ok b => rw [orThrow, pure_eq_ok, Except.ok.injEq]
  | error e => rw [orThrow, throw_eq_ok]; simp

theorem orThrow_bind_eq_ok {cause : ε → Error} {x : Except ε α} {k : α → Build β} {b : β} :
    (orThrow cause x >>= k) m = .ok b m' ↔ ∃ a, x = .ok a ∧ k a m = .ok b m' := by
  constructor
  · intro h
    obtain ⟨a, m₁, hthrow, h⟩ := bind_eq_ok.mp h
    obtain ⟨hx, rfl⟩ := orThrow_eq_ok.mp hthrow
    exact ⟨a, hx, h⟩
  · rintro ⟨a, hx, h⟩
    exact bind_eq_ok.mpr ⟨a, m, orThrow_eq_ok.mpr ⟨hx, rfl⟩, h⟩

theorem onModel_eq_ok {op : Edit FeatureModel.Error α} {a : α} :
    onModel op m = .ok a m' ↔ op m = .ok a m' := by
  rw [onModel, EStateM.adaptExcept]
  cases op m <;> simp

theorem onModel_bind_eq_ok {op : Edit FeatureModel.Error α} {k : α → Build β} {b : β} :
    (onModel op >>= k) m = .ok b m' ↔ ∃ a m₁, op m = .ok a m₁ ∧ k a m₁ = .ok b m' := by
  simp only [bind_eq_ok, onModel_eq_ok]

end Build

/-! ## Features under their names -/

namespace FeatureModel

/-- Every feature is stored under its own name. -/
def Named (m : FeatureModel) : Prop := ∀ name f, m.features.find? name = some f → f.name = name

/-- The two models have the same tree, the same constraints and the same names of features, and
their features are stored under their own names. -/
structure Unmoved (m m' : FeatureModel) : Prop where
  nodes : m'.nodes = m.nodes
  root : m'.root = m.root
  constraints : m'.constraints = m.constraints
  keys : m'.features.keys = m.features.keys
  named : m'.Named

theorem named_empty : Named {} := fun _ _ hf => nomatch hf

variable {m m₁ m₂ : FeatureModel}

theorem Unmoved.refl (h : m.Named) : Unmoved m m := ⟨rfl, rfl, rfl, rfl, h⟩

theorem Unmoved.trans (h₁ : Unmoved m m₁) (h₂ : Unmoved m₁ m₂) : Unmoved m m₂ :=
  ⟨h₂.nodes.trans h₁.nodes, h₂.root.trans h₁.root, h₂.constraints.trans h₁.constraints,
    h₂.keys.trans h₁.keys, h₂.named⟩

theorem name_featureOf (h : m.Named) (name : Option String) :
    (m.featureOf (.registered name)).name = name := by
  rw [featureOf]
  cases hf : m.features.find? name with
  | none => rfl
  | some f => exact h name f hf

theorem named_insert (h : m.Named) {name : Option String} {f : Feature} (hf : f.name = name) :
    { m with features := m.features.insert name f }.Named := by
  intro name' f' hf'
  rw [Table.find?_insert] at hf'
  split at hf'
  · next he => rw [← Option.some.inj hf', hf, he]
  · exact h name' f' hf'

/-- The second model has the tree and the constraints of the first one, and one more name of a
feature, after the others. -/
structure Registered (m m' : FeatureModel) (name : Option String) : Prop where
  new : name ∉ m.features.keys
  nodes : m'.nodes = m.nodes
  root : m'.root = m.root
  constraints : m'.constraints = m.constraints
  keys : m'.features.keys = m.features.keys ++ [name]
  named : m'.Named

theorem Registered.mem {name : Option String} (h : Registered m m₁ name) :
    name ∈ m₁.features.keys := by
  rw [h.keys]
  exact List.mem_append_right _ (List.mem_singleton_self name)

theorem Registered.trans {name : Option String} (h₁ : Registered m m₁ name)
    (h₂ : Unmoved m₁ m₂) : Registered m m₂ name :=
  ⟨h₁.new, h₂.nodes.trans h₁.nodes, h₂.root.trans h₁.root, h₂.constraints.trans h₁.constraints,
    h₂.keys.trans h₁.keys, h₂.named⟩

theorem registered_addFeature (h : m.Named) {name : Option String} {type : FeatureType}
    {f : Feature} (hadd : addFeature name type m = .ok f m₁) : Registered m m₁ name := by
  obtain ⟨hc, rfl, rfl⟩ := addFeature_iff.mp hadd
  have hnew : name ∉ m.features.keys := by
    intro hk
    rw [Table.contains_iff.mpr hk] at hc
    cases hc
  refine ⟨hnew, rfl, rfl, rfl, ?_, named_insert h rfl⟩
  show (m.features.insert name _).keys = m.features.keys ++ [name]
  rw [Table.keys_insert, appendNew, if_neg hnew]

/-- Storing a feature whose name is registered changes no names. -/
theorem unmoved_storeFeature (h : m.Named) {f : Feature} (hf : f.name ∈ m.features.keys) :
    Unmoved m (m.storeFeature f) where
  nodes := rfl
  root := rfl
  constraints := rfl
  keys := by rw [storeFeature, Table.keys_insert, appendNew, if_pos hf]
  named := named_insert h rfl

end FeatureModel

namespace Build

open Edit
open FeatureModel (Named Unmoved)

variable {m m' : FeatureModel} {name : Option String}

/-! ## The attributes of a feature -/

theorem declare_iff {scope : Option String} {key : String} {type : ValueType} {a : Attribute} :
    declare scope key type m = .ok a m' ↔
      ∃ registry, m.registry.declare scope key type = .ok (a, registry) ∧
        { m with registry } = m' := by
  rw [declare, get_bind, orThrow_bind_eq_ok]
  constructor
  · rintro ⟨⟨b, registry⟩, hdeclare, h⟩
    obtain ⟨rfl, rfl⟩ := pure_eq_ok.mp h
    exact ⟨registry, hdeclare, rfl⟩
  · rintro ⟨registry, hdeclare, rfl⟩
    exact ⟨(a, registry), hdeclare, rfl⟩

/-- The attribute of a key is a built-in one, or one that is declared with the type. -/
theorem resolveAttribute_iff {key : String} {type : ValueType} {a : Attribute} :
    resolveAttribute key type m = .ok a m' ↔
      (Attribute.ofPlainKey? key = some a ∧ m = m') ∨
        (Attribute.ofPlainKey? key = none ∧ ∃ scope name,
          AttributeKey.decode? key = some (scope, name) ∧
            declare scope name type m = .ok a m') := by
  unfold resolveAttribute
  cases Attribute.ofPlainKey? key with
  | some b => simp [pure_eq_ok]
  | none => cases AttributeKey.decode? key <;> simp [throw_eq_ok, Prod.ext_iff, and_assoc]

theorem feature_setValue_eq_ok {f g : Feature} {a : Attribute} {value : Value} :
    f.setValue a value = .ok g ↔
      value.type = a.type ∧ { f with attributes := f.attributes.insert a value } = g := by
  rw [Feature.setValue, Attribute.cast]
  split
  · next h => simp [h, bind, Except.bind, pure, Except.pure]
  · next h => simp [h, bind, Except.bind]

/-- A value is stored iff it has the type of the attribute. -/
theorem setValue_iff {a : Attribute} {value : Value} {u : Unit} :
    setValue name a value m = .ok u m' ↔
      value.type = a.type ∧ m.storeFeature
        { m.featureOf (.registered name) with
          attributes := (m.featureOf (.registered name)).attributes.insert a value } = m' := by
  rw [setValue, get_bind, orThrow_bind_eq_ok]
  simp only [feature_setValue_eq_ok, set_eq_ok, and_assoc, exists_and_left, exists_eq_left']

theorem setAttributes_cons {key : String} {value : Value} {rest : List (String × Value)}
    {u : Unit} :
    setAttributes name ((key, value) :: rest) m = .ok u m' ↔
      value.isPresent = true ∧ ∃ a m₁, resolveAttribute key value.type m = .ok a m₁ ∧
        ∃ v m₂, setValue name a value m₁ = .ok v m₂ ∧ setAttributes name rest m₂ = .ok u m' := by
  rw [setAttributes]
  split
  · next h => simp only [h, bind_eq_ok, true_and]
  · next h => simp [h, throw_eq_ok]

theorem declare_eq_ok (hm : m.Named) {scope : Option String} {key : String}
    {type : ValueType} {a : Attribute} (h : declare scope key type m = .ok a m') :
    Unmoved m m' := by
  obtain ⟨registry, -, rfl⟩ := declare_iff.mp h
  exact ⟨rfl, rfl, rfl, rfl, hm⟩

theorem resolveAttribute_eq_ok (hm : m.Named) {key : String} {type : ValueType} {a : Attribute}
    (h : resolveAttribute key type m = .ok a m') : Unmoved m m' := by
  rcases resolveAttribute_iff.mp h with ⟨-, rfl⟩ | ⟨-, scope, name, -, h⟩
  · exact .refl hm
  · exact declare_eq_ok hm h

theorem setValue_eq_ok (hm : m.Named) (hname : name ∈ m.features.keys) {a : Attribute}
    {value : Value} {u : Unit} (h : setValue name a value m = .ok u m') : Unmoved m m' := by
  obtain ⟨-, rfl⟩ := setValue_iff.mp h
  -- A feature keeps its name when it gets a value.
  have hkey : (m.featureOf (.registered name)).name ∈ m.features.keys := by
    rw [FeatureModel.name_featureOf hm]
    exact hname
  exact FeatureModel.unmoved_storeFeature hm hkey

theorem setAttributes_eq_ok (hm : m.Named) (hname : name ∈ m.features.keys)
    {attributes : List (String × Value)} {u : Unit}
    (h : setAttributes name attributes m = .ok u m') : Unmoved m m' := by
  induction attributes generalizing m with
  | nil =>
    obtain ⟨-, rfl⟩ := pure_eq_ok.mp h
    exact .refl hm
  | cons entry rest ih =>
    obtain ⟨-, a, m₁, hresolve, v, m₂, hset, h⟩ := setAttributes_cons.mp h
    have h₁ := resolveAttribute_eq_ok hm hresolve
    have h₂ := h₁.trans (setValue_eq_ok h₁.named (h₁.keys ▸ hname) hset)
    exact h₂.trans (ih h₂.named (h₂.keys ▸ hname) h)

/-! ## A feature -/

/-- A feature is built iff the model takes its name, its attributes can be stored under it and it
has a type. -/
theorem addFeature_iff {n : Nat} {f : Document.Feature n} :
    addFeature f m = .ok name m' ↔
      f.fullName = name ∧ ∃ g m₁, FeatureModel.addFeature f.fullName .boolean m = .ok g m₁ ∧
        ∃ u m₂, setValue f.fullName .abstract (abstractValue f) m₁ = .ok u m₂ ∧
        ∃ u m₃, setAttributes f.fullName f.attributes.entries m₂ = .ok u m₃ ∧
        ∃ type, featureType f.type = .ok type ∧
          m₃.storeFeature { m₃.featureOf (.registered f.fullName) with type } = m' := by
  rw [addFeature, get_bind]
  split
  · next h =>
    -- A name that is taken is refused before the model could refuse it.
    simp [bind_eq_ok, throw_eq_ok, FeatureModel.addFeature_iff, h]
  · simp only [bind_eq_ok, onModel_eq_ok, orThrow_eq_ok, modify_eq_ok, pure_eq_ok]
    constructor
    · rintro ⟨g, m₁, hadd, u, m₂, hvalue, u', m₃, hrest, type, m₄, ⟨htype, rfl⟩, v, m₅, rfl, rfl,
        rfl⟩
      exact ⟨rfl, g, m₁, hadd, u, m₂, hvalue, u', m₃, hrest, type, htype, rfl⟩
    · rintro ⟨rfl, g, m₁, hadd, u, m₂, hvalue, u', m₃, hrest, type, htype, rfl⟩
      exact ⟨g, m₁, hadd, u, m₂, hvalue, u', m₃, hrest, type, m₃, ⟨htype, rfl⟩, .unit, _, rfl, rfl,
        rfl⟩

/-- A feature that is built has a new name, which is registered after the others. -/
theorem addFeature_eq_ok (hm : m.Named) {n : Nat} {f : Document.Feature n}
    (h : addFeature f m = .ok name m') :
    name = f.fullName ∧ FeatureModel.Registered m m' name := by
  obtain ⟨rfl, _, m₁, hadd, _, m₂, habstract, _, m₃, hattributes, type, -, rfl⟩ :=
    addFeature_iff.mp h
  -- The name is registered first, and what follows only changes the feature under it.
  have h₁ := FeatureModel.registered_addFeature hm hadd
  have h₂ := h₁.trans (setValue_eq_ok h₁.named h₁.mem habstract)
  have h₃ := h₂.trans (setAttributes_eq_ok h₂.named h₂.mem hattributes)
  have hname : (m₃.featureOf (.registered f.fullName)).name ∈ m₃.features.keys := by
    rw [FeatureModel.name_featureOf h₃.named]
    exact h₃.mem
  exact ⟨rfl, h₃.trans (FeatureModel.unmoved_storeFeature h₃.named hname)⟩

end Build

end Variability
