import Variability.Proofs.Build.Run
import Variability.Proofs.Value

/-!
Why a construction fails.

What can be wrong with a document is stated without a run: with the ends of a
bound, with a feature and its attributes, with a group (`Document.Fault`). A
construction that fails does so with such a fault of a feature that can be
reached (`tree_fails`), so it never fails because the model refuses an operation.
In two cases the error that reaches the caller is not among those that a
construction is meant to report (`toFeatureModel_fails`): an infinite bound is no
whole number, and is not refused as an invalid one; and where the message would
hold a whole number of too many digits, it is the message that fails.
-/

namespace Variability

/-! ## Faults of bounds -/

/-- The value is an infinite number. -/
inductive Value.IsInfinite : Value → Prop
  | float {x : Float} {negative : Bool} (h : Number.Binary.ofFloat x = .infinite negative) :
      IsInfinite (.float x)

theorem Value.isInfinite_of_toInteger {v : Value} (h : v.toInteger = .error .infinite) :
    v.IsInfinite := by
  cases v with
  | float x =>
    simp only [toInteger] at h
    split at h
    · cases h
    · next hx => exact .float hx
    · cases h
  | text s =>
    simp only [toInteger] at h
    split at h <;> cases h
  | null | bool | int | list | dict => cases h

namespace Build

/-- The value stands for no natural number. -/
inductive EndFault (v : Value) (context : String) : BoundError → Prop
  | invalid (h : v.toInteger = .error .notNumeric) : EndFault v context (.invalid v context)
  | negative {n : Int} (h : v.toInteger = .ok n) (hn : n < 0) :
      EndFault v context (.negative v context)
  | infinite (h : v.IsInfinite) : EndFault v context .infinite

/-- The value stands neither for a natural number nor for no upper end. -/
structure UpperFault (v : Value) (context : String) (e : BoundError) : Prop where
  present : v ≠ .null
  bounded : v ≠ .text "*"
  fault : EndFault v context e

/-- The values do not stand for the ends of a range. -/
inductive BoundFault (lower upper : Value) (context : String) : BoundError → Prop
  | lower {e : BoundError} (h : EndFault lower context e) : BoundFault lower upper context e
  | upper {e : BoundError} (h : UpperFault upper context e) : BoundFault lower upper context e
  | inverted {l u : Nat} (hl : lower.toInteger = .ok (l : Int))
      (hu : upper.toInteger = .ok (u : Int)) (h : u < l) :
      BoundFault lower upper context (.inverted l u context)

variable {context : String} {e : BoundError}

theorem natural_eq_error {v : Value} (h : natural v context = .error e) :
    EndFault v context e := by
  unfold natural at h
  split at h
  · next n hn =>
    split at h
    · cases h
    · next hneg =>
      cases h
      exact .negative hn (Int.not_le.mp hneg)
  · next hn =>
    cases h
    exact .invalid hn
  · next hn =>
    cases h
    exact .infinite (Value.isInfinite_of_toInteger hn)

theorem bind_eq_error {ε α β : Type} {x : Except ε α} {f : α → Except ε β} {e : ε}
    (h : (x >>= f) = .error e) : x = .error e ∨ ∃ a, x = .ok a ∧ f a = .error e := by
  cases x with
  | error e' => exact .inl (congrArg Except.error (Except.error.inj h))
  | ok a => exact .inr ⟨a, rfl, h⟩

theorem upperEnd_eq_error {v : Value} (h : upperEnd v context = .error e) :
    UpperFault v context e := by
  unfold upperEnd at h
  split at h
  · cases h
  · next hv =>
    rw [unbounded_iff, not_or] at hv
    refine ⟨hv.1, hv.2, ?_⟩
    rcases bind_eq_error h with h | ⟨u, -, h⟩
    · exact natural_eq_error h
    · cases h

theorem rangeBetween_eq_error {lower : Nat} {upper : Option Nat}
    (h : rangeBetween lower upper context = .error e) :
    ∃ u, upper = some u ∧ u < lower ∧ e = .inverted lower u context := by
  unfold rangeBetween at h
  split at h
  · cases h
  · next hnone =>
    cases h
    cases upper with
    | none => cases hnone
    | some u =>
      have hlt : u < lower := by simpa [Range.between?] using hnone
      exact ⟨u, rfl, hlt, rfl⟩

theorem between_eq_error {lower upper : Value}
    (h : (do
      let l ← natural lower context
      let u ← upperEnd upper context
      rangeBetween l u context) = .error e) : BoundFault lower upper context e := by
  rcases bind_eq_error h with h | ⟨l, hl, h⟩
  · exact .lower (natural_eq_error h)
  rcases bind_eq_error h with h | ⟨u, hu, h⟩
  · exact .upper (upperEnd_eq_error h)
  obtain ⟨u, rfl, hlt, rfl⟩ := rangeBetween_eq_error h
  cases upperEnd_eq_ok.mp hu with
  | natural hu => exact .inverted (natural_eq_ok.mp hl) hu hlt

/-- The bounds of a feature stand for no cardinality. -/
inductive FeatureBoundFault (lower upper : Value) (context : String) : BoundError → Prop
  | both {e : BoundError} (hl : lower ≠ .null) (h : BoundFault lower upper context e) :
      FeatureBoundFault lower upper context e
  | upTo {e : BoundError} (hl : lower = .null) (h : UpperFault upper context e) :
      FeatureBoundFault lower upper context e

theorem boundedCardinality_eq_error {n : Nat} {f : Document.Feature n}
    (h : boundedCardinality f = .error e) :
    FeatureBoundFault f.lower f.upper (nameText f.name) e := by
  unfold boundedCardinality at h
  dsimp only at h
  split at h
  · next hl => exact .both (isPresent_iff.mp hl) (between_eq_error h)
  · next hl =>
    split at h
    · rcases bind_eq_error h with h | ⟨u, -, h⟩
      · exact .upTo (eq_null_of_not_isPresent hl) (upperEnd_eq_error h)
      · cases h
    · cases h

variable {d : Document}

theorem featureCardinality_eq_error {i : Fin d.count} (h : featureCardinality d i = .error e) :
    ¬HasKind d i .mandatory ∧ ¬HasKind d i .optional ∧
      FeatureBoundFault (d.feature i).lower (d.feature i).upper
        (nameText (d.feature i).name) e := by
  unfold featureCardinality at h
  split at h
  · cases h
  · cases h
  · next hm ho =>
    exact ⟨fun hk => hm (hasKind_iff.mp hk), fun hk => ho (hasKind_iff.mp hk),
      boundedCardinality_eq_error h⟩

/-! ## Faults of groups -/

/-- A group below a feature with the given name has no range. -/
inductive GroupFault {n : Nat} (owner : Option String) (g : Document.Group n) : Error → Prop
  | unknownKind (h : ∀ k : GroupKind, g.kind ≠ .text k.name) :
      GroupFault owner g (.unknownKind g.kind)
  | bounds {e : BoundError} (hkind : g.kind = .text GroupKind.cardinality.name)
      (h : BoundFault g.lower g.upper ("group cardinality of " ++ nameText owner) e) :
      GroupFault owner g (.bound e)

theorem mapError_eq_error {ε ε' α : Type} {f : ε → ε'} {x : Except ε α} {e' : ε'}
    (h : x.mapError f = .error e') : ∃ e, x = .error e ∧ f e = e' := by
  cases x with
  | ok a => cases h
  | error e => exact ⟨e, rfl, Except.error.inj h⟩

theorem groupRange_eq_error {n : Nat} {owner : Option String} {g : Document.Group n} {e : Error}
    (h : groupRange owner g = .error e) : GroupFault owner g e := by
  unfold groupRange at h
  split at h
  · cases h
  · cases h
  · cases h
  · cases h
  · next hkind =>
    obtain ⟨e, he, rfl⟩ := mapError_eq_error h
    exact .bounds (GroupKind.ofValue?_eq_some.mp hkind) (between_eq_error he)
  · next hkind =>
    cases h
    refine .unknownKind fun k hk => ?_
    rw [GroupKind.ofValue?_eq_some.mpr hk] at hkind
    cases hkind

/-! ## Faults of features -/

/-- Something is wrong with the name, the attributes or the type of a feature. -/
inductive FeatureFault {n : Nat} (f : Document.Feature n) : Error → Prop
  | duplicateName : FeatureFault f (.duplicateName f.fullName)
  | missingValue {key : String} (h : (key, .null) ∈ f.attributes.entries) :
      FeatureFault f (.missingValue key f.fullName)
  | invalidKey {key : String} {value : Value} (h : (key, value) ∈ f.attributes.entries)
      (hkey : attributeOf? key = none) : FeatureFault f (.invalidKey key)
  | mismatch {key : String} {value : Value} {a : Attribute}
      (h : (key, value) ∈ f.attributes.entries) (ha : Attribute.ofPlainKey? key = some a)
      (htype : value.type ≠ a.type) : FeatureFault f (.attributeType (.mismatch a value))
  | conflict {key : String} {value : Value} {a : Attribute}
      (h : (key, value) ∈ f.attributes.entries) (ha : attributeOf? key = some (a.scope, a.name))
      (htype : value.type ≠ a.type) : FeatureFault f (.attributeType (.conflict a value.type))
  | unknownType (h : ∀ t, ¬Declares f.type t) : FeatureFault f (.unknownType f.type)

section
variable {n : Nat} {f : Document.Feature n} {m : FeatureModel}

theorem declare_eq_error {r : AttributeRegistry} {scope : Option String} {name : String}
    {type : ValueType} {e : Attribute.Error} (h : r.declare scope name type = .error e) :
    ∃ declared, declared ≠ type ∧ e = .conflict ⟨scope, name, declared⟩ type := by
  unfold AttributeRegistry.declare at h
  split at h
  · cases h
  · next declared _ =>
    split at h
    · cases h
    · next hne =>
      cases h
      exact ⟨declared, hne, rfl⟩

/-- The attribute of a key is a built-in one, or one with the type of the value. -/
theorem resolveAttribute_ends {key : String} {value : Value}
    (h : (key, value) ∈ f.attributes.entries) :
    Ends (resolveAttribute key value.type) m
      (fun a _ => Attribute.ofPlainKey? key = some a ∨ value.type = a.type) (FeatureFault f) := by
  unfold resolveAttribute
  split
  · next a ha => exact .pure (.inl ha)
  · next hplain =>
    have hkey : attributeOf? key = AttributeKey.decode? key := by rw [attributeOf?, hplain]
    split
    · next hnone => exact .fail (.invalidKey h (hkey.trans hnone))
    · next scope name hsome =>
      refine .get_bind (.orThrow_bind ?_ ?_)
      · intro e he
        obtain ⟨declared, hne, rfl⟩ := declare_eq_error he
        exact .conflict h (hkey.trans hsome) hne.symm
      · rintro ⟨a, registry⟩ ha
        obtain ⟨rfl, -, -⟩ := AttributeRegistry.declare_eq_ok ha
        exact .set_bind (.pure (.inr rfl))

theorem setValue_ends {name : Option String} {a : Attribute} {value : Value}
    {fault : Error → Prop}
    (h : value.type ≠ a.type → fault (.attributeType (.mismatch a value))) :
    Ends (setValue name a value) m (fun _ _ => True) fault := by
  refine .get_bind (.orThrow_bind ?_ (fun g _ => trivial))
  intro e he
  rw [Feature.setValue, Attribute.cast] at he
  split at he
  · cases he
  · next hne =>
    cases he
    exact h hne

theorem setAttributes_ends {entries : List (String × Value)}
    (h : ∀ e ∈ entries, e ∈ f.attributes.entries) :
    Ends (setAttributes f.fullName entries) m (fun _ _ => True) (FeatureFault f) := by
  induction entries generalizing m with
  | nil => exact .pure trivial
  | cons entry rest ih =>
    obtain ⟨key, value⟩ := entry
    obtain ⟨hmem, hrest⟩ := List.forall_mem_cons.mp h
    rw [setAttributes]
    split
    · apply (resolveAttribute_ends hmem).bind
      intro a m₁ _ ha
      -- An attribute that is declared for the value has its type.
      apply (setValue_ends (fun hne => .mismatch hmem (ha.resolve_right hne) hne)).bind
      exact fun _ _ _ _ => ih hrest
    · next hv =>
      rw [eq_null_of_not_isPresent hv] at hmem
      exact .fail (.missingValue hmem)

/-- The default is a truth value, so only a value of the document can be a wrong one. -/
theorem abstractValue_fault (h : (abstractValue f).type ≠ Attribute.abstract.type) :
    FeatureFault f (.attributeType (.mismatch .abstract (abstractValue f))) := by
  rcases abstractValue_cases f with hfalse | hmem
  · rw [hfalse] at h
    exact absurd rfl h
  · exact .mismatch hmem (by decide) h

theorem featureType_eq_error {e : Error} (h : featureType f.type = .error e) :
    FeatureFault f e := by
  have hnone : ∀ t, ¬Declares f.type t := by
    intro t ht
    rw [featureType_eq_ok.mpr ht] at h
    cases h
  unfold featureType at h
  split at h
  · split at h
    · cases h
    · cases h
      exact .unknownType hnone
  · cases h

theorem addFeature_ends (f : Document.Feature n) :
    Ends (addFeature f) m (fun _ _ => True) (FeatureFault f) := by
  rw [addFeature]
  apply Ends.get_bind
  dsimp only
  split
  · exact .fail_bind .duplicateName
  · next hnew =>
    -- A name that is free is free for the model, too.
    obtain ⟨_, m₁, hadd, -⟩ := addFeature_of_not_mem (fun hk => hnew (Table.contains_iff.mpr hk))
    refine .onModel_bind hadd ?_
    apply (setValue_ends abstractValue_fault).bind
    intro _ m₂ _ _
    apply (setAttributes_ends (fun e he => he)).bind
    intro _ m₃ _ _
    exact .orThrow_bind (fun e he => featureType_eq_error he) (fun type _ => trivial)

end

end Build

/-! ## Faults of documents -/

open Build

variable {d : Document} {e : Build.Error}

/-- Something is wrong with a feature that can be reached, with its bounds where they decide its
cardinality, or with one of its groups. -/
inductive Document.Fault (d : Document) : Build.Error → Prop
  | feature {i : Fin d.count} {e : Build.Error} (hi : d.Reached i)
      (h : FeatureFault (d.feature i) e) : d.Fault e
  | bounds {i : Fin d.count} {e : BoundError} (hi : d.Reached i) (hm : ¬HasKind d i .mandatory)
      (ho : ¬HasKind d i .optional)
      (h : FeatureBoundFault (d.feature i).lower (d.feature i).upper
        (nameText (d.feature i).name) e) :
      d.Fault (.bound e)
  | group {i : Fin d.count} {g : Document.Group d.count} {e : Build.Error} (hi : d.Reached i)
      (hg : g ∈ (d.feature i).groups) (h : GroupFault (d.feature i).name g e) : d.Fault e

namespace Build

/-- No operation on the model is refused, and what else can fail is a fault of the document. -/
theorem keeps_fault (d : Document) : Keeps d (fun _ => True) d.Fault where
  congr := fun _ _ h => h
  feature := fun hi _ _ => (addFeature_ends _).mono (fun _ _ h => h) (fun _ h => .feature hi h)
  cardinality := by
    intro i e hi he
    obtain ⟨hm, ho, h⟩ := featureCardinality_eq_error he
    exact .bounds hi hm ho h
  range := fun hi hg he => .group hi hg (groupRange_eq_error he)

theorem tree_fails {m : FeatureModel} (h : tree d {} = .error e m) : d.Fault e :=
  ((keeps_fault d).tree trivial).of_eq_error h

end Build

/-! ## Infinite bounds -/

/-- A bound of a feature that can be reached, or of one of its groups, is infinite. -/
def Document.HasInfiniteBound (d : Document) : Prop :=
  ∃ i, d.Reached i ∧ ((d.feature i).lower.IsInfinite ∨ (d.feature i).upper.IsInfinite ∨
    ∃ g ∈ (d.feature i).groups, g.lower.IsInfinite ∨ g.upper.IsInfinite)

namespace Build

section
variable {v lower upper : Value} {context : String}

theorem EndFault.isInfinite (h : EndFault v context .infinite) : v.IsInfinite := by
  cases h with
  | infinite h => exact h

theorem BoundFault.isInfinite (h : BoundFault lower upper context .infinite) :
    lower.IsInfinite ∨ upper.IsInfinite := by
  cases h with
  | lower h => exact .inl h.isInfinite
  | upper h => exact .inr h.fault.isInfinite

theorem FeatureBoundFault.isInfinite (h : FeatureBoundFault lower upper context .infinite) :
    lower.IsInfinite ∨ upper.IsInfinite := by
  cases h with
  | both _ h => exact h.isInfinite
  | upTo _ h => exact .inr h.fault.isInfinite

end

end Build

/-- A fault is an error of one of the two kinds that a construction is meant to report, but for an
infinite bound. -/
theorem Document.Fault.kind (h : d.Fault e) : e.kind = .parse ∨ e.kind = .attributeType ∨
    e = .bound .infinite ∧ d.HasInfiniteBound := by
  cases h with
  | feature hi h =>
    cases h with
    | duplicateName | missingValue | invalidKey | unknownType => exact .inl rfl
    | mismatch | conflict => exact .inr (.inl rfl)
  | @bounds i e hi _ _ h =>
    cases e with
    | infinite => exact .inr (.inr ⟨rfl, i, hi, h.isInfinite.imp_right .inl⟩)
    | invalid | negative | inverted => exact .inl rfl
  | @group i g e hi hg h =>
    cases h with
    | unknownKind => exact .inl rfl
    | @bounds e _ h =>
      cases e with
      | infinite => exact .inr (.inr ⟨rfl, i, hi, .inr (.inr ⟨g, hg, h.isInfinite⟩)⟩)
      | invalid | negative | inverted => exact .inl rfl

/-- No fault is one of the refusals of a model. -/
theorem Document.Fault.ne_model (h : d.Fault e) (refusal : FeatureModel.Error) :
    e ≠ .model refusal := by
  rintro rfl
  cases h with
  | feature _ h => cases h
  | group _ _ h => cases h

/-! ## Messages that cannot be written -/

/-- A whole number of too many digits stands in a bound, the type or an attribute of a feature that
can be reached, or in the kind or a bound of one of its groups. -/
def Document.HasLongNumber (d : Document) : Prop :=
  ∃ i, d.Reached i ∧ ((d.feature i).lower.HasLongNumber ∨ (d.feature i).upper.HasLongNumber ∨
    (d.feature i).type.HasLongNumber ∨
    (∃ e ∈ (d.feature i).attributes.entries, e.2.HasLongNumber) ∨
    ∃ g ∈ (d.feature i).groups,
      g.kind.HasLongNumber ∨ g.lower.HasLongNumber ∨ g.upper.HasLongNumber)

namespace Build

/-- A text that is made of another one is missing only if that one is. -/
theorem eq_none_of_bind {α β : Type} {x : Option α} {f : α → β}
    (h : (x >>= fun a => pure (f a)) = none) : x = none := by
  cases x with
  | none => rfl
  | some a => cases h

theorem eq_none_or_of_bind {α β γ : Type} {x : Option α} {y : Option β} {f : α → β → γ}
    (h : (x >>= fun a => y >>= fun b => pure (f a b)) = none) : x = none ∨ y = none := by
  cases x with
  | none => exact .inl rfl
  | some a => exact .inr (eq_none_of_bind h)

section
variable {v lower upper : Value} {context : String} {e : BoundError}

theorem EndFault.hasLongNumber (h : EndFault v context e) (hm : e.message? = none) :
    v.HasLongNumber := by
  rw [← Value.literal?_eq_none_iff]
  cases h with
  | invalid | negative => exact eq_none_of_bind hm
  | infinite => cases hm

/-- An end that is too long to be written is a whole number of the document: no text of so many
digits is read, and no double-precision number is that great. -/
theorem BoundFault.hasLongNumber (h : BoundFault lower upper context e) (hm : e.message? = none) :
    lower.HasLongNumber ∨ upper.HasLongNumber := by
  cases h with
  | lower h => exact .inl (h.hasLongNumber hm)
  | upper h => exact .inr (h.fault.hasLongNumber hm)
  | @inverted l u hl hu =>
    rcases eq_none_or_of_bind hm with hnone | hnone
    · exact .inl (Value.hasLongNumber_of_toInteger hl (Number.writeInteger?_eq_none_iff.mp hnone))
    · exact .inr (Value.hasLongNumber_of_toInteger hu (Number.writeInteger?_eq_none_iff.mp hnone))

theorem FeatureBoundFault.hasLongNumber (h : FeatureBoundFault lower upper context e)
    (hm : e.message? = none) : lower.HasLongNumber ∨ upper.HasLongNumber := by
  cases h with
  | both _ h => exact h.hasLongNumber hm
  | upTo _ h => exact .inr (h.fault.hasLongNumber hm)

end

section
variable {n : Nat} {f : Document.Feature n} {g : Document.Group n} {owner : Option String}
  {e : Error}

theorem GroupFault.hasLongNumber (h : GroupFault owner g e) (hm : e.message? = none) :
    g.kind.HasLongNumber ∨ g.lower.HasLongNumber ∨ g.upper.HasLongNumber := by
  cases h with
  | unknownKind => exact .inl ((Value.display?_eq_none_iff _).mp (eq_none_of_bind hm))
  | bounds _ h => exact .inr (h.hasLongNumber hm)

theorem FeatureFault.hasLongNumber (h : FeatureFault f e) (hm : e.message? = none) :
    f.type.HasLongNumber ∨ ∃ e ∈ f.attributes.entries, e.2.HasLongNumber := by
  cases h with
  | duplicateName | missingValue | invalidKey | conflict => cases hm
  | mismatch hmem =>
    exact .inr ⟨_, hmem, (Value.literal?_eq_none_iff _).mp (eq_none_of_bind hm)⟩
  | unknownType => exact .inl ((Value.display?_eq_none_iff _).mp (eq_none_of_bind hm))

end

end Build

theorem Document.Fault.hasLongNumber (h : d.Fault e) (hm : e.message? = none) :
    d.HasLongNumber := by
  cases h with
  | @feature i e hi h =>
    refine ⟨i, hi, .inr (.inr ?_)⟩
    exact (h.hasLongNumber hm).imp_right .inl
  | @bounds i e hi _ _ h =>
    exact ⟨i, hi, (h.hasLongNumber hm).imp_right .inl⟩
  | @group i g e hi hg h =>
    exact ⟨i, hi, .inr (.inr (.inr (.inr ⟨g, hg, h.hasLongNumber hm⟩)))⟩

/-! ## What reaches the caller -/

/-- The errors that a construction is meant to report. It is not meant to fail because the model
refuses an operation, while it makes a whole number of a bound, or while it writes a message. -/
def Build.Error.IsDocumented (e : Build.Error) : Prop :=
  e.raised.kind = .parse ∨ e.raised.kind = .attributeType

theorem Build.Error.raised_of_none (h : e.message? = none) :
    e.raised = ⟨.value, Number.tooLongText⟩ := by
  rw [raised, h]
  rfl

theorem Build.Error.kind_raised (h : e.message? ≠ none) : e.raised.kind = e.kind := by
  obtain ⟨message, hmessage⟩ := Option.ne_none_iff_exists'.mp h
  rw [raised, hmessage]
  rfl

/-- A document from which no model is built has a fault, and no operation on the model was refused.
The error that reaches the caller is one that a construction is meant to report, unless a bound is
infinite, or the message would hold a whole number of too many digits. -/
theorem Document.toFeatureModel_fails (h : d.toFeatureModel = .error e) :
    d.Fault e ∧ (∀ refusal, e ≠ .model refusal) ∧ (e.IsDocumented ∨
      e = .bound .infinite ∧ e.raised.kind = .overflow ∧ d.HasInfiniteBound ∨
      e.raised = ⟨.value, Number.tooLongText⟩ ∧ d.HasLongNumber) := by
  obtain ⟨m, hrun⟩ := toFeatureModel_eq_error.mp h
  have hfault := tree_fails hrun
  refine ⟨hfault, hfault.ne_model, ?_⟩
  by_cases hm : e.message? = none
  · exact .inr (.inr ⟨Build.Error.raised_of_none hm, hfault.hasLongNumber hm⟩)
  · rw [Build.Error.IsDocumented, Build.Error.kind_raised hm]
    rcases hfault.kind with hkind | hkind | ⟨rfl, hinfinite⟩
    · exact .inl (.inl hkind)
    · exact .inl (.inr hkind)
    · exact .inr (.inl ⟨rfl, rfl, hinfinite⟩)

/-- A feature with a group of no kind. -/
def Document.groupOfNoKind : Document where
  count := 1
  features := #v[{ name := some "R", groups := [{ kind := .text "some" }] }]
  root := 0

theorem Document.toFeatureModel_fails_groupOfNoKind :
    groupOfNoKind.toFeatureModel = .error (.unknownKind (.text "some")) ∧
      groupOfNoKind.Fault (.unknownKind (.text "some")) := by
  have h : groupOfNoKind.toFeatureModel = .error (.unknownKind (.text "some")) := by rfl
  exact ⟨h, (Document.toFeatureModel_fails h).1⟩

/-- A feature whose lower bound has too many digits to be written. -/
def Document.longBound : Document where
  count := 1
  features := #v[{ name := some "R", lower := .int (-(10 ^ 5000 : Nat)) }]
  root := 0

-- The bound is negative, but the message that says so cannot be written.
example : (match Document.longBound.toFeatureModel with
    | .error e => some (e.kind, e.raised.kind)
    | .ok _ => none) = some (.parse, .value) := by decide +kernel

/-- A feature whose lower bound is infinite. -/
def Document.infiniteBound : Document where
  count := 1
  features := #v[{ name := some "R", lower := .float (.ofBits 0x7FF0000000000000) }]
  root := 0

/-- An infinite bound is not refused as an invalid one. -/
theorem Document.not_isDocumented_of_fails :
    ¬∀ (d : Document) (e : Build.Error), d.toFeatureModel = .error e → e.IsDocumented :=
  fun h => (h infiniteBound (.bound .infinite) rfl).elim (fun h => nomatch h) (fun h => nomatch h)

end Variability
