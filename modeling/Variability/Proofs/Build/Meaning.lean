import Variability.Build.Bound
import Variability.Build.Feature
import Variability.Proofs.Attribute
import Variability.Proofs.FeatureModel.WellFormed

/-!
What the values of a document stand for: bounds and kinds of groups stand for
ranges, types for feature types, and keys for attributes.

Each meaning is stated as a relation, and the checks of the construction agree
with it: a check gives a result iff the result is what the values stand for.
-/

namespace Variability.Build

/-! ## Bounds -/

/-- The value stands for an upper end: it is absent or a star for no upper end, or stands for a
natural number. -/
inductive IsUpperEnd : Value → Option Nat → Prop
  | absent : IsUpperEnd .null none
  | star : IsUpperEnd (.text "*") none
  | natural {v : Value} {u : Nat} (h : v.toInteger = .ok (u : Int)) : IsUpperEnd v (some u)

/-- The values stand for the ends of the range. -/
structure Bounds (lower upper : Value) (r : Range) : Prop where
  lower_eq : lower.toInteger = .ok (r.lower : Int)
  upper_eq : IsUpperEnd upper r.upper

theorem natural_eq_ok {v : Value} {context : String} {k : Nat} :
    natural v context = .ok k ↔ v.toInteger = .ok (k : Int) := by
  unfold natural
  cases v.toInteger with
  | error e => cases e <;> simp
  | ok n =>
    simp only [Except.ok.injEq]
    split
    · next h => rw [Except.ok.injEq]; omega
    · next h =>
      constructor
      · intro he
        cases he
      · intro he
        omega

theorem toInteger_star : (Value.text "*").toInteger = .error .notNumeric := by
  have hread : Number.readInteger? "*" = none := by decide +kernel
  rw [Value.toInteger, hread]

/-- No value stands for a number and for no upper end. -/
theorem eq_none_of_isUpperEnd {v : Value} (hv : v = .null ∨ v = .text "*") {u : Option Nat}
    (h : IsUpperEnd v u) : u = none := by
  cases h with
  | absent | star => rfl
  | natural h =>
    rcases hv with rfl | rfl
    · cases h
    · rw [toInteger_star] at h
      cases h

theorem unbounded_iff {v : Value} :
    (isStar v || !v.isPresent) = true ↔ v = .null ∨ v = .text "*" := by
  cases v <;> simp [isStar, Value.isPresent]

theorem upperEnd_eq_ok {v : Value} {context : String} {u : Option Nat} :
    upperEnd v context = .ok u ↔ IsUpperEnd v u := by
  unfold upperEnd
  split
  · next hv =>
    rw [unbounded_iff] at hv
    constructor
    · intro h
      obtain rfl := Except.ok.inj h
      rcases hv with rfl | rfl
      · exact .absent
      · exact .star
    · intro h
      rw [eq_none_of_isUpperEnd hv h]
  · next hv =>
    rw [unbounded_iff] at hv
    constructor
    · intro h
      obtain ⟨k, hk, h⟩ := FeatureModel.bind_eq_ok.mp h
      obtain rfl := Except.ok.inj h
      exact .natural (natural_eq_ok.mp hk)
    · intro h
      cases h with
      | absent => exact absurd (Or.inl rfl) hv
      | star => exact absurd (Or.inr rfl) hv
      | natural h => exact FeatureModel.bind_eq_ok.mpr ⟨_, natural_eq_ok.mpr h, rfl⟩

theorem rangeBetween_eq_ok {lower : Nat} {upper : Option Nat} {context : String} {r : Range} :
    rangeBetween lower upper context = .ok r ↔ r.lower = lower ∧ r.upper = upper := by
  obtain ⟨l, u, hle⟩ := r
  cases upper with
  | none => simp [rangeBetween, Range.between?, Range.atLeast, eq_comm]
  | some k =>
    by_cases hk : lower ≤ k
    · simp [rangeBetween, Range.between?, hk, eq_comm]
    · have hne : ¬(l = lower ∧ u = some k) := by
        rintro ⟨rfl, rfl⟩
        exact hk (hle k rfl)
      simp [rangeBetween, Range.between?, hk, hne]

/-- Two bounds give a range iff it is the range between what they stand for. -/
theorem between_eq_ok {lower upper : Value} {context : String} {r : Range} :
    (do
      let l ← natural lower context
      let u ← upperEnd upper context
      rangeBetween l u context) = .ok r ↔ Bounds lower upper r := by
  constructor
  · intro h
    obtain ⟨l, hl, h⟩ := FeatureModel.bind_eq_ok.mp h
    obtain ⟨u, hu, h⟩ := FeatureModel.bind_eq_ok.mp h
    obtain ⟨rfl, rfl⟩ := rangeBetween_eq_ok.mp h
    exact ⟨natural_eq_ok.mp hl, upperEnd_eq_ok.mp hu⟩
  · intro h
    refine FeatureModel.bind_eq_ok.mpr ⟨r.lower, natural_eq_ok.mpr h.lower_eq, ?_⟩
    refine FeatureModel.bind_eq_ok.mpr ⟨r.upper, upperEnd_eq_ok.mpr h.upper_eq, ?_⟩
    exact rangeBetween_eq_ok.mpr ⟨rfl, rfl⟩

/-! ## Groups and features -/

/-- The name of a kind in documents. -/
def GroupKind.name : GroupKind → String
  | mandatory => "mandatory"
  | optional => "optional"
  | alternative => "alternative"
  | or => "or"
  | cardinality => "cardinality"

theorem GroupKind.ofValue?_eq_some {v : Value} {k : GroupKind} :
    GroupKind.ofValue? v = some k ↔ v = .text k.name := by
  constructor
  · intro h
    unfold GroupKind.ofValue? at h
    split at h <;> cases h <;> rfl
  · rintro rfl
    cases k <;> rfl

theorem GroupKind.name_injective {k k' : GroupKind} (h : k.name = k'.name) : k = k' := by
  have hsame : GroupKind.ofValue? (.text k.name) = some k' := by
    rw [h, GroupKind.ofValue?_eq_some]
  rw [GroupKind.ofValue?_eq_some.mpr rfl] at hsame
  exact Option.some.inj hsame

/-- A group of the kind, with the bounds, spans the range. -/
inductive GroupKind.Spans (lower upper : Value) : GroupKind → Range → Prop
  | mandatory : Spans lower upper .mandatory (.atLeast 0)
  | optional : Spans lower upper .optional (.atLeast 0)
  | alternative : Spans lower upper .alternative (.exactly 1)
  | or : Spans lower upper .or (.atLeast 1)
  | cardinality {r : Range} (h : Bounds lower upper r) : Spans lower upper .cardinality r

/-- The values stand for a kind, and a group of that kind spans the range. -/
def Spans (kind lower upper : Value) (r : Range) : Prop :=
  ∃ k : GroupKind, kind = .text k.name ∧ k.Spans lower upper r

/-- There is a range iff the kind is one of the five, and the bounds are checked if it looks at
them. -/
theorem exists_spans_iff {kind lower upper : Value} :
    (∃ r, Spans kind lower upper r) ↔
      (∃ k : GroupKind, kind = .text k.name) ∧
        (kind = .text GroupKind.cardinality.name → ∃ r, Bounds lower upper r) := by
  constructor
  · rintro ⟨r, k, rfl, h⟩
    refine ⟨⟨k, rfl⟩, fun hk => ?_⟩
    obtain rfl := GroupKind.name_injective (Value.text.inj hk)
    cases h with
    | cardinality h => exact ⟨r, h⟩
  · rintro ⟨⟨k, rfl⟩, h⟩
    cases k with
    | mandatory => exact ⟨_, _, rfl, .mandatory⟩
    | optional => exact ⟨_, _, rfl, .optional⟩
    | alternative => exact ⟨_, _, rfl, .alternative⟩
    | or => exact ⟨_, _, rfl, .or⟩
    | cardinality =>
      obtain ⟨r, h⟩ := h rfl
      exact ⟨r, _, rfl, .cardinality h⟩

theorem mapError_eq_ok {ε ε' α : Type} {f : ε → ε'} {x : Except ε α} {a : α} :
    x.mapError f = .ok a ↔ x = .ok a := by
  constructor
  · intro h
    cases x with
    | ok b => exact congrArg Except.ok (Except.ok.inj h)
    | error e => cases h
  · rintro rfl
    rfl

theorem groupRange_eq_ok {n : Nat} {owner : Option String} {g : Document.Group n} {r : Range} :
    groupRange owner g = .ok r ↔ Spans g.kind g.lower g.upper r := by
  have hspans : Spans g.kind g.lower g.upper r ↔
      ∃ k, GroupKind.ofValue? g.kind = some k ∧ k.Spans g.lower g.upper r := by
    simp only [Spans, GroupKind.ofValue?_eq_some]
  rw [hspans, groupRange]
  cases GroupKind.ofValue? g.kind with
  | none => simp
  | some k =>
    simp only [Option.some.injEq, exists_eq_left']
    cases k with
    | cardinality =>
      dsimp only
      rw [mapError_eq_ok, between_eq_ok]
      exact ⟨.cardinality, fun h => by cases h; assumption⟩
    | mandatory => exact ⟨fun h => Except.ok.inj h ▸ .mandatory, fun h => by cases h; rfl⟩
    | optional => exact ⟨fun h => Except.ok.inj h ▸ .optional, fun h => by cases h; rfl⟩
    | alternative => exact ⟨fun h => Except.ok.inj h ▸ .alternative, fun h => by cases h; rfl⟩
    | or => exact ⟨fun h => Except.ok.inj h ▸ .or, fun h => by cases h; rfl⟩

/-- The bounds of a feature stand for its cardinality. -/
inductive FeatureBounds : Value → Value → Range → Prop
  | both {lower upper : Value} {r : Range} (h : Bounds lower upper r) :
      FeatureBounds lower upper r
  | upTo {upper : Value} {u : Option Nat} (present : upper ≠ .null) (h : IsUpperEnd upper u) :
      FeatureBounds .null upper (.atMost u)
  | neither : FeatureBounds .null .null .optional

theorem isPresent_iff {v : Value} : v.isPresent = true ↔ v ≠ .null := by
  cases v <;> simp [Value.isPresent]

theorem eq_null_of_not_isPresent {v : Value} (h : ¬v.isPresent = true) : v = .null :=
  Classical.byContradiction fun hne => h (isPresent_iff.mpr hne)

theorem not_bounds_null {upper : Value} {r : Range} : ¬Bounds .null upper r :=
  fun h => nomatch h.lower_eq

theorem boundedCardinality_eq_ok {n : Nat} {f : Document.Feature n} {r : Range} :
    boundedCardinality f = .ok r ↔ FeatureBounds f.lower f.upper r := by
  obtain ⟨name, scope, type, lower, upper, attributes, groups⟩ := f
  unfold boundedCardinality
  dsimp only
  split
  · next hl =>
    rw [between_eq_ok]
    refine ⟨.both, fun h => ?_⟩
    cases h with
    | both h => exact h
    | upTo | neither => cases hl
  · next hl =>
    obtain rfl := eq_null_of_not_isPresent hl
    split
    · next hu =>
      constructor
      · intro h
        obtain ⟨u, hupper, h⟩ := FeatureModel.bind_eq_ok.mp h
        exact Except.ok.inj h ▸ .upTo (isPresent_iff.mp hu) (upperEnd_eq_ok.mp hupper)
      · intro h
        cases h with
        | both h => exact (not_bounds_null h).elim
        | upTo _ h => exact FeatureModel.bind_eq_ok.mpr ⟨_, upperEnd_eq_ok.mpr h, rfl⟩
        | neither => cases hu
    · next hu =>
      obtain rfl := eq_null_of_not_isPresent hu
      refine ⟨fun h => Except.ok.inj h ▸ .neither, fun h => ?_⟩
      cases h with
      | both h => exact (not_bounds_null h).elim
      | upTo hne => exact absurd rfl hne
      | neither => rfl

/-- The kind of the group that a feature belongs to. -/
def HasKind (d : Document) (i : Fin d.count) (k : GroupKind) : Prop :=
  (d.parentGroup? i).map Document.Group.kind = some (.text k.name)

/-- The feature has the cardinality: the one that the kind of its group decides, or else the one
that its bounds stand for. -/
inductive Selects (d : Document) (i : Fin d.count) : Range → Prop
  | mandatory (h : HasKind d i .mandatory) : Selects d i .mandatory
  | optional (h : HasKind d i .optional) : Selects d i .optional
  | bounds (hm : ¬HasKind d i .mandatory) (ho : ¬HasKind d i .optional) {r : Range}
      (h : FeatureBounds (d.feature i).lower (d.feature i).upper r) : Selects d i r

theorem hasKind_iff {d : Document} {i : Fin d.count} {k : GroupKind} :
    HasKind d i k ↔ (d.parentGroup? i).bind (fun g => GroupKind.ofValue? g.kind) = some k := by
  rw [HasKind, Option.map_eq_some_iff, Option.bind_eq_some_iff]
  simp only [GroupKind.ofValue?_eq_some]

theorem featureCardinality_eq_ok {d : Document} {i : Fin d.count} {r : Range} :
    featureCardinality d i = .ok r ↔ Selects d i r := by
  have hunique {k k' : GroupKind} (h : HasKind d i k) (h' : HasKind d i k') : k = k' := by
    rw [hasKind_iff] at h h'
    exact Option.some.inj (h.symm.trans h')
  unfold featureCardinality
  split
  · next h =>
    rw [← hasKind_iff] at h
    refine ⟨fun he => Except.ok.inj he ▸ .mandatory h, fun hs => ?_⟩
    cases hs with
    | mandatory => rfl
    | optional h' => cases hunique h h'
    | bounds hm => exact absurd h hm
  · next h =>
    rw [← hasKind_iff] at h
    refine ⟨fun he => Except.ok.inj he ▸ .optional h, fun hs => ?_⟩
    cases hs with
    | mandatory h' => cases hunique h h'
    | optional => rfl
    | bounds _ ho => exact absurd h ho
  · next hm ho =>
    rw [boundedCardinality_eq_ok]
    have hm : ¬HasKind d i .mandatory := fun h => hm (hasKind_iff.mp h)
    have ho : ¬HasKind d i .optional := fun h => ho (hasKind_iff.mp h)
    refine ⟨.bounds hm ho, fun hs => ?_⟩
    cases hs with
    | mandatory h => exact absurd h hm
    | optional h => exact absurd h ho
    | bounds _ _ h => exact h

/-- There is a cardinality iff the bounds stand for one, where the kind of the group does not
decide it. -/
theorem exists_selects_iff {d : Document} {i : Fin d.count} :
    (∃ r, Selects d i r) ↔
      (¬HasKind d i .mandatory → ¬HasKind d i .optional →
        ∃ r, FeatureBounds (d.feature i).lower (d.feature i).upper r) := by
  constructor
  · rintro ⟨r, h⟩ hm ho
    cases h with
    | mandatory h => exact absurd h hm
    | optional h => exact absurd h ho
    | bounds _ _ h => exact ⟨r, h⟩
  · intro h
    by_cases hm : HasKind d i .mandatory
    · exact ⟨_, .mandatory hm⟩
    · by_cases ho : HasKind d i .optional
      · exact ⟨_, .optional ho⟩
      · obtain ⟨r, h⟩ := h hm ho
        exact ⟨r, .bounds hm ho h⟩

/-! ## Types and keys -/

/-- The value stands for the feature type; without a value the feature is Boolean. -/
inductive Declares : Value → FeatureType → Prop
  | absent : Declares .null .boolean
  | named (t : FeatureType) : Declares (.text t.name) t

theorem ofName?_eq_some {s : String} {t : FeatureType} :
    FeatureType.ofName? s = some t ↔ s = t.name := by
  constructor
  · intro h
    simpa [eq_comm] using List.find?_some h
  · rintro rfl
    exact t.ofName?_name

theorem featureType_eq_ok {v : Value} {t : FeatureType} : featureType v = .ok t ↔ Declares v t := by
  cases v with
  | null =>
    refine ⟨fun h => Except.ok.inj h ▸ .absent, fun h => ?_⟩
    cases h
    rfl
  | text s =>
    have hdeclares : Declares (.text s) t ↔ s = t.name := by
      refine ⟨fun h => ?_, fun h => h ▸ .named t⟩
      generalize hv : Value.text s = v at h
      cases h with
      | absent => cases hv
      | named => exact Value.text.inj hv
    have hpresent : (Value.text s).isPresent = true := rfl
    rw [hdeclares, ← ofName?_eq_some, featureType, if_pos hpresent, FeatureType.ofValue?]
    cases FeatureType.ofName? s <;> simp
  | bool | int | float | list | dict =>
    refine ⟨fun h => ?_, fun h => ?_⟩ <;> cases h

/-- The scope and the name of the attribute that a key stands for. -/
def attributeOf? (key : String) : Option (Option String × String) :=
  match Attribute.ofPlainKey? key with
  | some a => some (a.scope, a.name)
  | none => AttributeKey.decode? key

theorem ofPlainKey?_eq_none {key : String} :
    Attribute.ofPlainKey? key = none ↔
      key ≠ Attribute.abstract.name ∧ key ≠ Attribute.hidden.name := by
  unfold Attribute.ofPlainKey?
  split
  · next h => simp [h]
  · next h =>
    split
    · next h' => simp [h']
    · next h' => simp [h, h']

/-- Every key but those of the built-in attributes may have one isolated colon. -/
theorem isSome_attributeOf?_iff {key : String} :
    (attributeOf? key).isSome ↔
      (key ≠ Attribute.abstract.name → key ≠ Attribute.hidden.name →
        AttributeKey.isolatedColons false key.toList ≤ 1) := by
  rw [← AttributeKey.isSome_decode?_iff, ← and_imp, ← ofPlainKey?_eq_none, attributeOf?]
  cases Attribute.ofPlainKey? key <;> simp

end Variability.Build
