import Variability.Constraint.Report
import Variability.Proofs.Formula.Substitution

/-!
Resolving references is a renaming that changes no more than it has to.

A reference stands for a feature if it is none itself, but is the name of that
feature when its last dot is replaced by a double colon (`StandsFor`). It stands
for one feature at most, and the renaming gives just this one
(`resolveName_eq_iff`). What it gives is a feature or was not changed, so
resolving again changes nothing (`resolveName_resolveName`).
-/

namespace Variability.Constraint

/-! ## The last dot -/

theorem splitAtLast?_eq_none_iff {c : Char} {cs : List Char} :
    splitAtLast? c cs = none ↔ c ∉ cs := by
  induction cs with
  | nil => simp [splitAtLast?]
  | cons d ds ih =>
    rw [splitAtLast?, List.mem_cons, not_or, ← ih]
    cases splitAtLast? c ds with
    | some p => simp
    | none =>
      by_cases h : d = c
      · simp [h]
      · simp [h, Ne.symm h]

/-- The characters are split at an occurrence behind which there is no other one. -/
theorem splitAtLast?_eq_some_iff {c : Char} {cs before after : List Char} :
    splitAtLast? c cs = some (before, after) ↔ cs = before ++ c :: after ∧ c ∉ after := by
  induction cs generalizing before after with
  | nil => simp [splitAtLast?]
  | cons d ds ih =>
    rw [splitAtLast?]
    cases hsplit : splitAtLast? c ds with
    | some p =>
      obtain ⟨before', after'⟩ := p
      obtain ⟨hds, hafter⟩ := ih.mp hsplit
      constructor
      · intro h
        obtain ⟨rfl, rfl⟩ := Prod.mk.inj (Option.some.inj h)
        exact ⟨congrArg (d :: ·) hds, hafter⟩
      · rintro ⟨hcs, hnew⟩
        cases before with
        | nil =>
          -- The later occurrence would be among the characters behind this one.
          obtain ⟨-, rfl⟩ := List.cons.inj hcs
          exact absurd (hds ▸ List.mem_append_right before' List.mem_cons_self) hnew
        | cons b before =>
          obtain ⟨rfl, hrest⟩ := List.cons.inj hcs
          rw [ih.mpr ⟨hrest, hnew⟩] at hsplit
          obtain ⟨rfl, rfl⟩ := Prod.mk.inj (Option.some.inj hsplit)
          rfl
    | none =>
      have hno : c ∉ ds := splitAtLast?_eq_none_iff.mp hsplit
      show (if d = c then some ([], ds) else none) = some (before, after) ↔ _
      constructor
      · intro h
        split at h
        · next hd =>
          obtain ⟨rfl, rfl⟩ := Prod.mk.inj (Option.some.inj h)
          exact ⟨by rw [hd, List.nil_append], hno⟩
        · cases h
      · rintro ⟨hcs, hnew⟩
        cases before with
        | nil =>
          obtain ⟨rfl, rfl⟩ := List.cons.inj hcs
          rw [if_pos rfl]
        | cons b before =>
          obtain ⟨-, rfl⟩ := List.cons.inj hcs
          exact absurd (List.mem_append_right before List.mem_cons_self) hno

/-- The name has a dot, and `qualified` is the name with a double colon for the last one. -/
def Qualifies (qualified name : String) : Prop :=
  ∃ before after : String, '.' ∉ after.toList ∧ name = before ++ "." ++ after ∧
    qualified = before ++ "::" ++ after

theorem qualifiedName?_eq_some_iff {name qualified : String} :
    qualifiedName? name = some qualified ↔ Qualifies qualified name := by
  rw [qualifiedName?, Option.map_eq_some_iff]
  constructor
  · rintro ⟨⟨before, after⟩, hsplit, rfl⟩
    obtain ⟨hname, hafter⟩ := splitAtLast?_eq_some_iff.mp hsplit
    refine ⟨String.ofList before, String.ofList after, by simpa using hafter, ?_, ?_⟩
    · apply String.toList_injective
      simp [hname]
    · apply String.toList_injective
      simp
  · rintro ⟨before, after, hafter, rfl, rfl⟩
    refine ⟨(before.toList, after.toList), splitAtLast?_eq_some_iff.mpr ⟨?_, hafter⟩, ?_⟩
    · simp
    · apply String.toList_injective
      simp

/-! ## What a reference stands for -/

section
variable {isFeature : String → Bool} {name feature : String}

/-- The reference is no feature, but it is the feature with a dot for its last double colon. -/
structure StandsFor (isFeature : String → Bool) (name feature : String) : Prop where
  not_feature : isFeature name = false
  qualifies : Qualifies feature name
  feature : isFeature feature = true

/-- The reference stands for a feature. -/
def Resolvable (isFeature : String → Bool) (name : String) : Prop :=
  ∃ feature, StandsFor isFeature name feature

theorem resolvable_iff : Resolvable isFeature name ↔
    isFeature name = false ∧ (qualifiedName? name).any isFeature = true := by
  constructor
  · rintro ⟨feature, h⟩
    exact ⟨h.not_feature, by rw [qualifiedName?_eq_some_iff.mpr h.qualifies]; exact h.feature⟩
  · rintro ⟨hname, hany⟩
    cases hq : qualifiedName? name with
    | none =>
      rw [hq] at hany
      cases hany
    | some feature =>
      rw [hq] at hany
      exact ⟨feature, hname, qualifiedName?_eq_some_iff.mp hq, hany⟩

instance : Decidable (Resolvable isFeature name) := decidable_of_iff _ resolvable_iff.symm

theorem resolveName_of_standsFor (h : StandsFor isFeature name feature) :
    resolveName isFeature name = feature := by
  rw [resolveName, h.not_feature, qualifiedName?_eq_some_iff.mpr h.qualifies]
  simp [h.feature]

theorem resolveName_of_not_resolvable (h : ¬Resolvable isFeature name) :
    resolveName isFeature name = name := by
  rw [resolveName]
  split
  · rfl
  · next hname =>
    split
    · next qualified hq =>
      refine if_neg (fun hfeature => h ⟨qualified, ?_⟩)
      exact ⟨by simpa using hname, qualifiedName?_eq_some_iff.mp hq, hfeature⟩
    · rfl

/-- A reference becomes the feature that it stands for, or stays if it stands for none. -/
theorem resolveName_eq_iff : resolveName isFeature name = feature ↔
    StandsFor isFeature name feature ∨ ¬Resolvable isFeature name ∧ feature = name := by
  by_cases h : Resolvable isFeature name
  · obtain ⟨feature', h'⟩ := h
    rw [resolveName_of_standsFor h']
    constructor
    · rintro rfl
      exact Or.inl h'
    · rintro (hf | ⟨hnot, -⟩)
      · exact (resolveName_of_standsFor h').symm.trans (resolveName_of_standsFor hf)
      · exact absurd ⟨feature', h'⟩ hnot
  · rw [resolveName_of_not_resolvable h]
    constructor
    · rintro rfl
      exact Or.inr ⟨h, rfl⟩
    · rintro (hf | ⟨-, rfl⟩)
      · exact absurd ⟨feature, hf⟩ h
      · rfl

theorem resolveName_of_feature (h : isFeature name = true) : resolveName isFeature name = name :=
  if_pos h

/-- What a reference becomes is a feature, unless the reference was none and stands for none. -/
theorem isFeature_resolveName (isFeature : String → Bool) (name : String) :
    isFeature (resolveName isFeature name) =
      (isFeature name || decide (Resolvable isFeature name)) := by
  by_cases h : Resolvable isFeature name
  · obtain ⟨feature, hf⟩ := h
    rw [resolveName_of_standsFor hf, hf.feature, decide_eq_true ⟨feature, hf⟩, Bool.or_true]
  · rw [resolveName_of_not_resolvable h, decide_eq_false h, Bool.or_false]

theorem resolveName_resolveName (isFeature : String → Bool) (name : String) :
    resolveName isFeature (resolveName isFeature name) = resolveName isFeature name := by
  by_cases h : Resolvable isFeature name
  · obtain ⟨feature, hf⟩ := h
    rw [resolveName_of_standsFor hf, resolveName_of_feature hf.feature]
  · rw [resolveName_of_not_resolvable h, resolveName_of_not_resolvable h]

end

/-! ## Formulas -/

/-- Resolving the references of a formula renames its literals, each reference that stands for a
feature to that feature, and keeps everything else. Doing it twice changes nothing more. Features
stay as they are, the names that are no features afterwards are those that were none and stand for
none, and the truth value is that of the formula read through the renaming. -/
theorem resolve_conservative (isFeature : String → Bool) (f : Formula) :
    resolve isFeature f = f.replaced (fun name => .literal (resolveName isFeature name)) ∧
      (∀ name name', resolveName isFeature name = name' ↔
        StandsFor isFeature name name' ∨ ¬Resolvable isFeature name ∧ name' = name) ∧
      resolve isFeature (resolve isFeature f) = resolve isFeature f ∧
      (resolve isFeature f).names = f.names.map (resolveName isFeature) ∧
      (∀ name, isFeature name = true → resolveName isFeature name = name) ∧
      (resolve isFeature f).names.filter (fun name => !isFeature name) =
        f.names.filter (fun name => !isFeature name && !decide (Resolvable isFeature name)) ∧
      ∀ v, (resolve isFeature f).eval v = f.eval (fun name => v (resolveName isFeature name)) := by
  have hnames : (resolve isFeature f).names = f.names.map (resolveName isFeature) := by
    rw [resolve, Formula.substitute_eq, Formula.names_replaced]
    exact List.map_eq_flatMap.symm
  refine ⟨Formula.substitute_eq f _, fun _ _ => resolveName_eq_iff, ?_, hnames,
    fun _ => resolveName_of_feature, ?_, fun v => ?_⟩
  · rw [resolve, resolve, Formula.substitute_eq, Formula.substitute_eq, Formula.replaced_replaced]
    simp only [Formula.replaced, resolveName_resolveName]
  · -- A name that is none of the features afterwards was not changed.
    have hafter : ∀ name, (!isFeature (resolveName isFeature name)) =
        (!isFeature name && !decide (Resolvable isFeature name)) :=
      fun name => by rw [isFeature_resolveName isFeature name, Bool.not_or]
    rw [hnames, List.filter_map]
    simp only [Function.comp_def, hafter]
    conv_rhs => rw [← List.map_id' (List.filter _ _)]
    refine List.map_congr_left (fun name hname => resolveName_of_not_resolvable ?_)
    have hnot := (List.mem_filter.mp hname).2
    rw [Bool.and_eq_true] at hnot
    simpa using hnot.2
  · rw [resolve, Formula.substitute_eq, Formula.eval_replaced]
    rfl

/-- Two references come to one feature, and one to an attribute of a feature stays. -/
example : resolve (["ns::A", "x.y::C", "B"].contains ·)
      (.conj [.literal "ns.A", .neg (.literal "ns::A"), .literal "x.y.C", .literal "B.Price"]) =
    .conj [.literal "ns::A", .neg (.literal "ns::A"), .literal "x.y::C", .literal "B.Price"] := by
  decide +kernel

end Variability.Constraint
