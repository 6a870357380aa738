import Mathlib.Tactic.FinCases
import Variability.Proofs.Build.Reordering
import Variability.Proofs.Conversion.Model

/-!
Conversions of documents that differ in the order of siblings and constraints.

A tree is built from both documents or from neither, the two trees are similar,
and the constraints are the same ones in another order, with the same references
resolved. So both documents have a formula or neither has one, and the formulas
are true under the same assignments (`formula_of_reordered`).
-/

namespace Variability.Conversion

variable {d d' : Document} {c c' : Conversion}

/-! ## What a document is converted to -/

theorem exists_ofDocument_iff :
    (∃ c, ofDocument (some d) = .ok c) ↔ ∃ root m, Build.tree d {} = .ok root m := by
  constructor
  · rintro ⟨c, hc⟩
    obtain ⟨root, m, hrun, -⟩ := ofDocument_eq_ok.mp hc
    exact ⟨root, m, hrun⟩
  · rintro ⟨root, m, hrun⟩
    exact ⟨_, ofDocument_eq_ok.mpr ⟨root, m, hrun, rfl⟩⟩

/-- The constraints do not touch the tree. -/
theorem exists_ordered (hc : ofDocument (some d) = .ok c) :
    ∃ order, Build.Ordered d order c.model := by
  obtain ⟨root, m, hrun, rfl⟩ := ofDocument_eq_ok.mp hc
  obtain ⟨order, h⟩ := Build.exists_ordered hrun
  exact ⟨order, h.first, h.nodup, h.mem_iff, h.corresponds.names, h.corresponds.keys,
    h.corresponds.node, h.corresponds.feature⟩

/-- The formula of a tree together with constraints, if there are any. -/
def constrained (constraints : List Formula) (tree : Formula) : Formula :=
  if constraints.isEmpty then tree else .conj (tree :: constraints)

theorem value_formula (c : Conversion) :
    c.formula.value = (c.model.lower c.root).value.map (constrained c.model.constraints) := by
  rw [formula]
  cases hc : c.model.constraints with
  | nil =>
    have hid : constrained [] = id := rfl
    rw [hid, Option.map_id_fun]
    rfl
  | cons g gs => rfl

theorem eval_constrained (constraints : List Formula) (tree : Formula) (v : String → Bool) :
    (constrained constraints tree).eval v = (tree.eval v && constraints.all (Formula.eval v)) := by
  cases constraints with
  | nil => rw [List.all_nil, Bool.and_true]; rfl
  | cons g gs =>
    show (Formula.conj (tree :: g :: gs)).eval v = _
    rw [Formula.eval, Formula.evalAll_eq, List.all_cons]

/-! ## Two documents -/

variable {σ : Fin d.count ≃ Fin d'.count}

/-- The constraints of the models are the same ones in another order. -/
theorem constraints_perm (h : d.Reordered d' σ) (hc : ofDocument (some d) = .ok c)
    (hc' : ofDocument (some d') = .ok c') : c'.model.constraints.Perm c.model.constraints := by
  obtain ⟨order, ho⟩ := exists_ordered hc
  obtain ⟨order', ho'⟩ := exists_ordered hc'
  rw [(built_of_ofDocument hc).constraints, (built_of_ofDocument hc').constraints,
    Build.hasFeature_of_reordered h ho ho']
  exact ((h.constraints.map Constraint.outcome).filterMap Constraint.Outcome.formula?).map _

/-- The formulas of the trees are true together. -/
theorem lower_rel (h : d.Reordered d' σ) (hd : d.ParentsUnique)
    (hc : ofDocument (some d) = .ok c) (hc' : ofDocument (some d') = .ok c') :
    Option.Rel (fun tree tree' => ∀ v, tree.eval v = tree'.eval v)
      (c.model.lower c.root).value (c'.model.lower c'.root).value := by
  obtain ⟨order, ho⟩ := exists_ordered hc
  obtain ⟨order', ho'⟩ := exists_ordered hc'
  have hb := built_of_ofDocument hc
  have hb' := built_of_ofDocument hc'
  rw [hb.root, hb'.root]
  exact (Build.similar_of_reordered h hd ho ho').lower hb.wellFormed hb'.wellFormed

/-- The formulas of the conversions are true together. -/
theorem formula_rel (h : d.Reordered d' σ) (hd : d.ParentsUnique)
    (hc : ofDocument (some d) = .ok c) (hc' : ofDocument (some d') = .ok c') :
    Option.Rel (fun f f' => ∀ v, f.eval v = f'.eval v) c.formula.value c'.formula.value := by
  have htrees := lower_rel h hd hc hc'
  rw [value_formula c, value_formula c']
  generalize (c.model.lower c.root).value = tree at htrees ⊢
  generalize (c'.model.lower c'.root).value = tree' at htrees ⊢
  cases htrees with
  | none => exact .none
  | some heval =>
    refine .some (fun v => ?_)
    rw [eval_constrained, eval_constrained, heval v, (constraints_perm h hc hc').all_eq]

/-- For every document whose features belong to one group each, and every document that differs from
it in the order of the members of groups, of the groups of features, but for the last ones, and of
the constraints: both can be converted or neither can. If they can, both have a formula or neither
has one, and the formulas are true under the same assignments. -/
theorem formula_of_reordered {d d' : Document} {σ : Fin d.count ≃ Fin d'.count}
    (hd : d.ParentsUnique) (h : d.Reordered d' σ) :
    ((∃ c, ofDocument (some d) = .ok c) ↔ ∃ c', ofDocument (some d') = .ok c') ∧
    ∀ c c', ofDocument (some d) = .ok c → ofDocument (some d') = .ok c' →
      (c.formula.value = none ↔ c'.formula.value = none) ∧
      ∀ f f', c.formula.value = some f → c'.formula.value = some f' →
        ∀ v, f.eval v = f'.eval v := by
  refine ⟨?_, fun c c' hc hc' => ?_⟩
  · rw [exists_ofDocument_iff, exists_ofDocument_iff]
    constructor
    · rintro ⟨root, m, hrun⟩
      exact Build.tree_succeeds_of_reordered h hd hrun
    · rintro ⟨root, m, hrun⟩
      exact Build.tree_succeeds_of_reordered h.symm (h.parentsUnique hd) hrun
  · have hrel := formula_rel h hd hc hc'
    generalize c.formula.value = value at hrel ⊢
    generalize c'.formula.value = value' at hrel ⊢
    cases hrel with
    | none => exact ⟨Iff.rfl, fun f f' hf => nomatch hf⟩
    | some heval =>
      refine ⟨by simp, fun f f' hf hf' => ?_⟩
      obtain rfl := Option.some.inj hf
      obtain rfl := Option.some.inj hf'
      exact heval

/-- A feature with three groups and two constraints. -/
def listed : Document where
  count := 6
  features := #v[
    { name := some "R", groups := [
      { kind := .text "mandatory", members := [1] },
      { kind := .text "optional", members := [2, 3] },
      { kind := .text "or", members := [4, 5] }] },
    { name := some "A" }, { name := some "B" }, { name := some "C" }, { name := some "D" },
    { name := some "E" }]
  root := 0
  constraints := ["A => B", "D | C"]

/-- The same document in another order. -/
def shuffled : Document where
  count := 6
  features := #v[
    { name := some "R", groups := [
      { kind := .text "optional", members := [3, 2] },
      { kind := .text "mandatory", members := [1] },
      { kind := .text "or", members := [5, 4] }] },
    { name := some "A" }, { name := some "B" }, { name := some "C" }, { name := some "D" },
    { name := some "E" }]
  root := 0
  constraints := ["D | C", "A => B"]

theorem parentsUnique_listed : listed.ParentsUnique :=
  .of_forall (by decide +kernel) (by decide +kernel)

theorem reordered_shuffled : listed.Reordered shuffled (Equiv.refl (Fin 6)) where
  root := rfl
  feature := by
    have hgroups : Document.GroupsReordered (Equiv.refl (Fin 6))
        ([⟨.text "mandatory", .null, .null, [1]⟩, ⟨.text "optional", .null, .null, [2, 3]⟩] ++
          [⟨.text "or", .null, .null, [4, 5]⟩])
        ([⟨.text "optional", .null, .null, [3, 2]⟩, ⟨.text "mandatory", .null, .null, [1]⟩] ++
          [⟨.text "or", .null, .null, [5, 4]⟩]) := by
      refine .concat ⟨_, .cons ?_ (.cons ?_ .nil), .swap _ _ _⟩ ?_
      · exact ⟨rfl, rfl, rfl, .refl _⟩
      · exact ⟨rfl, rfl, rfl, .swap _ _ _⟩
      · exact ⟨rfl, rfl, rfl, .swap _ _ _⟩
    intro (i : Fin 6)
    fin_cases i
    · exact ⟨rfl, rfl, rfl, rfl, rfl, rfl, hgroups⟩
    all_goals exact ⟨rfl, rfl, rfl, rfl, rfl, rfl, .nil⟩
  constraints := .swap _ _ _

/-- What a document is converted to, by its formula. -/
theorem exists_of_value {d : Document} {f : Formula}
    (h : (ofDocument (some d)).toOption.bind (fun c => c.formula.value) = some f) :
    ∃ c, ofDocument (some d) = .ok c ∧ c.formula.value = some f := by
  obtain ⟨c, hc, hf⟩ := Option.bind_eq_some_iff.mp h
  exact ⟨c, ofDocument_of_toOption hc, hf⟩

/-- The operands of the formula come in another order. -/
theorem formula_of_reordered_shuffled : ∃ c c' f f', ofDocument (some listed) = .ok c ∧
    ofDocument (some shuffled) = .ok c' ∧ c.formula.value = some f ∧
    c'.formula.value = some f' ∧ f ≠ f' ∧ ∀ v, f.eval v = f'.eval v := by
  let f : Formula := .conj [.disj [.literal "A", .literal "B", .literal "C", .literal "D",
    .literal "E"], .implies (.literal "A") (.literal "B"), .disj [.literal "D", .literal "C"]]
  let f' : Formula := .conj [.disj [.literal "C", .literal "B", .literal "A", .literal "E",
    .literal "D"], .disj [.literal "D", .literal "C"], .implies (.literal "A") (.literal "B")]
  obtain ⟨c, hc, hf⟩ := exists_of_value (d := listed) (f := f) (by decide +kernel)
  obtain ⟨c', hc', hf'⟩ := exists_of_value (d := shuffled) (f := f') (by decide +kernel)
  obtain ⟨-, hall⟩ := formula_of_reordered parentsUnique_listed reordered_shuffled
  exact ⟨c, c', f, f', hc, hc', hf, hf', by decide +kernel, (hall c c' hc hc').2 f f' hf hf'⟩

end Variability.Conversion
