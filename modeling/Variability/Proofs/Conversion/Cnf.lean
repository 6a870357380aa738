import Mathlib.Data.List.Permutation
import Variability.Proofs.Cnf.Lookup
import Variability.Proofs.Conversion.Model

/-!
The conjunctive normal form of a document, from end to end.

What is proved:
  1. `exists_formula`: the formula that is converted is true iff the tree formula
     and all constraints are, and mentions the names that they mention.
  2. `toCnf_spec`: there is no conjunctive normal form iff the tree has no
     formula or a constraint mentions a name that is no feature. Otherwise its
     variables are the nodes, numbered in their order, and its clauses are
     satisfied by the assignments under which the tree formula and all
     constraints are true.
-/

namespace Variability.Conversion

variable {d : Document} {c : Conversion}

/-! ## The formula and the numbers of the names -/

/-- The variables are the nodes, in their order. -/
theorem numbering_eq (hn : c.model.nodeNames = c.names.map some) :
    c.numbering = Numbering.ofNames c.names := by
  rw [numbering, features, hn, Numbering.ofNames, List.zipIdx_map, List.filterMap_map]
  have hpair : ((fun p : Option String × Nat => p.1.map (fun name => (name, (p.2 : Int) + 1))) ∘
      Prod.map some id) = some ∘ fun p : String × Nat => (p.1, (p.2 : Int) + 1) := rfl
  rw [hpair, List.filterMap_eq_map]

theorem isPlain_constraints (h : Built d c) : ∀ f ∈ c.model.constraints, f.isPlain := by
  intro f hf
  rw [h.constraints] at hf
  obtain ⟨g, hg, rfl⟩ := List.mem_map.mp hf
  exact Constraint.isPlain_resolve (Constraint.isPlain_of_mem_formulas hg) _

/-- The formula that is converted stands for the formula of the tree and all constraints. -/
theorem exists_formula (h : Built d c) {tree : Formula} (htree : tree.isPlain)
    (hlower : c.model.lower c.root = ⟨some tree, []⟩) :
    ∃ f, c.formula.get = .ok f ∧ f.isPlain ∧
      (∀ v, f.eval v = true ↔ tree.eval v = true ∧ ∀ g ∈ c.model.constraints, g.eval v = true) ∧
      ∀ name, name ∈ f.names ↔ name ∈ tree.names ∨ ∃ g ∈ c.model.constraints, name ∈ g.names := by
  have hplain := isPlain_constraints h
  rw [formula, hlower]
  cases hc : c.model.constraints with
  | nil => exact ⟨tree, rfl, htree, by simp, by simp⟩
  | cons g gs =>
    rw [hc] at hplain
    refine ⟨.conj (tree :: g :: gs), rfl, ?_, fun v => ?_, fun name => ?_⟩
    · rw [Formula.isPlain, Formula.allPlain_eq, List.all_eq_true]
      intro f hf
      rcases List.mem_cons.mp hf with rfl | hf
      · exact htree
      · exact hplain f hf
    · rw [Formula.eval, Formula.evalAll_eq, List.all_cons, Bool.and_eq_true, List.all_eq_true]
    · rw [Formula.names, Formula.namesAll_eq, List.flatMap_cons, List.mem_append, List.mem_flatMap]

/-! ## Failures -/

theorem toCnf_of_lower (hlower : (c.model.lower c.root).value = none) (strategy : BoolExpr.Strategy)
    (verbose : Bool) : ∃ e, (c.toCnf strategy verbose).1 = .error (.noFormula e) := by
  have hnone : c.formula.value = none := by
    rw [formula]
    split
    · exact hlower
    · show (c.model.lower c.root).value.map _ = none
      rw [hlower, Option.map_none]
  have hget : c.formula.get = .error (.isEmpty c.formula.problems) := by
    rw [Result.get, hnone]
  rw [toCnf, hget]
  exact ⟨_, rfl⟩

/-- The conversion takes the clauses of the formula over the numbered names. -/
theorem toCnf_of_formula {f : Formula} (hf : c.formula.get = .ok f)
    (hn : c.model.nodeNames = c.names.map some) (strategy : BoolExpr.Strategy) (verbose : Bool) :
    (c.toCnf strategy verbose).1 =
      match f.clauses (Numbering.ofNames c.names) strategy with
      | .ok cs => .ok ⟨cs, Numbering.ofNames c.names⟩
      | .error e => .error (.cnf e) := by
  rw [toCnf, hf, numbering_eq hn]
  show Except.mapError CnfError.cnf
    (Formula.toCnf f strategy (some (Numbering.ofNames c.names))) = _
  rw [Formula.toCnf, Option.getD_some]
  cases f.clauses (Numbering.ofNames c.names) strategy <;> rfl

/-! ## Success -/

/-- What the conjunctive normal form of a model with the given names says. -/
structure Correct (names : List String) (holds : (String → Bool) → Prop) (cnf : Cnf) : Prop where
  variableCount : cnf.variableCount = names.length
  comments : cnf.comments = names.zipIdx.map (fun p => "c " ++ toString (p.2 + 1) ++ " " ++ p.1)
  /-- The literals are numbers of variables, as they are or negated. -/
  literals : ∀ clause ∈ cnf.clauses, ∀ l ∈ clause, l ≠ 0 ∧ l.natAbs ≤ names.length
  /-- With the truth values of the names for the variables, all clauses are satisfied iff the names
  are as they should be. -/
  satisfied : ∀ (v : String → Bool) (ν : Nat → Bool),
    (∀ i (hi : i < names.length), ν (i + 1) = v names[i]) →
      ((∀ clause ∈ cnf.clauses, ∃ l ∈ clause, Cnf.literalValue ν l = true) ↔ holds v)

theorem Correct.congr {names : List String} {holds holds' : (String → Bool) → Prop} {cnf : Cnf}
    (h : Correct names holds cnf) (hiff : ∀ v, holds v ↔ holds' v) : Correct names holds' cnf :=
  ⟨h.variableCount, h.comments, h.literals, fun v ν hν => (h.satisfied v ν hν).trans (hiff v)⟩

/-- A formula over different names has a conjunctive normal form that is correct for them. -/
theorem correct_of_formula {names : List String} (hnames : names.Nodup) {f : Formula}
    (hplain : f.isPlain) (hf : ∀ name ∈ f.names, name ∈ names) (strategy : BoolExpr.Strategy) :
    ∃ cs, f.clauses (Numbering.ofNames names) strategy = .ok cs ∧
      Correct names (fun v => f.eval v = true) ⟨cs, Numbering.ofNames names⟩ := by
  obtain ⟨cs, hcs, heval, hrange, hcount⟩ :=
    Formula.exists_clauses_ofNames hnames hplain hf strategy
  refine ⟨cs, hcs, hcount, Cnf.comments_ofNames hnames, hrange, ?_⟩
  intro v ν hν
  rw [← Cnf.satisfies_iff, heval]
  -- The numbers give every name of the formula the value that it has under `v`.
  rw [Formula.eval_congr f (w := v)]
  intro name hn
  obtain ⟨k, hk, rfl⟩ := List.mem_iff_getElem.mp (hf name hn)
  rw [Numbering.value_ofNames hnames ν hk, hν k hk]

/-- A formula with a name that is no feature has no conjunctive normal form. -/
theorem toCnf_of_foreign (h : Built d c) (hn : c.model.nodeNames = c.names.map some) {f : Formula}
    (hf : c.formula.get = .ok f) {name : String} (hname : name ∈ f.names)
    (hno : c.model.hasFeature name = false) (strategy : BoolExpr.Strategy) (verbose : Bool) :
    ∃ names, (c.toCnf strategy verbose).1 = .error (.cnf (.unnumbered names)) := by
  have hunnumbered : (Numbering.ofNames c.names).contains name = false := by
    rw [Bool.eq_false_iff, Ne, Numbering.contains_ofNames (h.nodup_names hn),
      ← h.hasFeature_iff hn, hno]
    exact Bool.false_ne_true
  refine ⟨Cnf.unnumbered f (Numbering.ofNames c.names), ?_⟩
  rw [toCnf_of_formula hf hn, Formula.clauses_eq_unnumbered_iff.mpr ⟨rfl, name, hname, hunnumbered⟩]

/-- A formula over features has a conjunctive normal form that says what the formula says. -/
theorem toCnf_of_known (h : Built d c) (hn : c.model.nodeNames = c.names.map some) {f : Formula}
    (hf : c.formula.get = .ok f) (hplain : f.isPlain)
    (hknown : ∀ name ∈ f.names, c.model.hasFeature name = true) (strategy : BoolExpr.Strategy)
    (verbose : Bool) :
    ∃ cnf, (c.toCnf strategy verbose).1 = .ok cnf ∧
      Correct c.names (fun v => f.eval v = true) cnf := by
  obtain ⟨cs, hcs, hcorrect⟩ := correct_of_formula (h.nodup_names hn) hplain
    (fun name hname => (h.hasFeature_iff hn).mp (hknown name hname)) strategy
  refine ⟨_, ?_, hcorrect⟩
  rw [toCnf_of_formula hf hn, hcs]

/-- The formula of the tree mentions features only, so a name that is no feature comes from a
constraint. -/
theorem exists_foreign_iff (h : Built d c) (hn : c.model.nodeNames = c.names.map some)
    {f : Formula} {isRoot : Bool} {t : Tree Nat}
    (hnames : ∀ name, name ∈ f.names ↔
      name ∈ (c.model.treeFormula isRoot t).names ∨ ∃ g ∈ c.model.constraints, name ∈ g.names) :
    (∃ name ∈ f.names, c.model.hasFeature name = false) ↔
      ∃ g ∈ (Constraint.report d.constraints).formulas,
        ∃ name ∈ (Constraint.resolve c.model.hasFeature g).names,
          c.model.hasFeature name = false := by
  constructor
  · rintro ⟨name, hname, hno⟩
    rcases (hnames name).mp hname with htree | ⟨g, hg, hname⟩
    · rw [(h.hasFeature_iff hn).mpr (mem_names_of_treeFormula htree)] at hno
      cases hno
    · rw [h.constraints] at hg
      obtain ⟨g₀, hg₀, rfl⟩ := List.mem_map.mp hg
      exact ⟨g₀, hg₀, name, hname, hno⟩
  · rintro ⟨g, hg, name, hname, hno⟩
    refine ⟨name, (hnames name).mpr (Or.inr ⟨_, ?_, hname⟩), hno⟩
    rw [h.constraints]
    exact List.mem_map_of_mem hg

/-- For every document that is converted, whichever conjunction is distributed next: there is no
conjunctive normal form iff the tree has no formula or a constraint, with its references resolved,
mentions a name that is no feature, and then it is not for a place holder. Otherwise every node has
a name, the names are different, and the variables, the comments and the clauses are those of the
nodes, the tree formula and the constraints. -/
theorem toCnf_spec (h : ofDocument (some d) = .ok c) (strategy : BoolExpr.Strategy)
    (verbose : Bool) :
    ((∃ e, (c.toCnf strategy verbose).1 = .error e) ↔
      (c.model.lower c.root).value = none ∨
        ∃ f ∈ (Constraint.report d.constraints).formulas,
          ∃ name ∈ (Constraint.resolve c.model.hasFeature f).names,
            c.model.hasFeature name = false) ∧
    (∀ e, (c.toCnf strategy verbose).1 = .error e → e ≠ .cnf .placeHolder) ∧
    ∀ cnf, (c.toCnf strategy verbose).1 = .ok cnf →
      ∃ tree, (c.model.lower c.root).value = some tree ∧ ∃ names : List String,
        c.model.nodeNames = names.map some ∧ names.Nodup ∧ names.length = c.model.size ∧
        Correct names (fun v => tree.eval v = true ∧
          ∀ f ∈ (Constraint.report d.constraints).formulas,
            (Constraint.resolve c.model.hasFeature f).eval v = true) cnf := by
  have hb := built_of_ofDocument h
  rcases hb.lower_eq with hlower | ⟨hlower, hgood⟩
  · -- The tree has no formula.
    obtain ⟨e, he⟩ := toCnf_of_lower hlower strategy verbose
    rw [he]
    refine ⟨⟨fun _ => Or.inl hlower, fun _ => ⟨_, rfl⟩⟩, ?_, ?_⟩
    · rintro e' he' rfl
      cases he'
    · intro cnf hcnf
      cases hcnf
  have hn := Built.nodeNames_eq hgood
  have htree := c.model.isPlain_treeFormula true (c.model.subtree 0)
  obtain ⟨f, hf, hplain, heval, hnames⟩ := exists_formula hb htree hlower
  rw [← exists_foreign_iff hb hn hnames, hlower]
  by_cases hforeign : ∃ name ∈ f.names, c.model.hasFeature name = false
  · -- The formula mentions a name without a number.
    obtain ⟨name, hname, hno⟩ := id hforeign
    obtain ⟨names, he⟩ := toCnf_of_foreign hb hn hf hname hno strategy verbose
    rw [he]
    refine ⟨⟨fun _ => Or.inr hforeign, fun _ => ⟨_, rfl⟩⟩, ?_, ?_⟩
    · rintro e' he' rfl
      cases he'
    · intro cnf hcnf
      cases hcnf
  · -- All names of the formula are features.
    have hknown : ∀ name ∈ f.names, c.model.hasFeature name = true := by
      intro name hname
      rw [← Bool.not_eq_false]
      exact fun hno => hforeign ⟨name, hname, hno⟩
    obtain ⟨cnf, hcnf, hcorrect⟩ := toCnf_of_known hb hn hf hplain hknown strategy verbose
    rw [hcnf]
    refine ⟨⟨?_, ?_⟩, ?_, ?_⟩
    · rintro ⟨e, he⟩
      cases he
    · rintro (hnone | hex)
      · cases hnone
      · exact absurd hex hforeign
    · intro e he
      cases he
    · intro cnf' hcnf'
      obtain rfl := Except.ok.inj hcnf'
      refine ⟨_, rfl, c.names, hn, hb.nodup_names hn, length_names c,
        hcorrect.congr (fun v => ?_)⟩
      rw [heval, hb.constraints, List.forall_mem_map]

/-- A root with an optional and a mandatory child, of which the first one excludes the other. -/
def exclusion : Document where
  count := 3
  features := #v[
    { name := some "A", groups := [
      { kind := .text "optional", members := [⟨1, by decide⟩] },
      { kind := .text "mandatory", members := [⟨2, by decide⟩] }] },
    { name := some "B" }, { name := some "C" }]
  root := ⟨0, by decide⟩
  constraints := ["B => !C"]

theorem exists_exclusion : ∃ c, ofDocument (some exclusion) = .ok c ∧ c.names = ["A", "B", "C"] ∧
    c.model.nodeNames = c.names.map some ∧
    (c.model.lower c.root).value = some (.conj [.literal "C"]) ∧
    c.model.constraints = [.implies (.literal "B") (.neg (.literal "C"))] := by
  have h : (ofDocument (some exclusion)).toOption.any (fun c => decide (c.names = ["A", "B", "C"] ∧
      c.model.nodeNames = c.names.map some ∧
      (c.model.lower c.root).value = some (.conj [.literal "C"]) ∧
      c.model.constraints = [.implies (.literal "B") (.neg (.literal "C"))])) = true := by
    decide +kernel
  obtain ⟨c, hc, hdecided⟩ := (Option.any_eq_true _ _).mp h
  exact ⟨c, ofDocument_of_toOption hc, of_decide_eq_true hdecided⟩

/-- The mandatory child is selected, so the optional one is not. -/
theorem toCnf_spec_exclusion : ∃ c cnf, ofDocument (some exclusion) = .ok c ∧
    (c.toCnf .first true).1 = .ok cnf ∧ cnf.clauses = [[3], [-2, -3]] ∧ cnf.variableCount = 3 ∧
    cnf.comments = ["c 1 A", "c 2 B", "c 3 C"] ∧
    (∀ clause ∈ cnf.clauses, ∃ l ∈ clause, Cnf.literalValue (fun i => i ≠ 2) l = true) ∧
    ¬∀ clause ∈ cnf.clauses, ∃ l ∈ clause, Cnf.literalValue (fun _ => true) l = true := by
  obtain ⟨c, hc, hnames, hn, htree, hconstraints⟩ := exists_exclusion
  have hget : c.formula.get =
      .ok (.conj [.conj [.literal "C"], .implies (.literal "B") (.neg (.literal "C"))]) := by
    rw [formula, hconstraints, Result.get, htree]
    rfl
  have hcnf : (c.toCnf .first true).1 =
      .ok ⟨[[3], [-2, -3]], Numbering.ofNames ["A", "B", "C"]⟩ := by
    have hclauses : (Formula.conj [.conj [.literal "C"],
        .implies (.literal "B") (.neg (.literal "C"))]).clauses
          (Table.ofList [("A", 1), ("B", 2), ("C", 3)]) .first = .ok [[3], [-2, -3]] := by cbv
    have hnumbers :
        Numbering.ofNames ["A", "B", "C"] = Table.ofList [("A", 1), ("B", 2), ("C", 3)] := rfl
    rw [toCnf_of_formula hget hn, hnames, hnumbers, hclauses]
  obtain ⟨-, -, hspec⟩ := toCnf_spec hc .first true
  obtain ⟨tree, hsome, names, hnodes, -, -, hcorrect⟩ := hspec _ hcnf
  obtain rfl : Formula.conj [.literal "C"] = tree := Option.some.inj (htree.symm.trans hsome)
  obtain rfl : ["A", "B", "C"] = names := by
    rw [hn, hnames] at hnodes
    exact List.map_injective_iff.mpr (Option.some_injective _) hnodes
  have hholds : Correct ["A", "B", "C"] (fun v => v "C" = true ∧ v "B" = false)
      ⟨[[3], [-2, -3]], Numbering.ofNames ["A", "B", "C"]⟩ := by
    refine hcorrect.congr (fun v => ?_)
    rw [← List.forall_mem_map (P := fun f => Formula.eval v f = true),
      ← (built_of_ofDocument hc).constraints, hconstraints]
    cases hv : v "C" <;> simp [Formula.eval, Formula.evalAll, hv]
  refine ⟨c, _, hc, hcnf, rfl, hholds.variableCount, hholds.comments, ?_, fun hall => ?_⟩
  · exact (hholds.satisfied (fun name => name != "B") _ (by decide)).mpr ⟨rfl, rfl⟩
  · obtain ⟨-, hB⟩ := (hholds.satisfied (fun _ => true) _ (fun _ _ => rfl)).mp hall
    cases hB

end Variability.Conversion
