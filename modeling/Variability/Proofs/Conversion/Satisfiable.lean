import Variability.Proofs.Conversion.Cnf

/-!
The formula of a tree without constraints is never contradictory: it is true
when every feature is selected.

Each formula that the lowering keeps is true then (`Satisfied`), which holds
before the first visit and after each one, for every model and also where the
traversal ends early. So the clauses of a document without constraints are all
satisfied by the assignment that makes every variable true, and each of them
has a literal that is not negated (`tree_satisfiable`).
-/

namespace Variability

/-- The assignment selects the features of all nodes. -/
def FeatureModel.SelectsAll (m : FeatureModel) (v : String → Bool) : Prop :=
  ∀ (i : Nat) (n : Node) (name : String),
    m.nodes[i]? = some n → n.name = some name → v name = true

namespace Lowering

variable {m : FeatureModel} {v : String → Bool}

/-! ## The formula of a node -/

/-- If the formulas of the children are true, the formula that they make is true or empty. -/
theorem eval_childrenFormula? {formulas : List Nat → List Formula}
    (hf : ∀ cs, ∀ f ∈ formulas cs, f.eval v = true) {cs : List Nat} {type : GroupType}
    {below : Formula} (h : childrenFormula? m formulas cs type = some below)
    (hne : below.children.isEmpty = false) : below.eval v = true := by
  cases type with
  | alternative =>
    obtain rfl := Option.some.inj h
    have hfalse : (formulas cs).countP (fun f => !f.eval v) = 0 := by
      refine List.countP_eq_zero.mpr (fun f hmem => ?_)
      rw [hf cs f hmem]
      decide
    rw [← Int.natCast_one, Formula.eval_everyChoice (Nat.le_refl 1) (Nat.le_add_left 1 _), hfalse]
    exact Nat.one_pos
  | or =>
    obtain rfl := Option.some.inj h
    have hpos : formulas cs ≠ [] := by simpa [Formula.children] using hne
    obtain ⟨f, hmem⟩ := List.exists_mem_of_ne_nil _ hpos
    rw [Formula.eval, Formula.evalAny_eq, List.any_eq_true]
    exact ⟨f, hmem, hf cs f hmem⟩
  | and =>
    obtain rfl := Option.some.inj h
    rw [Formula.eval, Formula.evalAll_eq, List.all_eq_true]
    exact hf _
  | cardinality => cases h

theorem eval_combine {isRoot : Bool} {n : Node} {name : String} (hname : v name = true)
    {below f : Formula} (hbelow : below.children.isEmpty = false → below.eval v = true)
    (h : combine isRoot n name below = .ok f) : f.eval v = true := by
  have hself : (Formula.literal name).eval v = true := hname
  unfold combine at h
  split at h
  · obtain rfl := Except.ok.inj h
    split
    · rfl
    · next hne => exact hbelow (by simpa using hne)
  split at h
  · obtain rfl := Except.ok.inj h
    exact hself
  next hne =>
  have htrue := hbelow (by simpa using hne)
  split at h
  · obtain rfl := Except.ok.inj h
    simp [Formula.eval, htrue]
  split at h
  · obtain rfl := Except.ok.inj h
    simp [Formula.eval, hname, htrue]
  · cases h

/-- If the name of a node is true and the formulas of its children are, its formula is true. -/
theorem eval_nodeFormula {formulas : List Nat → List Formula}
    (hf : ∀ cs, ∀ f ∈ formulas cs, f.eval v = true) {isRoot : Bool} {n : Node}
    (hn : ∀ name, n.name = some name → v name = true) {f : Formula}
    (h : nodeFormula m formulas isRoot n = .ok f) : f.eval v = true := by
  unfold nodeFormula at h
  split at h
  · cases h
  · cases h
  next name _ hname =>
  split at h
  · cases h
  next last _ =>
  split at h
  · split at h
    · obtain rfl := Except.ok.inj h
      exact hn name hname
    · cases h
  split at h
  · next below hbelow => exact eval_combine (hn name hname) (eval_childrenFormula? hf hbelow) h
  · cases h

/-! ## The formulas of a traversal -/

/-- The formulas in the array are true, and so is the last one. -/
structure Satisfied (v : String → Bool) (s : State) : Prop where
  stored : ∀ (i : Nat) (f : Formula), s.formulas[i]? = some (some f) → f.eval v = true
  latest : ∀ f, s.latest = some f → f.eval v = true

theorem satisfied_start : Satisfied v {} where
  stored := by
    intro i f hf
    simp at hf
  latest := by
    intro f hf
    cases hf

theorem Satisfied.enter {s : State} (h : Satisfied v s) (path : List Nat) :
    Satisfied v (enter m path s).2 := by
  unfold Lowering.enter
  split
  · refine ⟨fun i f hf => ?_, h.latest⟩
    simp [Array.getElem?_replicate] at hf
  · exact h

theorem Satisfied.formulasOf {s : State} (h : Satisfied v s) (cs : List Nat) :
    ∀ f ∈ s.formulasOf m cs, f.eval v = true := by
  intro f hf
  obtain ⟨c, -, hc⟩ := List.mem_filterMap.mp hf
  obtain ⟨n, -, hn⟩ := Option.bind_eq_some_iff.mp hc
  exact h.stored n.index f (Option.join_eq_some_iff.mp hn)

/-- A node that is left adds a true formula, or ends the traversal without one. -/
theorem Satisfied.leave {s : State} (h : Satisfied v s) (hv : m.SelectsAll v) (path : List Nat) :
    Satisfied v (leave m path s).2 := by
  unfold Lowering.leave
  split
  · exact h
  split
  · exact h
  next i above _ n hn =>
  split
  · next f hf =>
    have htrue := eval_nodeFormula h.formulasOf (fun name => hv i n name hn) hf
    constructor
    · intro j g hg
      rw [Array.getElem?_setIfInBounds] at hg
      split at hg
      · split at hg
        · obtain rfl := Option.some.inj (Option.some.inj hg)
          exact htrue
        · cases hg
      · exact h.stored j g hg
    · intro g hg
      obtain rfl := Option.some.inj hg
      exact htrue
  · refine ⟨h.stored, fun g hg => ?_⟩
    cases hg

/-- The formula of a tree is true when every feature is selected. -/
theorem eval_lower {root : Nat} {f : Formula} (hf : (m.lower root).value = some f)
    (hv : m.SelectsAll v) : f.eval v = true := by
  have hrun : Satisfied v (m.lowerFrom root {}) :=
    Traversal.run_invariant (fun path _ h => h.enter path) (fun path _ h => h.leave hv path)
      satisfied_start
  exact hrun.latest f hf

end Lowering

/-! ## Documents without constraints -/

namespace Conversion

variable {d : Document} {c : Conversion}

theorem selectsAll_true (m : FeatureModel) : m.SelectsAll (fun _ => true) :=
  fun _ _ _ _ _ => rfl

/-- Without constraints and with a formula of the tree there is a conjunctive normal form, and it
says what the tree says. -/
theorem exists_cnf_of_tree (h : ofDocument (some d) = .ok c)
    (hnone : (Constraint.report d.constraints).formulas = []) {tree : Formula}
    (htree : (c.model.lower c.root).value = some tree) (strategy : BoolExpr.Strategy)
    (verbose : Bool) :
    ∃ cnf, (c.toCnf strategy verbose).1 = .ok cnf ∧
      Correct c.names (fun v => tree.eval v = true) cnf := by
  have hb := built_of_ofDocument h
  rcases hb.lower_eq with hlower | ⟨hlower, hgood⟩
  · rw [htree] at hlower
    cases hlower
  have hn := Built.nodeNames_eq hgood
  have hconstraints : c.model.constraints = [] := by
    rw [hb.constraints, hnone, List.map_nil]
  obtain ⟨f, hf, hplain, heval, hnames⟩ :=
    exists_formula hb (c.model.isPlain_treeFormula true (c.model.subtree 0)) hlower
  obtain rfl : c.model.treeFormula true (c.model.subtree 0) = tree := by
    rw [hlower] at htree
    exact Option.some.inj htree
  have hknown : ∀ name ∈ f.names, c.model.hasFeature name = true := by
    intro name hname
    rw [hb.hasFeature_iff hn]
    rcases (hnames name).mp hname with hname | ⟨g, hg, -⟩
    · exact mem_names_of_treeFormula hname
    · rw [hconstraints] at hg
      cases hg
  obtain ⟨cnf, hcnf, hcorrect⟩ := toCnf_of_known hb hn hf hplain hknown strategy verbose
  refine ⟨cnf, hcnf, hcorrect.congr (fun v => ?_)⟩
  rw [heval, hconstraints]
  simp

/-- For every model and every node whose tree has a formula: the formula is true under each
assignment that selects all features. So a document without constraints that are formulas, whose
tree has a formula, has a conjunctive normal form that can be satisfied, without an empty clause;
and each clause has a literal that is not negated. -/
theorem tree_satisfiable :
    (∀ (m : FeatureModel) (root : Nat) (f : Formula) (v : String → Bool),
      (m.lower root).value = some f → m.SelectsAll v → f.eval v = true) ∧
    ∀ (d : Document) (c : Conversion) (strategy : BoolExpr.Strategy) (verbose : Bool),
      ofDocument (some d) = .ok c → (Constraint.report d.constraints).formulas = [] →
      (c.model.lower c.root).value ≠ none →
        ∃ cnf, (c.toCnf strategy verbose).1 = .ok cnf ∧
          (∃ ν : Nat → Bool, ∀ clause ∈ cnf.clauses, ∃ l ∈ clause,
            Cnf.literalValue ν l = true) ∧
          [] ∉ cnf.clauses ∧ ∀ clause ∈ cnf.clauses, ∃ l ∈ clause, 0 < l := by
  refine ⟨fun m root f v => Lowering.eval_lower, fun d c strategy verbose h hnone hpresent => ?_⟩
  obtain ⟨tree, htree⟩ := Option.ne_none_iff_exists'.mp hpresent
  obtain ⟨cnf, hcnf, hcorrect⟩ := exists_cnf_of_tree h hnone htree strategy verbose
  -- Every variable is true, so a literal is true iff it is not negated.
  have hall : ∀ clause ∈ cnf.clauses, ∃ l ∈ clause,
      Cnf.literalValue (fun _ => true) l = true :=
    (hcorrect.satisfied (fun _ => true) (fun _ => true) (fun _ _ => rfl)).mpr
      (Lowering.eval_lower htree (selectsAll_true c.model))
  have hpositive : ∀ clause ∈ cnf.clauses, ∃ l ∈ clause, 0 < l := by
    intro clause hclause
    obtain ⟨l, hl, htrue⟩ := hall clause hclause
    exact ⟨l, hl, by simpa [Cnf.literalValue] using htrue⟩
  refine ⟨cnf, hcnf, ⟨_, hall⟩, fun hempty => ?_, hpositive⟩
  obtain ⟨l, hl, -⟩ := hpositive [] hempty
  cases hl

/-- An or-group of a leaf and of a feature with a mandatory child. -/
theorem tree_satisfiable_nested : ∃ d c tree, ofDocument (some d) = .ok c ∧
    (Constraint.report d.constraints).formulas = [] ∧
    (c.model.lower c.root).value = some tree ∧
    tree = .disj [.implies (.literal "B") (.conj [.literal "D"]), .literal "C"] ∧
    tree.eval (fun _ => true) = true ∧
    ∃ cnf, (c.toCnf .first true).1 = .ok cnf ∧ ∀ clause ∈ cnf.clauses, ∃ l ∈ clause, 0 < l := by
  let d : Document :=
    { count := 4
      features := #v[{ name := some "A", groups := [{ kind := .text "or", members := [1, 2] }] },
        { name := some "B", groups := [{ kind := .text "mandatory", members := [3] }] },
        { name := some "C" }, { name := some "D" }]
      root := 0 }
  have hlowered : (ofDocument (some d)).toOption.bind (fun c => (c.model.lower c.root).value) =
      some (.disj [.implies (.literal "B") (.conj [.literal "D"]), .literal "C"]) := by
    decide +kernel
  cases hc : ofDocument (some d) with
  | error e =>
    rw [hc] at hlowered
    cases hlowered
  | ok c =>
    rw [hc] at hlowered
    replace hlowered : (c.model.lower c.root).value = _ := hlowered
    obtain ⟨htree, hcnf⟩ := tree_satisfiable
    obtain ⟨cnf, hcnf, -, -, hpositive⟩ :=
      hcnf d c .first true hc rfl (by rw [hlowered]; exact Option.some_ne_none _)
    exact ⟨d, c, _, hc, rfl, hlowered, rfl,
      htree c.model c.root _ _ hlowered (selectsAll_true c.model), cnf, hcnf, hpositive⟩

end Conversion

end Variability
