import Variability.Proofs.Build.Tree
import Variability.Proofs.Lowering.Truth

/-!
The selections that satisfy the formula of a tree.

A configuration is valid if selected features come with their parents and their
mandatory children, and with a selected member of each or-group and exactly one
of each alternative group (`ValidConfiguration`). The formula of a tree says
something else: it follows the tree from the root, from each selected node to
those children that the last group of the node asks for (`Covers`). A node that
it comes to need not be selected if it is optional, and nothing is said about
the nodes that it does not come to.

What is proved:
  1. `eval_lower_iff_exists_covers`: a selection of the root satisfies the formula
     iff some set of nodes covers it, and a valid configuration satisfies it if
     there are no alternative groups and no empty or-groups.
  2. `validConfiguration_not_eval_lower`: with alternative groups, or the other way
     round, neither follows from the other.
-/

namespace Variability

namespace FeatureModel

instance {m : FeatureModel} {v : String → Bool} {i : Nat} : Decidable (m.Selected v i) :=
  inferInstanceAs (Decidable (_ = true))

/-- How many members of a group are selected. -/
def chosenIn (m : FeatureModel) (v : String → Bool) (g : Group) : Nat :=
  g.children.countP (fun c => decide (m.Selected v c))

/-- A group has a selected member if it is an or-group, and exactly one if it is an alternative
group; an empty group asks for none. -/
def Admits (m : FeatureModel) (v : String → Bool) (g : Group) : Prop :=
  g.children ≠ [] →
    (g.type = .or → 0 < m.chosenIn v g) ∧ (g.type = .alternative → m.chosenIn v g = 1)

instance {m : FeatureModel} {v : String → Bool} {g : Group} : Decidable (m.Admits v g) :=
  inferInstanceAs (Decidable (_ → _))

/-- Selected nodes come with their parents and with their mandatory children, and their groups have
the selected members that they ask for. -/
@[mk_iff] structure ValidConfiguration (m : FeatureModel) (v : String → Bool) : Prop where
  parent : ∀ p < m.size, ∀ c ∈ m.childrenOf p, m.Selected v c → m.Selected v p
  mandatory : ∀ p < m.size, m.Selected v p → ∀ c ∈ m.childrenOf p,
    m.nodes[c]?.any Node.isMandatory = true → m.Selected v c
  groups : ∀ p < m.size, m.Selected v p → ∀ g ∈ m.groupsOf p, m.Admits v g

instance {m : FeatureModel} {v : String → Bool} : Decidable (m.ValidConfiguration v) :=
  decidable_of_iff _ (m.validConfiguration_iff v).symm

end FeatureModel

namespace Lowering

/-- A set of nodes that the formula of a tree can come to: each of them is selected, or is optional
and asks something of its children, and has the children that it asks for if it is selected. -/
structure Covers (m : FeatureModel) (root : Nat) (v : String → Bool) (S : Nat → Prop) : Prop where
  mem_root : S root
  selected : ∀ i n, S i → m.nodes[i]? = some n → i ≠ root →
    m.Selected v i ∨ n.isOptional = true ∧ asks m n = true
  children : ∀ i n, S i → m.nodes[i]? = some n → m.Selected v i → Meets m n S

section
variable {m : FeatureModel} {root : Nat} {v : String → Bool} {S : Nat → Prop}

theorem lt_size_of_selected {i : Nat} (h : m.Selected v i) : i < m.size := by
  by_contra hi
  simp [FeatureModel.Selected, Array.getElem?_eq_none (Nat.le_of_not_lt hi)] at h

/-- The nodes that the formula comes to where it is true. -/
theorem exists_covers (hm : m.WellFormed) (hroot : m.Selected v root)
    (hgood : ∀ i ∈ (m.subtree root).postorder, ¬m.BadAt root i)
    (htrue : (m.treeFormula true (m.subtree root)).eval v = true) : ∃ S, Covers m root v S := by
  have hsize := lt_size_of_selected hroot
  have hself := hm.self_mem_postorder_subtree root
  have hbelow {i : Nat} {n : Node} (hi : i ∈ (m.subtree root).postorder) (hne : i ≠ root)
      (hn : m.nodes[i]? = some n) := eval_formulaBelow_iff (v := v) hm (hgood i hi) hne hn
  have hchild {i c : Nat} {n : Node} (hi : i ∈ (m.subtree root).postorder)
      (hn : m.nodes[i]? = some n) (hc : c ∈ n.children) : c ∈ (m.subtree root).postorder :=
    (hm.child_below hsize hi hn hc).2.1
  refine ⟨fun i => i ∈ (m.subtree root).postorder ∧
    (i ≠ root → (m.formulaBelow i).eval v = true), ⟨hself, fun hne => absurd rfl hne⟩, ?_, ?_⟩
  · rintro i n ⟨hi, hf⟩ hn hne
    exact ((hbelow hi hne hn).mp (hf hne)).1
  · rintro i n ⟨hi, hf⟩ hn hselected
    by_cases hne : i = root
    · subst hne
      have hmeets := ((eval_treeFormula_iff hm (hgood i hi) hn).mp htrue).2
      exact hmeets.mono (fun c hc hholds => ⟨hchild hi hn hc, fun _ => hholds⟩)
    · have hmeets := ((hbelow hi hne hn).mp (hf hne)).2 hselected
      exact hmeets.mono (fun c hc hholds => ⟨hchild hi hn hc, fun _ => hholds⟩)

/-- The formula of each node of a set that covers a selection is true. -/
theorem Covers.eval (h : Covers m root v S) (hm : m.WellFormed) (hroot : m.Selected v root)
    (hgood : ∀ i ∈ (m.subtree root).postorder, ¬m.BadAt root i) :
    (m.treeFormula true (m.subtree root)).eval v = true := by
  have hsize := lt_size_of_selected hroot
  have hself := hm.self_mem_postorder_subtree root
  -- From the leaves up: a node of the set asks for children in the set.
  have hbelow : ∀ i < m.size, i ∈ (m.subtree root).postorder → i ≠ root → S i →
      (m.formulaBelow i).eval v = true := by
    refine hm.node_induction (fun i hi ih hmem hne hS => ?_)
    have hn : m.nodes[i]? = some m.nodes[i] := Array.getElem?_eq_getElem hi
    rw [eval_formulaBelow_iff hm (hgood i hmem) hne hn]
    refine ⟨h.selected i _ hS hn hne, fun hselected => ?_⟩
    refine (h.children i _ hS hn hselected).mono (fun c hc hSc => ?_)
    obtain ⟨hchild, hmem, -, hne⟩ := hm.child_below hsize hmem hn hc
    exact ih c hchild hmem hne hSc
  have hn : m.nodes[root]? = some m.nodes[root] := Array.getElem?_eq_getElem hsize
  rw [eval_treeFormula_iff hm (hgood root hself) hn]
  refine ⟨fun _ => hroot, (h.children root _ h.mem_root hn hroot).mono (fun c hc hSc => ?_)⟩
  obtain ⟨-, hmem, hlt, hne⟩ := hm.child_below hsize hself hn hc
  exact hbelow c hlt hmem hne hSc

/-- Without alternative groups and empty or-groups, a valid configuration is covered by the nodes
that it selects. -/
theorem covers_of_validConfiguration (hroot : m.Selected v root)
    (hgroups : ∀ p < m.size, ∀ g ∈ m.groupsOf p,
      g.type ≠ .alternative ∧ (g.type = .or → g.children ≠ []))
    (h : m.ValidConfiguration v) : Covers m root v (m.Selected v) where
  mem_root := hroot
  selected := fun i n hi _ _ => Or.inl hi
  children := by
    intro i n hi hn hselected
    have hsize : i < m.size := (Array.getElem?_eq_some_iff.mp hn).1
    have hof : m.groupsOf i = n.groups := by rw [FeatureModel.groupsOf, hn]; rfl
    have hlast {type : GroupType} (ht : n.lastType? = some type) :
        ∃ g ∈ m.groupsOf i, g.type = type := by
      obtain ⟨g, hg, rfl⟩ := Option.map_eq_some_iff.mp ht
      exact ⟨g, hof ▸ List.mem_of_getLast? hg, rfl⟩
    constructor
    · intro ht
      obtain ⟨g, hg, hgt⟩ := hlast ht
      exact absurd hgt (hgroups i hsize g hg).1
    · intro ht _
      obtain ⟨g, hg, hgt⟩ := hlast ht
      have hadmits := h.groups i hsize hselected g hg ((hgroups i hsize g hg).2 hgt)
      obtain ⟨c, hc, hsel⟩ := List.countP_pos_iff.mp (hadmits.1 hgt)
      replace hsel := of_decide_eq_true hsel
      exact ⟨c, List.mem_flatMap.mpr ⟨g, hof ▸ hg, hc⟩, hsel⟩
    · intro _ c hc
      rw [← FeatureModel.childrenOf_of_getElem? hn] at hc
      exact h.mandatory i hsize hselected c hc

end

/-! ## Built trees -/

/-- For every built tree that has a formula and every selection of the root: it satisfies the
formula iff some set of nodes covers it; and a valid configuration satisfies the formula if there
are no alternative groups and no empty or-groups. -/
theorem eval_lower_iff_exists_covers {d : Document} {root : Nat} {m : FeatureModel} {f : Formula}
    {v : String → Bool} (hrun : Build.tree d {} = .ok root m)
    (hf : (m.lower root).value = some f) (hroot : m.Selected v root) :
    (f.eval v = true ↔ ∃ S, Covers m root v S) ∧
    ((∀ p < m.size, ∀ g ∈ m.groupsOf p,
        g.type ≠ .alternative ∧ (g.type = .or → g.children ≠ [])) →
      m.ValidConfiguration v → f.eval v = true) := by
  have hm := (Build.tree_eq_ok hrun).2.wellFormed
  obtain ⟨hgood, rfl⟩ := (lower_eq_some_iff hm (lt_size_of_selected hroot)).mp hf
  refine ⟨⟨exists_covers hm hroot hgood, ?_⟩, fun hgroups hvalid => ?_⟩
  · rintro ⟨S, hS⟩
    exact hS.eval hm hroot hgood
  · exact (covers_of_validConfiguration hroot hgroups hvalid).eval hm hroot hgood

/-- What can be decided about a built tree. -/
theorem exists_built {d : Document} {P : FeatureModel → Prop} [DecidablePred P]
    (h : (match Build.tree d {} with
      | .ok root m => decide (root = 0 ∧ P m)
      | .error _ _ => false) = true) : ∃ m, Build.tree d {} = .ok 0 m ∧ P m := by
  cases hrun : Build.tree d {} with
  | error e m =>
    rw [hrun] at h
    cases h
  | ok root m =>
    rw [hrun] at h
    obtain ⟨rfl, hP⟩ := of_decide_eq_true h
    exact ⟨m, rfl, hP⟩

/-- The assignment that selects the features with the given names. -/
def only (names : List String) (name : String) : Bool := names.contains name

/-- The formula of an or-group of an optional feature with a mandatory child and of a leaf is true
although no member of the group is selected. -/
theorem eval_lower_iff_exists_covers_skipped : ∃ d m f, Build.tree d {} = .ok 0 m ∧
    (m.lower 0).value = some f ∧ m.Selected (only ["R"]) 0 ∧ f.eval (only ["R"]) = true ∧
    (∃ S, Covers m 0 (only ["R"]) S) ∧ ¬m.ValidConfiguration (only ["R"]) ∧
    m.ValidConfiguration (only ["R", "Y"]) ∧ f.eval (only ["R", "Y"]) = true := by
  let d : Document :=
    { count := 4
      features := #v[{ name := some "R", groups := [{ kind := .text "or", members := [1, 2] }] },
        { name := some "X", groups := [{ kind := .text "mandatory", members := [3] }] },
        { name := some "Y" }, { name := some "Z" }]
      root := 0 }
  let f : Formula := .disj [.implies (.literal "X") (.conj [.literal "Z"]), .literal "Y"]
  obtain ⟨m, hrun, hf, hroot, hroot', hgroups, hinvalid, hvalid⟩ :=
    exists_built (d := d) (P := fun m => (m.lower 0).value = some f ∧
      m.Selected (only ["R"]) 0 ∧ m.Selected (only ["R", "Y"]) 0 ∧
      (∀ p < m.size, ∀ g ∈ m.groupsOf p,
        g.type ≠ .alternative ∧ (g.type = .or → g.children ≠ [])) ∧
      ¬m.ValidConfiguration (only ["R"]) ∧ m.ValidConfiguration (only ["R", "Y"]))
      (by decide +kernel)
  have htrue : f.eval (only ["R"]) = true := by decide +kernel
  exact ⟨d, m, f, hrun, hf, hroot, htrue,
    (eval_lower_iff_exists_covers hrun hf hroot).1.mp htrue, hinvalid, hvalid,
    (eval_lower_iff_exists_covers hrun hf hroot').2 hgroups hvalid⟩

/-- No group is a cardinality group, and every node is mandatory or optional. -/
def Ordinary (m : FeatureModel) : Prop :=
  ∀ p < m.size, m.nodes[p]?.any (fun n => n.isMandatory || n.isOptional) = true ∧
    ∀ g ∈ m.groupsOf p, g.type ≠ .cardinality

instance {m : FeatureModel} : Decidable (Ordinary m) := inferInstanceAs (Decidable (∀ _ < _, _))

/-- A feature with an alternative group of two leaves. -/
def alternatives : Document where
  count := 3
  features := #v[
    { name := some "R", groups := [{ kind := .text "alternative", members := [1, 2] }] },
    { name := some "A" }, { name := some "B" }]
  root := 0

/-- An optional feature with an or-group and a mandatory child. -/
def nested : Document where
  count := 4
  features := #v[{ name := some "R", groups := [{ kind := .text "optional", members := [1] }] },
    { name := some "X", groups := [{ kind := .text "or", members := [2] },
        { kind := .text "mandatory", members := [3] }] },
    { name := some "C" }, { name := some "E" }]
  root := 0

/-- The formula of an alternative group asks for all its members, so it is false for a valid
configuration and true for one that is not valid; and the formula of a root with optional children
is true also where a parent, a mandatory child or a member of an or-group is missing. -/
theorem validConfiguration_not_eval_lower :
    (∃ m, Build.tree alternatives {} = .ok 0 m ∧ Ordinary m ∧
      ∃ f, (m.lower 0).value = some f ∧
        m.Selected (only ["R", "A"]) 0 ∧ m.ValidConfiguration (only ["R", "A"]) ∧
        f.eval (only ["R", "A"]) = false ∧
        m.Selected (only ["R", "A", "B"]) 0 ∧ ¬m.ValidConfiguration (only ["R", "A", "B"]) ∧
        f.eval (only ["R", "A", "B"]) = true) ∧
    ∃ m, Build.tree nested {} = .ok 0 m ∧ Ordinary m ∧ ∃ f, (m.lower 0).value = some f ∧
      ∀ names ∈ [["R", "E"], ["R", "X", "C"], ["R", "X", "E"]],
        m.Selected (only names) 0 ∧ ¬m.ValidConfiguration (only names) ∧
        f.eval (only names) = true := by
  constructor
  · let f : Formula := .conj [.disj [.literal "A"], .disj [.literal "B"]]
    obtain ⟨m, hrun, hm, hf, hselections⟩ :=
      exists_built (d := alternatives) (P := fun m => Ordinary m ∧ (m.lower 0).value = some f ∧
        m.Selected (only ["R", "A"]) 0 ∧ m.ValidConfiguration (only ["R", "A"]) ∧
        f.eval (only ["R", "A"]) = false ∧
        m.Selected (only ["R", "A", "B"]) 0 ∧ ¬m.ValidConfiguration (only ["R", "A", "B"]) ∧
        f.eval (only ["R", "A", "B"]) = true) (by decide +kernel)
    exact ⟨m, hrun, hm, f, hf, hselections⟩
  · obtain ⟨m, hrun, hm, hf, hselections⟩ :=
      exists_built (d := nested) (P := fun m => Ordinary m ∧ (m.lower 0).value = some .top ∧
        ∀ names ∈ [["R", "E"], ["R", "X", "C"], ["R", "X", "E"]],
          m.Selected (only names) 0 ∧ ¬m.ValidConfiguration (only names) ∧
          Formula.top.eval (only names) = true) (by decide +kernel)
    exact ⟨m, hrun, hm, .top, hf, hselections⟩

end Lowering

end Variability
