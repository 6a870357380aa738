import Variability.Proofs.Lowering.Truth

/-!
Trees whose formulas have the same truth.

Two trees are similar if their nodes are related from the roots on: related
nodes have the same name, the same cardinality and the same type of last group,
and each child of the one is related to a child of the other (`Similar`). So the
numbers of the nodes do not matter, nor the order of children and of groups but
for the last one. Related nodes are bad together (`Similar.badAt`), and their
formulas are true together, by induction from the leaves
(`Similar.eval_formulaBelow`).

What is proved (`Similar.lower`): both trees have a formula or neither has one,
and the formulas are true under the same assignments.
-/

namespace Variability.Lowering

/-- Two nodes with the same name, the same cardinality and the same type of last group, and with
related children. -/
structure Alike (R : Nat → Nat → Prop) (n n' : Node) : Prop where
  name : n'.name = n.name
  cardinality : n'.cardinality = n.cardinality
  lastType : n'.lastType? = n.lastType?
  forth : ∀ c ∈ n.children, ∃ c' ∈ n'.children, R c c'
  back : ∀ c' ∈ n'.children, ∃ c ∈ n.children, R c c'

/-- The roots are related, and related nodes are alike; a root is related to nothing but the other
root. -/
structure Similar (m m' : FeatureModel) (R : Nat → Nat → Prop) (root root' : Nat) : Prop where
  start : R root root'
  node : ∀ i i', R i i' → ∃ n n', m.nodes[i]? = some n ∧ m'.nodes[i']? = some n' ∧ Alike R n n'
  top : ∀ i i', R i i' → (i' = root' ↔ i = root)

variable {m m' : FeatureModel} {R : Nat → Nat → Prop} {root root' : Nat} {n n' : Node}
  {v : String → Bool}

theorem Alike.symm (h : Alike R n n') : Alike (fun i' i => R i i') n' n :=
  ⟨h.name.symm, h.cardinality.symm, h.lastType.symm, h.back, h.forth⟩

theorem Alike.children_eq_nil (h : Alike R n n') (hnone : n.children = []) : n'.children = [] := by
  refine List.eq_nil_iff_forall_not_mem.mpr (fun c' hc' => ?_)
  obtain ⟨c, hc, -⟩ := h.back c' hc'
  rw [hnone] at hc
  cases hc

theorem Alike.children_eq_nil_iff (h : Alike R n n') : n'.children = [] ↔ n.children = [] :=
  ⟨h.symm.children_eq_nil, h.children_eq_nil⟩

/-- What is bad about a node, by the type of its last group. -/
theorem bad_iff {isRoot : Bool} : Bad m isRoot n ↔
    (n.name = none ∨ n.name = some "") ∨ n.lastType? = none ∨
      (n.children = [] ∧ n.cardinality ≠ .optional ∧ n.cardinality ≠ .mandatory) ∨
      n.children ≠ [] ∧ (n.lastType? = some .cardinality ∨
        isRoot = false ∧ asks m n = true ∧ n.cardinality ≠ .optional ∧
          n.cardinality ≠ .mandatory) := by
  rw [Bad, ← List.getLast?_eq_none_iff]
  cases hl : n.groups.getLast? with
  | none => simp [Node.lastType?, hl]
  | some last => simp [Node.lastType?, asks, hl]

namespace Similar

theorem symm (h : Similar m m' R root root') : Similar m' m (fun i' i => R i i') root' root where
  start := h.start
  node := by
    intro i' i hi
    obtain ⟨n, n', hn, hn', halike⟩ := h.node i i' hi
    exact ⟨n', n, hn', hn, halike.symm⟩
  top := fun i' i hi => (h.top i i' hi).symm

theorem lt_size (h : Similar m m' R root root') : root < m.size := by
  obtain ⟨n, -, hn, -⟩ := h.node _ _ h.start
  exact (Array.getElem?_eq_some_iff.mp hn).1

/-! ## One node -/

section
variable (h : Similar m m' R root root')
include h

theorem isMandatory {c c' : Nat} (hc : R c c') :
    m'.nodes[c']?.any Node.isMandatory = m.nodes[c]?.any Node.isMandatory := by
  obtain ⟨n, n', hn, hn', halike⟩ := h.node c c' hc
  rw [hn, hn', Option.any_some, Option.any_some, Node.isMandatory, halike.cardinality]
  rfl

theorem selected {i i' : Nat} (hi : R i i') : m'.Selected v i' ↔ m.Selected v i := by
  obtain ⟨n, n', hn, hn', halike⟩ := h.node i i' hi
  rw [FeatureModel.Selected, FeatureModel.Selected, hn, hn', Option.bind_some, Option.bind_some,
    halike.name]

theorem asks_mono (ha : Alike R n n') (hasks : asks m n = true) : asks m' n' = true := by
  rw [asks, Option.any_eq_true] at hasks ⊢
  obtain ⟨type, ht, hoperands⟩ := hasks
  refine ⟨type, ha.lastType.trans ht, ?_⟩
  cases type with
  | alternative | or =>
    rw [hasOperands, Bool.not_eq_true', List.isEmpty_eq_false_iff] at hoperands ⊢
    exact fun hnone => hoperands (ha.children_eq_nil_iff.mp hnone)
  | and =>
    rw [hasOperands, List.any_eq_true] at hoperands ⊢
    obtain ⟨c, hc, hmandatory⟩ := hoperands
    obtain ⟨c', hc', hR⟩ := ha.forth c hc
    exact ⟨c', hc', (h.isMandatory hR).trans hmandatory⟩
  | cardinality => cases hoperands

theorem asks_eq (ha : Alike R n n') : asks m' n' = asks m n :=
  Bool.eq_iff_iff.mpr ⟨h.symm.asks_mono ha.symm, h.asks_mono ha⟩

/-- The children of the one node are as it asks if those of the other one are. -/
theorem meets (ha : Alike R n n') {holds holds' : Nat → Prop}
    (hle : ∀ c c', R c c' → c ∈ n.children → c' ∈ n'.children → holds c → holds' c')
    (hmeets : Meets m n holds) : Meets m' n' holds' where
  alternative := by
    intro ht c' hc'
    obtain ⟨c, hc, hR⟩ := ha.back c' hc'
    exact hle c c' hR hc hc' (hmeets.alternative (ha.lastType ▸ ht) c hc)
  or := by
    intro ht hne
    obtain ⟨c, hc, hholds⟩ := hmeets.or (ha.lastType ▸ ht) (mt ha.children_eq_nil_iff.mpr hne)
    obtain ⟨c', hc', hR⟩ := ha.forth c hc
    exact ⟨c', hc', hle c c' hR hc hc' hholds⟩
  and := by
    intro ht c' hc' hmandatory
    obtain ⟨c, hc, hR⟩ := ha.back c' hc'
    rw [h.isMandatory hR] at hmandatory
    exact hle c c' hR hc hc' (hmeets.and (ha.lastType ▸ ht) c hc hmandatory)

/-- Related nodes are bad together. -/
theorem badAt {i i' : Nat} (hi : R i i') : m'.BadAt root' i' ↔ m.BadAt root i := by
  obtain ⟨n, n', hn, hn', halike⟩ := h.node i i' hi
  have htop : decide (i' = root') = decide (i = root) := decide_eq_decide.mpr (h.top i i' hi)
  simp only [FeatureModel.BadAt, hn, hn', Option.some.injEq, exists_eq_left', htop, bad_iff,
    halike.name, halike.cardinality, halike.lastType, h.asks_eq halike, ne_eq,
    halike.children_eq_nil_iff]

/-! ## All nodes -/

/-- Every node of the one tree is related to a node of the other one. -/
theorem exists_related (hm : m.WellFormed) (hm' : m'.WellFormed) {i' : Nat}
    (hi' : i' ∈ (m'.subtree root').postorder) : ∃ i ∈ (m.subtree root).postorder, R i i' := by
  have hsteps := (hm'.mem_postorder_subtree root' h.symm.lt_size).mp hi'
  clear hi'
  induction hsteps with
  | refl => exact ⟨root, hm.self_mem_postorder_subtree root, h.start⟩
  | tail _ hc' ih =>
    obtain ⟨i, hi, hR⟩ := ih
    obtain ⟨n, n', hn, hn', halike⟩ := h.node _ _ hR
    rw [FeatureModel.childrenOf_of_getElem? hn'] at hc'
    obtain ⟨c, hc, hR⟩ := halike.back _ hc'
    exact ⟨c, (hm.child_below h.lt_size hi hn hc).2.1, hR⟩

/-- If the formula of a node below the root is true, so is that of every node that the node is
related to. -/
theorem eval_formulaBelow (hm : m.WellFormed) (hm' : m'.WellFormed)
    (hgood : ∀ i ∈ (m.subtree root).postorder, ¬m.BadAt root i) :
    ∀ i < m.size, ∀ i', R i i' → i ∈ (m.subtree root).postorder → i ≠ root →
      (m.formulaBelow i).eval v = true → (m'.formulaBelow i').eval v = true := by
  refine hm.node_induction (fun i hi ih i' hR hmem hne htrue => ?_)
  obtain ⟨n, n', hn, hn', halike⟩ := h.node i i' hR
  have hgood' : ¬m'.BadAt root' i' := mt (h.badAt hR).mp (hgood i hmem)
  rw [eval_formulaBelow_iff hm (hgood i hmem) hne hn] at htrue
  rw [eval_formulaBelow_iff hm' hgood' (mt (h.top i i' hR).mp hne) hn', h.selected hR,
    h.asks_eq halike, Node.isOptional, halike.cardinality]
  refine ⟨htrue.1, fun hselected => h.meets halike (fun c c' hR' hc _ => ?_) (htrue.2 hselected)⟩
  obtain ⟨hchild, hmem, -, hne⟩ := hm.child_below h.lt_size hmem hn hc
  exact ih c hchild c' hR' hmem hne

/-- If the one tree has a formula, the other one has a formula that is true where the first one
is. -/
theorem exists_lower (hm : m.WellFormed) (hm' : m'.WellFormed) {f : Formula}
    (hf : (m.lower root).value = some f) :
    ∃ f', (m'.lower root').value = some f' ∧ ∀ v, f.eval v = true → f'.eval v = true := by
  obtain ⟨hgood, rfl⟩ := (lower_eq_some_iff hm h.lt_size).mp hf
  have hgood' : ∀ i' ∈ (m'.subtree root').postorder, ¬m'.BadAt root' i' := by
    intro i' hi'
    obtain ⟨i, hi, hR⟩ := h.exists_related hm hm' hi'
    exact mt (h.badAt hR).mp (hgood i hi)
  refine ⟨_, (lower_eq_some_iff hm' h.symm.lt_size).mpr ⟨hgood', rfl⟩, fun v htrue => ?_⟩
  obtain ⟨n, n', hn, hn', halike⟩ := h.node _ _ h.start
  have hself := hm.self_mem_postorder_subtree root
  rw [eval_treeFormula_iff hm (hgood root hself) hn] at htrue
  rw [eval_treeFormula_iff hm' (hgood' root' (hm'.self_mem_postorder_subtree root')) hn',
    halike.children_eq_nil_iff, h.selected h.start]
  refine ⟨htrue.1, h.meets halike (fun c c' hR hc _ => ?_) htrue.2⟩
  obtain ⟨-, hmem, hlt, hne⟩ := hm.child_below h.lt_size hself hn hc
  exact h.eval_formulaBelow hm hm' hgood c hlt c' hR hmem hne

/-- Both trees have a formula or neither has one, and the formulas are true together. -/
theorem lower (hm : m.WellFormed) (hm' : m'.WellFormed) :
    Option.Rel (fun f f' => ∀ v, f.eval v = f'.eval v) (m.lower root).value
      (m'.lower root').value := by
  cases hf : (m.lower root).value with
  | none =>
    cases hf' : (m'.lower root').value with
    | none => exact .none
    | some f' =>
      obtain ⟨f, hsome, -⟩ := h.symm.exists_lower hm' hm hf'
      rw [hf] at hsome
      cases hsome
  | some f =>
    obtain ⟨f', hf', hforth⟩ := h.exists_lower hm hm' hf
    obtain ⟨g, hg, hback⟩ := h.symm.exists_lower hm' hm hf'
    obtain rfl := Option.some.inj (hf.symm.trans hg)
    rw [hf']
    exact .some (fun v => Bool.eq_iff_iff.mpr ⟨hforth v, hback v⟩)

end

end Similar

end Variability.Lowering
