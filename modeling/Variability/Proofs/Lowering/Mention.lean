import Variability.Proofs.Lowering.Configuration

/-!
The features that the formula of a tree mentions.

A node hands on the formulas of those children that the type of its last group
takes in (`Mentions`): all of them, or the mandatory ones. So the formula below a
node mentions the node and what steps from nodes to such children lead to, in
preorder (`names_formulaBelow`), and the formula of a tree the same without the
topmost node, unless that has no children (`names_treeFormula`). In a built tree
all names are different, so none of them appears twice (`literals_lower`).
-/

namespace Variability

namespace FeatureModel

/-- The name of a node. -/
def nameAt? (m : FeatureModel) (i : Nat) : Option String := m.nodes[i]?.bind Node.name

/-- The type of the last group of a node. -/
def lastTypeAt? (m : FeatureModel) (i : Nat) : Option GroupType := m.nodes[i]?.bind Node.lastType?

end FeatureModel

namespace Lowering

/-- A child that the last group of its parent takes in: each child if that is an alternative or an
or-group, a mandatory one if it is an and-group. -/
inductive Mentions (m : FeatureModel) (p c : Nat) : Prop where
  | any (child : c ∈ m.childrenOf p)
      (type : m.lastTypeAt? p = some .alternative ∨ m.lastTypeAt? p = some .or)
  | mandatory (child : c ∈ m.childrenOf p) (type : m.lastTypeAt? p = some .and)
      (mandatory : m.nodes[c]?.any Node.isMandatory = true)

/-- A node that the formula of the tree below `top` mentions: `top` itself if it has no children,
and otherwise the nodes that steps to children that are taken in lead to. -/
def Relevant (m : FeatureModel) (top i : Nat) : Prop :=
  if m.childrenOf top = [] then i = top else Relation.TransGen (Mentions m) top i

/-! ## The names in the formula of a node -/

/-- Whether a last group of the given type takes in a child. -/
def takesIn (m : FeatureModel) (c : Nat) : GroupType → Bool
  | .alternative | .or => true
  | .and => m.nodes[c]?.any Node.isMandatory
  | .cardinality => false

section
variable {m : FeatureModel} {n : Node} {F : Nat → Formula} {p c : Nat}

theorem mentions_iff (hn : m.nodes[p]? = some n) (hc : c ∈ n.children) :
    Mentions m p c ↔ n.lastType?.any (takesIn m c) = true := by
  have hchild : c ∈ m.childrenOf p := by rwa [FeatureModel.childrenOf_of_getElem? hn]
  have htype : m.lastTypeAt? p = n.lastType? := by rw [FeatureModel.lastTypeAt?, hn]; rfl
  constructor
  · rintro (⟨-, ht⟩ | ⟨-, ht, hm⟩)
    · rw [htype] at ht
      rcases ht with ht | ht <;> rw [ht] <;> rfl
    · rw [htype] at ht
      rw [ht]
      exact hm
  · intro h
    cases ht : n.lastType? with
    | none => rw [ht] at h; cases h
    | some type =>
      rw [ht] at h
      rw [ht] at htype
      cases type with
      | alternative => exact .any hchild (Or.inl htype)
      | or => exact .any hchild (Or.inr htype)
      | and => exact .mandatory hchild htype h
      | cardinality => cases h

theorem Mentions.child (h : Mentions m p c) : c ∈ m.childrenOf p := by
  cases h <;> assumption

theorem names_childrenRule (cs : List Nat) {type : GroupType} (ht : type ≠ .cardinality) :
    (childrenRule m (cs.map (fun c => (c, F c))) (some type)).names =
      (cs.filter (takesIn m · type)).flatMap (fun c => (F c).names) := by
  cases type with
  | alternative =>
    simp [childrenRule, Formula.names, takesIn, List.flatMap_map]
  | or => simp [childrenRule, Formula.names, takesIn, List.flatMap_map]
  | and =>
    show (Formula.conj (((cs.map (fun c => (c, F c))).filter _).map Prod.snd)).names = _
    rw [List.filter_map, List.map_map, Formula.names, Formula.namesAll_eq, List.flatMap_map]
    rfl
  | cardinality => exact absurd rfl ht

/-- The formula of children without operands mentions nothing. -/
theorem names_childrenRule_of_isEmpty {below : List (Nat × Formula)} {type : Option GroupType}
    (h : (childrenRule m below type).children.isEmpty) :
    (childrenRule m below type).names = [] := by
  unfold childrenRule at h ⊢
  split at h
  all_goals
    rw [Formula.children, List.isEmpty_iff] at h
    rw [Formula.names, h]
    rfl

/-- The formula of a node mentions the node, unless it is a topmost one with children, and then what
the formulas of the children that are taken in mention. -/
theorem names_ruleFormula {isRoot : Bool} (h : ¬Bad m isRoot n) :
    (ruleFormula m isRoot n (n.children.map (fun c => (c, F c)))).names =
      (if isRoot && !n.children.isEmpty then [] else [n.name.getD ""]) ++
        (n.children.filter (fun c => n.lastType?.any (takesIn m c))).flatMap
          (fun c => (F c).names) := by
  obtain ⟨name, type, -, ht, hcard⟩ := exists_name_of_not_bad h
  by_cases hne : n.children = []
  · simp [ruleFormula, hne, Formula.names]
  · have hnames := names_childrenRule (m := m) (F := F) n.children (hcard hne)
    have htype : n.groups.getLast?.map Group.type = some type := ht
    have hsome : (n.children.map (fun c => (c, F c))).isEmpty = false := by simpa using hne
    have hchildren : n.children.isEmpty = false := by simpa using hne
    simp only [ruleFormula, htype, hsome, hchildren, ht, Option.any_some, ← hnames]
    cases hempty : (childrenRule m (n.children.map (fun c => (c, F c)))
      (some type)).children.isEmpty with
    | true =>
      rw [names_childrenRule_of_isEmpty hempty]
      cases isRoot <;> rfl
    | false =>
      cases isRoot <;> cases n.isOptional <;>
        simp [Formula.names]

end

/-! ## The names in the formula of a tree -/

section
variable {m : FeatureModel} {top i : Nat}

theorem lt_of_transGen (hm : m.WellFormed) (h : Relation.TransGen (Mentions m) top i) :
    top < i := by
  induction h with
  | single hstep => exact (hm.lt_of_mem_childrenOf hstep.child).1
  | tail _ hstep ih => exact ih.trans (hm.lt_of_mem_childrenOf hstep.child).1

/-- Through a child of a node, steps to children that are taken in lead to what they lead to from
the child, if the child is taken in. -/
theorem transGen_mentions_iff (hm : m.WellFormed) {c : Nat} (hc : c ∈ m.childrenOf top)
    (hi : i ∈ (m.subtree c).postorder) :
    Relation.TransGen (Mentions m) top i ↔
      Mentions m top c ∧ Relation.ReflTransGen (Mentions m) c i := by
  rw [Relation.TransGen.head'_iff]
  constructor
  · rintro ⟨c', hc', hsteps⟩
    have hi' : i ∈ (m.subtree c').postorder :=
      (hm.mem_postorder_subtree c' (hm.lt_of_mem_childrenOf hc'.child).2).mpr
        (Relation.ReflTransGen.mono (fun _ _ h => h.child) _ _ hsteps)
    obtain rfl := hm.child_unique hc hc'.child hi hi'
    exact ⟨hc', hsteps⟩
  · exact fun h => ⟨c, h⟩

open Classical in
/-- What is mentioned below the children of a node, child by child. -/
theorem filter_transGen (hm : m.WellFormed) (top : Nat) :
    ((m.childrenOf top).flatMap (fun c => (m.subtree c).preorder)).filter
        (fun i => decide (Relation.TransGen (Mentions m) top i)) =
      ((m.childrenOf top).filter (fun c => decide (Mentions m top c))).flatMap (fun c =>
        (m.subtree c).preorder.filter
          (fun i => decide (Relation.ReflTransGen (Mentions m) c i))) := by
  have hchild {c : Nat} (hc : c ∈ m.childrenOf top) :
      (m.subtree c).preorder.filter
          (fun i => decide (Relation.TransGen (Mentions m) top i)) =
        if Mentions m top c then (m.subtree c).preorder.filter
          (fun i => decide (Relation.ReflTransGen (Mentions m) c i)) else [] := by
    have hstep : ∀ i ∈ (m.subtree c).preorder, (Relation.TransGen (Mentions m) top i ↔
        Mentions m top c ∧ Relation.ReflTransGen (Mentions m) c i) :=
      fun i hi => transGen_mentions_iff hm hc (Tree.mem_preorder.mp hi)
    split
    · next h => exact List.filter_congr (fun i hi => by simp only [hstep i hi, h, true_and])
    · next h =>
      refine List.filter_eq_nil_iff.mpr (fun i hi => ?_)
      simp only [hstep i hi, h, false_and, decide_false, Bool.false_eq_true, not_false_iff]
  rw [List.filter_flatMap, List.flatMap_congr (fun c hc => hchild hc)]
  induction m.childrenOf top with
  | nil => rfl
  | cons c cs ih =>
    rw [List.flatMap_cons, List.filter_cons, ih]
    by_cases h : Mentions m top c <;> simp [h]

open Classical in
theorem filter_reflTransGen (hm : m.WellFormed) (hi : i < m.size) :
    (m.subtree i).preorder.filter (fun j => decide (Relation.ReflTransGen (Mentions m) i j)) =
      i :: ((m.childrenOf i).flatMap (fun c => (m.subtree c).preorder)).filter
        (fun j => decide (Relation.TransGen (Mentions m) i j)) := by
  have hnodup := hm.nodup_preorder i hi
  rw [hm.preorder_subtree, List.nodup_cons] at hnodup
  have hself : Relation.ReflTransGen (Mentions m) i i := .refl
  rw [hm.preorder_subtree, List.filter_cons_of_pos (by simpa using hself)]
  refine congrArg (i :: ·) (List.filter_congr (fun j hj => decide_eq_decide.mpr ?_))
  rw [Relation.reflTransGen_iff_eq_or_transGen]
  exact or_iff_right (fun he => hnodup.1 (he ▸ hj))

open Classical in
/-- The names in the formula of a node, from those in the formulas of its children. -/
theorem names_treeFormula_subtree (hm : m.WellFormed) {n : Node} {isRoot : Bool}
    (hn : m.nodes[i]? = some n) (hgood : ¬Bad m isRoot n)
    (hchildren : ∀ c ∈ n.children, (m.formulaBelow c).names = ((m.subtree c).preorder.filter
      (fun j => decide (Relation.ReflTransGen (Mentions m) c j))).map
        (fun j => (m.nameAt? j).getD "")) :
    (m.treeFormula isRoot (m.subtree i)).names =
      (if isRoot && !n.children.isEmpty then [] else [(m.nameAt? i).getD ""]) ++
        (((m.childrenOf i).flatMap (fun c => (m.subtree c).preorder)).filter
          (fun j => decide (Relation.TransGen (Mentions m) i j))).map
            (fun j => (m.nameAt? j).getD "") := by
  have hname : m.nameAt? i = n.name := by rw [FeatureModel.nameAt?, hn]; rfl
  have htaken : n.children.filter (fun c => n.lastType?.any (takesIn m c)) =
      n.children.filter (fun c => decide (Mentions m i c)) := by
    refine List.filter_congr (fun c hc => ?_)
    rw [Bool.eq_iff_iff, ← mentions_iff hn hc, decide_eq_true_iff]
  rw [treeFormula_subtree hm hn, names_ruleFormula hgood, htaken, filter_transGen hm, hname,
    FeatureModel.childrenOf_of_getElem? hn, List.map_flatMap]
  congr 1
  exact List.flatMap_congr (fun c hc => hchildren c (List.mem_filter.mp hc).1)

open Classical in
/-- Below the topmost node, the formula of a node mentions the nodes that steps to children that are
taken in lead to. -/
theorem names_formulaBelow (hm : m.WellFormed) (htop : top < m.size)
    (hgood : ∀ i ∈ (m.subtree top).postorder, ¬m.BadAt top i) :
    ∀ i < m.size, i ∈ (m.subtree top).postorder → i ≠ top →
      (m.formulaBelow i).names = ((m.subtree i).preorder.filter
        (fun j => decide (Relation.ReflTransGen (Mentions m) i j))).map
          (fun j => (m.nameAt? j).getD "") := by
  refine hm.node_induction (fun i hi ih hmem hne => ?_)
  have hn : m.nodes[i]? = some m.nodes[i] := Array.getElem?_eq_getElem hi
  have hnotBad := not_bad_of_not_badAt (hgood i hmem) hn
  rw [decide_eq_false hne] at hnotBad
  rw [FeatureModel.formulaBelow, filter_reflTransGen hm hi, names_treeFormula_subtree hm hn hnotBad]
  · rfl
  · intro c hc
    obtain ⟨hchild, hmem, -, hne⟩ := hm.child_below htop hmem hn hc
    exact ih c hchild hmem hne

open Classical in
/-- The formula of a tree mentions the relevant nodes, in preorder. -/
theorem names_treeFormula (hm : m.WellFormed) (htop : top < m.size)
    (hgood : ∀ i ∈ (m.subtree top).postorder, ¬m.BadAt top i) :
    (m.treeFormula true (m.subtree top)).names =
      ((m.subtree top).preorder.filter (fun i => decide (Relevant m top i))).map
        (fun i => (m.nameAt? i).getD "") := by
  have hn : m.nodes[top]? = some m.nodes[top] := Array.getElem?_eq_getElem htop
  have hself := hm.self_mem_postorder_subtree top
  have hnotBad := not_bad_of_not_badAt (hgood top hself) hn
  rw [decide_eq_true rfl] at hnotBad
  rw [names_treeFormula_subtree hm hn hnotBad]
  · rw [hm.preorder_subtree, ← FeatureModel.childrenOf_of_getElem? hn]
    by_cases hleaf : m.childrenOf top = []
    · simp [hleaf, Relevant]
    · have hirrefl : ¬Relation.TransGen (Mentions m) top top :=
        fun h => Nat.lt_irrefl top (lt_of_transGen hm h)
      simp [hleaf, Relevant, hirrefl]
  · intro c hc
    obtain ⟨-, hmem, hlt, hne⟩ := hm.child_below htop hself hn hc
    exact names_formulaBelow hm htop hgood c hlt hmem hne

end

/-! ## Built trees -/

/-- Where no node is bad, every node has a name. -/
theorem exists_nameAt? {m : FeatureModel} {top i : Nat} (hm : m.WellFormed) (htop : top < m.size)
    (hgood : ∀ i ∈ (m.subtree top).postorder, ¬m.BadAt top i)
    (hi : i ∈ (m.subtree top).postorder) : ∃ name, m.nameAt? i = some name := by
  have hlt := hm.lt_size_of_mem_postorder htop hi
  have hn : m.nodes[i]? = some m.nodes[i] := Array.getElem?_eq_getElem hlt
  obtain ⟨name, -, hname, -⟩ := exists_name_of_not_bad (not_bad_of_not_badAt (hgood i hi) hn)
  exact ⟨name, by rw [FeatureModel.nameAt?, hn, Option.bind_some, hname]⟩

/-- In a model whose features are those of its nodes, different nodes have different names. -/
theorem eq_of_nameAt? {m : FeatureModel} (hkeys : m.features.keys = m.nodeNames) {i j : Nat}
    {name : String} (hi : m.nameAt? i = some name) (hj : m.nameAt? j = some name) : i = j := by
  have hnodup : m.nodeNames.Nodup := hkeys ▸ m.features.nodup
  have hname {i : Nat} (hi : m.nameAt? i = some name) : m.nodeNames[i]? = some (some name) := by
    obtain ⟨n, hn, hname⟩ := Option.bind_eq_some_iff.mp hi
    rw [FeatureModel.nodeNames, List.getElem?_map, Array.getElem?_toList, hn, Option.map_some,
      hname]
  have hlt := (List.getElem?_eq_some_iff.mp (hname hi)).1
  exact (List.getElem?_inj hlt hnodup).mp ((hname hi).trans (hname hj).symm)

open Classical in
/-- For every built tree and every node to start at from which it has a formula: the literals of the
formula are the names of the relevant nodes, in preorder with the children in the order of the
groups. So the name of a topmost node with children is none of them, and each of them is the name
of a node of the tree. -/
theorem literals_lower {d : Document} {root top : Nat} {m : FeatureModel} {f : Formula}
    (hrun : Build.tree d {} = .ok root m) (htop : top < m.size)
    (hf : (m.lower top).value = some f) :
    (∀ i, m.subtree i = .node i ((m.childrenOf i).map m.subtree)) ∧
    f.literals.map some =
      ((m.subtree top).preorder.filter (fun i => decide (Relevant m top i))).map m.nameAt? ∧
    (m.childrenOf top ≠ [] → ∀ name ∈ f.literals, m.nameAt? top ≠ some name) ∧
    ∀ name ∈ f.literals, ∃ i ∈ (m.subtree top).preorder, m.nameAt? i = some name := by
  obtain ⟨-, hgrown⟩ := Build.tree_eq_ok hrun
  have hm := hgrown.wellFormed
  obtain ⟨hgood, rfl⟩ := (lower_eq_some_iff hm htop).mp hf
  let relevant := (m.subtree top).preorder.filter (fun i => decide (Relevant m top i))
  have hrelevant : ∀ i ∈ relevant, m.nameAt? i = some ((m.nameAt? i).getD "") := by
    intro i hi
    obtain ⟨name, hname⟩ :=
      exists_nameAt? hm htop hgood (Tree.mem_preorder.mp (List.mem_filter.mp hi).1)
    rw [hname, Option.getD_some]
  have hnodup : (relevant.map (fun i => (m.nameAt? i).getD "")).Nodup := by
    refine ((hm.nodup_preorder top htop).filter _).map_on (fun i hi j hj he => ?_)
    exact eq_of_nameAt? hgrown.keys (hrelevant i hi)
      ((hrelevant j hj).trans (congrArg some he.symm))
  have hliterals : (m.treeFormula true (m.subtree top)).literals =
      relevant.map (fun i => (m.nameAt? i).getD "") := by
    have hnames := names_treeFormula hm htop hgood
    rw [Formula.literals_of_nodup (hnames ▸ hnodup), hnames]
  have hmem : ∀ name ∈ (m.treeFormula true (m.subtree top)).literals,
      ∃ i ∈ relevant, m.nameAt? i = some name := by
    intro name hname
    rw [hliterals] at hname
    obtain ⟨i, hi, rfl⟩ := List.mem_map.mp hname
    exact ⟨i, hi, hrelevant i hi⟩
  refine ⟨hm.subtree_eq, ?_, fun hne name hname htopName => ?_, fun name hname => ?_⟩
  · rw [hliterals, List.map_map]
    exact List.map_congr_left (fun i hi => (hrelevant i hi).symm)
  · obtain ⟨i, hi, hiName⟩ := hmem name hname
    have hsteps : Relevant m top i := of_decide_eq_true (List.mem_filter.mp hi).2
    rw [Relevant, if_neg hne] at hsteps
    exact Nat.ne_of_lt (lt_of_transGen hm hsteps) (eq_of_nameAt? hgrown.keys htopName hiName)
  · obtain ⟨i, hi, hiName⟩ := hmem name hname
    exact ⟨i, (List.mem_filter.mp hi).1, hiName⟩

open Classical in
/-- The last group of the root takes in its mandatory child only, and the last group of that one
takes in the members of both its groups. -/
theorem literals_lower_mixed : ∃ d m f, Build.tree d {} = .ok 0 m ∧ (m.lower 0).value = some f ∧
    f.literals = ["B", "C", "D", "E"] ∧
    f.literals.map some =
      ((m.subtree 0).preorder.filter (fun i => decide (Relevant m 0 i))).map m.nameAt? ∧
    "R" ∉ f.literals := by
  let d : Document :=
    { count := 7
      features := #v[
        { name := some "R", groups := [{ kind := .text "optional", members := [1] },
            { kind := .text "mandatory", members := [2] }] },
        { name := some "A", groups := [{ kind := .text "mandatory", members := [3] }] },
        { name := some "B", groups := [{ kind := .text "mandatory", members := [4] },
            { kind := .text "or", members := [5, 6] }] },
        { name := some "X" }, { name := some "C" }, { name := some "D" }, { name := some "E" }]
      root := 0 }
  let f : Formula := .conj [.conj [.literal "B",
    .disj [.literal "C", .literal "D", .literal "E"]]]
  obtain ⟨m, hrun, hsize, hf, hne, hname⟩ := exists_built (d := d) (P := fun m => 0 < m.size ∧
    (m.lower 0).value = some f ∧ m.childrenOf 0 ≠ [] ∧ m.nameAt? 0 = some "R") (by decide +kernel)
  obtain ⟨-, hliterals, hroot, -⟩ := literals_lower hrun hsize hf
  exact ⟨d, m, f, hrun, hf, by decide +kernel, hliterals, fun h => hroot hne "R" h hname⟩

end Lowering

end Variability
