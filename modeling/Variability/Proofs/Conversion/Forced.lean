import Variability.Proofs.Cnf.Units
import Variability.Proofs.Conversion.Cnf
import Variability.Proofs.Conversion.Reordering
import Variability.Proofs.Lowering.Mention

/-!
Documents in which all groups are mandatory or optional.

The last group of every node takes in its mandatory children, and a mandatory
node has a conjunction for its formula (`isConjunction_formulaBelow`). So the
formula of the tree is a conjunction of literals, those of the nodes that are
reached from the root through mandatory children only (`Forced`), and the
clauses are one for each of them, with its number alone (`toCnf_units`).
-/

namespace Variability

namespace Document

/-- Every group that is reached is mandatory or optional. Every feature that is reached has a name
and belongs to one group at most, and the root has a child. -/
structure IsBasic (d : Document) : Prop where
  parents : d.ParentsUnique
  kind : ∀ i, d.Reached i → ∀ g ∈ (d.feature i).groups,
    g.kind = .text "mandatory" ∨ g.kind = .text "optional"
  named : ∀ i, d.Reached i → d.nameOf i ≠ none ∧ d.nameOf i ≠ some ""
  root : d.childrenOf d.root ≠ []

/-- A member of a mandatory group of a feature. -/
def MandatoryMember (d : Document) (i j : Fin d.count) : Prop :=
  ∃ g ∈ (d.feature i).groups, g.kind = .text "mandatory" ∧ j ∈ g.members

end Document

namespace FeatureModel

/-- A mandatory child of a node. -/
def MandatoryChild (m : FeatureModel) (p c : Nat) : Prop :=
  c ∈ m.childrenOf p ∧ m.nodes[c]?.any Node.isMandatory = true

instance {m : FeatureModel} {p c : Nat} : Decidable (m.MandatoryChild p c) :=
  inferInstanceAs (Decidable (_ ∧ _))

/-- A node below another one that is reached from it through mandatory children only. -/
def Forced (m : FeatureModel) (root i : Nat) : Prop := Relation.TransGen m.MandatoryChild root i

end FeatureModel

namespace Conversion

/-! ## The nodes -/

section
variable {d : Document} {m : FeatureModel} {order : List (Fin d.count)} {p c : Nat}
  {i j : Fin d.count}

/-- The kind of a group decides the cardinality of its members. -/
theorem cardinality_of_member (hb : d.IsBasic) (hi : d.Reached i) {g : Document.Group d.count}
    (hg : g ∈ (d.feature i).groups) (hj : j ∈ g.members) {r : Range} (hr : Build.Selects d j r) :
    g.kind = .text "mandatory" ∧ r = .mandatory ∨ g.kind = .text "optional" ∧ r = .optional := by
  have hreached : d.Reached j := hi.child (List.mem_flatMap.mpr ⟨g, hg, hj⟩)
  have hparent := hb.parents.parentGroup? hreached hg hj
  have hkind {k : Build.GroupKind} : Build.HasKind d j k ↔ g.kind = .text k.name := by
    rw [Build.HasKind, hparent, Option.map_some, Option.some.injEq]
  cases hr with
  | mandatory h => exact Or.inl ⟨hkind.mp h, rfl⟩
  | optional h => exact Or.inr ⟨hkind.mp h, rfl⟩
  | bounds hm ho =>
    rcases hb.kind i hi g hg with h | h
    · exact absurd ((hkind (k := .mandatory)).mpr h) hm
    · exact absurd ((hkind (k := .optional)).mpr h) ho

theorem reached_of_transGen (h : Relation.TransGen d.MandatoryMember d.root j) : d.Reached j := by
  have hmem {i j : Fin d.count} : d.MandatoryMember i j → j ∈ d.childrenOf i :=
    fun ⟨g, hg, _, hj⟩ => List.mem_flatMap.mpr ⟨g, hg, hj⟩
  induction h with
  | single hstep => exact Document.reached_root.child (hmem hstep)
  | tail _ hstep ih => exact ih.child (hmem hstep)

section
variable (hb : d.IsBasic) (ho : Build.Ordered d order m)
include ho

theorem exists_feature (hp : p < m.size) : ∃ i, order[p]? = some i := by
  have hlength : order.length = m.size := by
    have hnames := congrArg List.length ho.corresponds.names
    rw [List.length_map, FeatureModel.nodeNames, List.length_map] at hnames
    exact hnames.symm
  exact ⟨order[p], List.getElem?_eq_getElem (hlength ▸ hp)⟩

theorem reached_of_order (hp : order[p]? = some i) : d.Reached i :=
  (ho.mem_iff i).mp (List.mem_of_getElem? hp)

theorem nameAt?_of_order (hp : order[p]? = some i) : m.nameAt? p = d.nameOf i := by
  obtain ⟨n, hn, hfeature, -, -⟩ := ho.corresponds.node p i hp
  rw [FeatureModel.nameAt?, hn, Option.bind_some, Node.name, hfeature]
  rfl

theorem order_inj (hp : order[p]? = some i) (hc : order[c]? = some i) : p = c :=
  (List.getElem?_inj (List.getElem?_eq_some_iff.mp hp).1 ho.nodup).mp (hp.trans hc.symm)

include hb

/-- Each child stands for a member of a group, the kind of which decides its cardinality. -/
theorem exists_member_of_child (hp : order[p]? = some i) (hc : c ∈ m.childrenOf p) :
    ∃ j g n, order[c]? = some j ∧ g ∈ (d.feature i).groups ∧ j ∈ g.members ∧
      m.nodes[c]? = some n ∧
      (g.kind = .text "mandatory" ∧ n.cardinality = .mandatory ∨
        g.kind = .text "optional" ∧ n.cardinality = .optional) := by
  obtain ⟨n, hn, -, -, hgroups⟩ := ho.corresponds.node p i hp
  rw [FeatureModel.childrenOf_of_getElem? hn] at hc
  obtain ⟨j, hj, hcj⟩ := hgroups.exists_member hc
  obtain ⟨g, hg, hjg⟩ := List.mem_flatMap.mp hj
  obtain ⟨n', hn', -, hselects, -⟩ := ho.corresponds.node c j hcj
  exact ⟨j, g, n', hcj, hg, hjg, hn',
    cardinality_of_member hb (reached_of_order ho hp) hg hjg hselects⟩

/-- The mandatory children of a node stand for the members of the mandatory groups. -/
theorem mandatoryChild_iff (hp : order[p]? = some i) (hc : order[c]? = some j) :
    m.MandatoryChild p c ↔ d.MandatoryMember i j := by
  constructor
  · rintro ⟨hchild, hmandatory⟩
    obtain ⟨j', g, n, hcj, hg, hj, hn, ⟨hkind, -⟩ | ⟨-, hr⟩⟩ :=
      exists_member_of_child hb ho hp hchild
    · obtain rfl := Option.some.inj (hcj.symm.trans hc)
      exact ⟨g, hg, hkind, hj⟩
    · rw [hn, Option.any_some, Node.isMandatory, hr] at hmandatory
      exact absurd hmandatory (by decide)
  · rintro ⟨g, hg, hkind, hj⟩
    obtain ⟨n, hn, -, -, hgroups⟩ := ho.corresponds.node p i hp
    obtain ⟨c', hc', hcj⟩ := hgroups.exists_child (List.mem_flatMap.mpr ⟨g, hg, hj⟩)
    obtain rfl := order_inj ho hc hcj
    obtain ⟨n', hn', -, hselects, -⟩ := ho.corresponds.node c j hc
    refine ⟨by rwa [FeatureModel.childrenOf_of_getElem? hn], ?_⟩
    rcases cardinality_of_member hb (reached_of_order ho hp) hg hj hselects with
      ⟨-, hr⟩ | ⟨hoptional, -⟩
    · rw [hn', Option.any_some, Node.isMandatory, hr]
      rfl
    · rw [hkind, Value.text.injEq] at hoptional
      exact absurd hoptional (by decide)

/-- The nodes that are reached through mandatory children only are those of the features that are
reached through mandatory groups only. -/
theorem forced_iff (hm : m.WellFormed) (hp : order[p]? = some j) :
    m.Forced 0 p ↔ Relation.TransGen d.MandatoryMember d.root j := by
  constructor
  · intro h
    induction h generalizing j with
    | single hstep => exact .single ((mandatoryChild_iff hb ho ho.first hp).mp hstep)
    | @tail q c _ hstep ih =>
      obtain ⟨hqc, hc⟩ := hm.lt_of_mem_childrenOf hstep.1
      obtain ⟨i, hi⟩ := exists_feature ho (hqc.trans hc)
      exact (ih hi).tail ((mandatoryChild_iff hb ho hi hp).mp hstep)
  · intro h
    induction h generalizing p with
    | single hstep => exact .single ((mandatoryChild_iff hb ho ho.first hp).mpr hstep)
    | @tail i j hsteps hstep ih =>
      obtain ⟨q, hq⟩ := List.mem_iff_getElem?.mp ((ho.mem_iff i).mpr (reached_of_transGen hsteps))
      exact (ih hq).tail ((mandatoryChild_iff hb ho hq hp).mpr hstep)

/-- The same, with the features found by their names. -/
theorem forced_iff_exists (hm : m.WellFormed) (hp : p < m.size) :
    m.Forced 0 p ↔
      ∃ j, Relation.TransGen d.MandatoryMember d.root j ∧ m.nameAt? p = d.nameOf j := by
  constructor
  · intro h
    obtain ⟨j, hj⟩ := exists_feature ho hp
    exact ⟨j, (forced_iff hb ho hm hj).mp h, nameAt?_of_order ho hj⟩
  · rintro ⟨j, hsteps, hname⟩
    have hreached := reached_of_transGen hsteps
    obtain ⟨q, hq⟩ := List.mem_iff_getElem?.mp ((ho.mem_iff j).mpr hreached)
    obtain ⟨name, hnamed⟩ := Option.ne_none_iff_exists'.mp (hb.named j hreached).1
    have hkeys := ho.corresponds.keys.trans ho.corresponds.names.symm
    obtain rfl := Lowering.eq_of_nameAt? hkeys (hname.trans hnamed)
      ((nameAt?_of_order ho hq).trans hnamed)
    exact (forced_iff hb ho hm hq).mpr hsteps

/-- Every last group is an and-group. -/
theorem lastTypeAt?_eq (hp : p < m.size) : m.lastTypeAt? p = some .and := by
  obtain ⟨i, hi⟩ := exists_feature ho hp
  obtain ⟨n, hn, -, -, hgroups⟩ := ho.corresponds.node p i hi
  rw [FeatureModel.lastTypeAt?, hn, Option.bind_some, Node.lastType?]
  rcases hgroups.getLast? with ⟨-, hfirst⟩ | ⟨g, g', hg, hg', hspans⟩
  · rw [hfirst]
    rfl
  · obtain ⟨k, hk, hrange⟩ := hspans
    have hkind : k = .mandatory ∨ k = .optional := by
      have hname {k' : Build.GroupKind} (h : g.kind = .text k'.name) : k = k' :=
        Build.GroupKind.name_injective (Value.text.inj (hk.symm.trans h))
      exact (hb.kind i (reached_of_order ho hi) g (List.mem_of_getLast? hg)).imp hname hname
    have hall : g'.range = .atLeast 0 := by
      generalize g'.range = r at hrange
      rcases hkind with rfl | rfl <;> cases hrange <;> rfl
    rw [hg', Option.map_some, Group.type, hall]
    rfl

/-- Every node but the root is mandatory or optional. -/
theorem cardinality_of_pos (hm : m.WellFormed) (hp : 0 < p) {n : Node} (hn : m.nodes[p]? = some n) :
    n.cardinality = .mandatory ∨ n.cardinality = .optional := by
  have hsize : p < m.size := (Array.getElem?_eq_some_iff.mp hn).1
  obtain ⟨q, hq⟩ := hm.exists_mem_childrenOf.mpr ⟨hp, hsize⟩
  obtain ⟨i, hi⟩ := exists_feature ho ((hm.lt_of_mem_childrenOf hq).1.trans hsize)
  obtain ⟨_, _, n', -, -, -, hn', hcardinality⟩ := exists_member_of_child hb ho hi hq
  obtain rfl := Option.some.inj (hn'.symm.trans hn)
  exact hcardinality.imp And.right And.right

theorem childrenOf_root_ne_nil : m.childrenOf 0 ≠ [] := by
  obtain ⟨n, hn, -, -, hgroups⟩ := ho.corresponds.node 0 d.root ho.first
  obtain ⟨j, hj⟩ := List.exists_mem_of_ne_nil _ hb.root
  obtain ⟨c, hc, -⟩ := hgroups.exists_child hj
  rw [FeatureModel.childrenOf_of_getElem? hn]
  exact List.ne_nil_of_mem hc

/-- No node is bad. -/
theorem not_badAt (hm : m.WellFormed) (hp : p < m.size) : ¬m.BadAt 0 p := by
  obtain ⟨i, hi⟩ := exists_feature ho hp
  obtain ⟨n, hn, -⟩ := ho.corresponds.node p i hi
  have hname : n.name = d.nameOf i := by
    rw [← nameAt?_of_order ho hi, FeatureModel.nameAt?, hn, Option.bind_some]
  have htype : n.groups.getLast?.map Group.type = some .and := by
    have htype := lastTypeAt?_eq hb ho hp
    rwa [FeatureModel.lastTypeAt?, hn] at htype
  have hcardinality (hne : p ≠ 0) : ¬(n.cardinality ≠ .optional ∧ n.cardinality ≠ .mandatory) := by
    rcases cardinality_of_pos hb ho hm (Nat.pos_of_ne_zero hne) hn with h | h
    · exact fun hneither => hneither.2 h
    · exact fun hneither => hneither.1 h
  rintro ⟨n', hn', hbad⟩
  obtain rfl := Option.some.inj (hn.symm.trans hn')
  rcases hbad with
    hnone | hempty | ⟨hleaf, hneither⟩ | ⟨last, hlast, -, hcard | ⟨hbelow, -, hneither⟩⟩
  · have hnamed := hb.named i (reached_of_order ho hi)
    rw [hname] at hnone
    exact hnone.elim hnamed.1 hnamed.2
  · rw [hempty] at htype
    cases htype
  · by_cases hz : p = 0
    · subst hz
      exact childrenOf_root_ne_nil hb ho ((FeatureModel.childrenOf_of_getElem? hn).trans hleaf)
    · exact hcardinality hz hneither
  · rw [hlast, Option.map_some, hcard] at htype
    cases htype
  · exact hcardinality (of_decide_eq_false hbelow) hneither

theorem not_badAt_of_mem (hm : m.WellFormed) (hsize : 0 < m.size) :
    ∀ i ∈ (m.subtree 0).postorder, ¬m.BadAt 0 i :=
  fun _ hi => not_badAt hb ho hm (hm.lt_size_of_mem_postorder hsize hi)

/-- The formula of the tree mentions just the nodes that are reached through mandatory children. -/
theorem relevant_iff (hm : m.WellFormed) : Lowering.Relevant m 0 p ↔ m.Forced 0 p := by
  have hmentions : Lowering.Mentions m = m.MandatoryChild := by
    funext q c
    have htype (hc : c ∈ m.childrenOf q) : m.lastTypeAt? q = some .and := by
      obtain ⟨hlt, hsize⟩ := hm.lt_of_mem_childrenOf hc
      exact lastTypeAt?_eq hb ho (hlt.trans hsize)
    refine propext ⟨?_, fun ⟨hc, hmandatory⟩ => .mandatory hc (htype hc) hmandatory⟩
    rintro (⟨hc, hor⟩ | ⟨hc, -, hmandatory⟩)
    · rw [htype hc] at hor
      rcases hor with hor | hor <;> cases hor
    · exact ⟨hc, hmandatory⟩
  rw [Lowering.Relevant, if_neg (childrenOf_root_ne_nil hb ho), hmentions, FeatureModel.Forced]

end

end

/-! ## The formula of the tree -/

section
variable {m : FeatureModel} {n : Node} {below : List (Nat × Formula)} {i : Nat}

/-- With an and-group for its last one, a node that is not optional has a conjunction if its
mandatory children have. -/
theorem isConjunction_ruleFormula {isRoot : Bool} (htype : n.lastType? = some .and)
    (hself : isRoot = true ∨ n.isOptional = false)
    (h : ∀ q ∈ below, m.nodes[q.1]?.any Node.isMandatory = true → q.2.IsConjunction) :
    (Lowering.ruleFormula m isRoot n below).IsConjunction := by
  have hchildren : (Lowering.childrenRule m below (some .and)).IsConjunction := by
    refine .conj (fun f hf => ?_)
    obtain ⟨q, hq, rfl⟩ := List.mem_map.mp hf
    obtain ⟨hq, hmandatory⟩ := List.mem_filter.mp hq
    exact h q hq hmandatory
  have hlast : n.groups.getLast?.map Group.type = some .and := htype
  simp only [Lowering.ruleFormula, hlast]
  split
  · exact .literal _
  split
  · split
    · exact .top
    · exact hchildren
  · next hroot =>
    rw [hself.resolve_left hroot]
    split
    · exact .literal _
    · exact .conj (List.forall_mem_cons.mpr
        ⟨.literal _, List.forall_mem_singleton.mpr hchildren⟩)

variable (hm : m.WellFormed) (htype : ∀ p < m.size, m.lastTypeAt? p = some .and)
include hm htype

theorem isConjunction_subtree {isRoot : Bool} (hn : m.nodes[i]? = some n)
    (hself : isRoot = true ∨ n.isOptional = false)
    (hbelow : ∀ c ∈ m.childrenOf i, m.nodes[c]?.any Node.isMandatory = true →
      (m.formulaBelow c).IsConjunction) : (m.treeFormula isRoot (m.subtree i)).IsConjunction := by
  have hand := htype i (Array.getElem?_eq_some_iff.mp hn).1
  rw [FeatureModel.lastTypeAt?, hn, Option.bind_some] at hand
  rw [Lowering.treeFormula_subtree hm hn]
  refine isConjunction_ruleFormula hand hself (fun q hq hmandatory => ?_)
  obtain ⟨c, hc, rfl⟩ := List.mem_map.mp hq
  rw [← FeatureModel.childrenOf_of_getElem? hn] at hc
  exact hbelow c hc hmandatory

theorem isConjunction_formulaBelow : ∀ i < m.size, m.nodes[i]?.any Node.isMandatory = true →
    (m.formulaBelow i).IsConjunction := by
  refine hm.node_induction (fun i hi ih hmandatory => ?_)
  have hn : m.nodes[i]? = some m.nodes[i] := Array.getElem?_eq_getElem hi
  rw [hn, Option.any_some, Node.isMandatory, decide_eq_true_iff] at hmandatory
  refine isConjunction_subtree hm htype hn (Or.inr ?_) ih
  rw [Node.isOptional, hmandatory]
  rfl

theorem isConjunction_treeFormula (hi : i < m.size) :
    (m.treeFormula true (m.subtree i)).IsConjunction := by
  have hn : m.nodes[i]? = some m.nodes[i] := Array.getElem?_eq_getElem hi
  refine isConjunction_subtree hm htype hn (Or.inl rfl) (fun c hc => ?_)
  exact isConjunction_formulaBelow hm htype c (hm.lt_of_mem_childrenOf hc).2

end

section
variable {d : Document} {m : FeatureModel} {order : List (Fin d.count)}

theorem lt_size_of_forced (hm : m.WellFormed) {i : Nat} (h : m.Forced 0 i) : i < m.size := by
  cases h with
  | single hstep | tail _ hstep => exact (hm.lt_of_mem_childrenOf hstep.1).2

/-- The names in the formula of the tree. -/
theorem mem_names_iff (hb : d.IsBasic) (ho : Build.Ordered d order m) (hm : m.WellFormed)
    (hsize : 0 < m.size) {name : String} :
    name ∈ (m.treeFormula true (m.subtree 0)).names ↔
      ∃ i, m.Forced 0 i ∧ m.nameAt? i = some name := by
  have hgood := not_badAt_of_mem hb ho hm hsize
  have hnamed {i : Nat} (hi : i ∈ (m.subtree 0).postorder) :
      m.nameAt? i = some ((m.nameAt? i).getD "") := by
    obtain ⟨name, hname⟩ := Lowering.exists_nameAt? hm hsize hgood hi
    rw [hname, Option.getD_some]
  rw [Lowering.names_treeFormula hm hsize hgood, List.mem_map]
  simp only [List.mem_filter, decide_eq_true_iff, relevant_iff hb ho hm, Tree.mem_preorder]
  constructor
  · rintro ⟨i, ⟨hi, hforced⟩, rfl⟩
    exact ⟨i, hforced, hnamed hi⟩
  · rintro ⟨i, hforced, hname⟩
    have hi := hm.mem_postorder_subtree_zero (lt_size_of_forced hm hforced)
    exact ⟨i, ⟨hi, hforced⟩, by rw [hname, Option.getD_some]⟩

end

/-! ## The clauses -/

/-- The number of a name is the place of its node. -/
theorem find?_of_nameAt? {c : Conversion} (hnodup : c.names.Nodup) {i : Nat} {name : String}
    (h : c.model.nameAt? i = some name) :
    (Numbering.ofNames c.names).find? name = some ((i : Int) + 1) := by
  obtain ⟨n, hn, hname⟩ := Option.bind_eq_some_iff.mp h
  refine (Numbering.find?_ofNames hnodup).mpr ⟨i, ?_, rfl⟩
  rw [names, List.getElem?_map, Array.getElem?_toList, hn, Option.map_some, hname, Option.getD_some]

section
variable {d : Document} {c : Conversion} {order : List (Fin d.count)}
  (hbuilt : Built d c) (hb : d.IsBasic) (ho : Build.Ordered d order c.model)
include hbuilt hb ho

theorem lower_of_isBasic :
    c.model.lower c.root = ⟨some (c.model.treeFormula true (c.model.subtree 0)), []⟩ := by
  have hm := hbuilt.wellFormed
  have hgood := not_badAt_of_mem hb ho hm hbuilt.size_pos
  rw [hbuilt.root, FeatureModel.lower, Lowering.lowerFrom_result_eq hm hbuilt.size_pos,
    Lowering.findSome?_defectAt?_eq_none.mpr hgood]

theorem nodup_names_of_isBasic : c.model.nodeNames = c.names.map some ∧ c.names.Nodup := by
  have hn := Built.nodeNames_eq (fun i hi => not_badAt hb ho hbuilt.wellFormed hi)
  exact ⟨hn, hbuilt.nodup_names hn⟩

theorem exists_number {i : Nat} (hi : i < c.model.size) :
    ∃ name, c.model.nameAt? i = some name ∧
      (Numbering.ofNames c.names).find? name = some ((i : Int) + 1) := by
  obtain ⟨j, hj⟩ := exists_feature ho hi
  obtain ⟨name, hname⟩ :=
    Option.ne_none_iff_exists'.mp (hb.named j (reached_of_order ho hj)).1
  have hnode := (nameAt?_of_order ho hj).trans hname
  exact ⟨name, hnode, find?_of_nameAt? (nodup_names_of_isBasic hbuilt hb ho).2 hnode⟩

/-- The formula of the tree has one clause for each node that is reached through mandatory children
only. -/
theorem exists_clauses (strategy : BoolExpr.Strategy) :
    ∃ cs, (c.model.treeFormula true (c.model.subtree 0)).clauses (Numbering.ofNames c.names)
        strategy = .ok cs ∧ cs.Nodup ∧
      ∀ clause, clause ∈ cs ↔ ∃ i, c.model.Forced 0 i ∧ clause = [(i : Int) + 1] := by
  have hm := hbuilt.wellFormed
  have hmem {name : String} : name ∈ (c.model.treeFormula true (c.model.subtree 0)).names ↔
      ∃ i, c.model.Forced 0 i ∧ c.model.nameAt? i = some name :=
    mem_names_iff hb ho hm hbuilt.size_pos
  have hnodup := (nodup_names_of_isBasic hbuilt hb ho).2
  have hconj := isConjunction_treeFormula hm (fun p hp => lastTypeAt?_eq hb ho hp) hbuilt.size_pos
  have hcovers : (Numbering.ofNames c.names).Covers
      (c.model.treeFormula true (c.model.subtree 0)) :=
    Numbering.covers_ofNames hnodup
      (fun name hname => mem_names_of_treeFormula (Formula.mem_literals.mp hname))
  -- Two names with one number are the name of one node.
  have hinj : ∀ x ∈ (c.model.treeFormula true (c.model.subtree 0)).names,
      ∀ y ∈ (c.model.treeFormula true (c.model.subtree 0)).names,
        (Numbering.ofNames c.names).find? x = (Numbering.ofNames c.names).find? y → x = y := by
    intro x hx y hy heq
    obtain ⟨i, -, hi⟩ := hmem.mp hx
    obtain ⟨j, -, hj⟩ := hmem.mp hy
    rw [find?_of_nameAt? hnodup hi, find?_of_nameAt? hnodup hj, Option.some.injEq] at heq
    obtain rfl : i = j := by omega
    exact Option.some.inj (hi.symm.trans hj)
  obtain ⟨cs, hcs, hcsNodup, hunits⟩ := Formula.exists_units hconj hcovers hinj strategy
  refine ⟨cs, hcs, hcsNodup, fun clause => ?_⟩
  rw [hunits]
  constructor
  · rintro ⟨name, hname, k, hk, rfl⟩
    obtain ⟨i, hforced, hi⟩ := hmem.mp hname
    obtain rfl := Option.some.inj (hk.symm.trans (find?_of_nameAt? hnodup hi))
    exact ⟨i, hforced, rfl⟩
  · rintro ⟨i, hforced, rfl⟩
    have hlt := lt_size_of_forced hm hforced
    obtain ⟨name, hname, hk⟩ := exists_number hbuilt hb ho hlt
    exact ⟨name, hmem.mpr ⟨i, hforced, hname⟩, _, hk, rfl⟩

end

open Classical in
/-- For every document that is converted, whose groups are all mandatory or optional, whose features
have names and belong to one group each, whose root has a child, and without constraints that are
formulas: the tree has a formula, without a problem, and there is a conjunctive normal form. Each
node has its place, counted from 1, as the number of its name, and the clauses, in ascending order,
are just the numbers of the nodes that are reached from the root through mandatory children only,
each of them alone. These are the nodes of the features that are reached from the root through
mandatory groups only. -/
theorem toCnf_units {d : Document} {c : Conversion} (h : ofDocument (some d) = .ok c)
    (hb : d.IsBasic) (hconstraints : (Constraint.report d.constraints).formulas = [])
    (strategy : BoolExpr.Strategy) (verbose : Bool) :
    ∃ f cnf, c.model.lower c.root = ⟨some f, []⟩ ∧ (c.toCnf strategy verbose).1 = .ok cnf ∧
      (∀ i < c.model.size, ∃ name, c.model.nameAt? i = some name ∧
        cnf.numbering.find? name = some ((i : Int) + 1)) ∧
      Cnf.sorted cnf.clauses =
        ((List.range c.model.size).filter (fun i => decide (c.model.Forced c.root i))).map
          (fun i : Nat => [(i : Int) + 1]) ∧
      ∀ i < c.model.size, (c.model.Forced c.root i ↔
        ∃ j, Relation.TransGen d.MandatoryMember d.root j ∧
          c.model.nameAt? i = d.nameOf j) := by
  have hbuilt := built_of_ofDocument h
  obtain ⟨order, ho⟩ := exists_ordered h
  have hm := hbuilt.wellFormed
  have hlower := lower_of_isBasic hbuilt hb ho
  have hget : c.formula.get = .ok (c.model.treeFormula true (c.model.subtree 0)) := by
    have hnone : c.model.constraints = [] := by rw [hbuilt.constraints, hconstraints, List.map_nil]
    rw [formula, hnone, hlower]
    rfl
  obtain ⟨cs, hcs, hnodup, hmem⟩ := exists_clauses hbuilt hb ho strategy
  refine ⟨_, ⟨cs, Numbering.ofNames c.names⟩, hlower, ?_,
    fun i hi => exists_number hbuilt hb ho hi, ?_, ?_⟩
  · rw [toCnf_of_formula hget (nodup_names_of_isBasic hbuilt hb ho).1, hcs]
  · rw [hbuilt.root]
    refine Cnf.sorted_of_units hnodup (fun clause => ?_) (List.pairwise_lt_range.filter _)
    rw [hmem]
    refine exists_congr fun i => and_congr_left fun _ => ?_
    rw [List.mem_filter, List.mem_range, decide_eq_true_iff]
    exact ⟨fun hi => ⟨lt_size_of_forced hm hi, hi⟩, And.right⟩
  · intro i hi
    rw [hbuilt.root]
    exact forced_iff_exists hb ho hm hi

/-- A document with mandatory and optional groups in turn. -/
def mixed : Document where
  count := 7
  features := #v[
    { name := some "R", groups := [
      { kind := .text "mandatory", members := [1] },
      { kind := .text "optional", members := [2] },
      { kind := .text "mandatory", members := [3] }] },
    { name := some "A", groups := [
      { kind := .text "optional", members := [4] },
      { kind := .text "mandatory", members := [5] }] },
    { name := some "B", groups := [{ kind := .text "mandatory", members := [6] }] },
    { name := some "C" }, { name := some "D" }, { name := some "E" }, { name := some "F" }]
  root := 0

theorem isBasic_mixed : mixed.IsBasic where
  parents := .of_forall (by decide +kernel) (by decide +kernel)
  kind := by
    intro (i : Fin 7) _
    fin_cases i
    · exact List.forall_mem_cons.mpr ⟨Or.inl rfl, List.forall_mem_cons.mpr
        ⟨Or.inr rfl, List.forall_mem_singleton.mpr (Or.inl rfl)⟩⟩
    · exact List.forall_mem_cons.mpr ⟨Or.inr rfl, List.forall_mem_singleton.mpr (Or.inl rfl)⟩
    · exact List.forall_mem_singleton.mpr (Or.inl rfl)
    all_goals exact List.forall_mem_nil _
  named := by
    have hnamed : ∀ i, mixed.nameOf i ≠ none ∧ mixed.nameOf i ≠ some "" := by decide +kernel
    exact fun i _ => hnamed i
  root := by decide +kernel

theorem exists_mixed : ∃ c, ofDocument (some mixed) = .ok c ∧ c.model.size = 7 ∧
    ∀ p < c.model.size, ∀ i < c.model.size,
      (c.model.MandatoryChild p i ↔ (p, i) ∈ [(0, 1), (0, 3), (1, 6), (2, 4)]) := by
  have hnodes : (ofDocument (some mixed)).toOption.any (fun c => decide (c.model.size = 7 ∧
      ∀ p < c.model.size, ∀ i < c.model.size,
        (c.model.MandatoryChild p i ↔ (p, i) ∈ [(0, 1), (0, 3), (1, 6), (2, 4)]))) = true := by
    decide +kernel
  obtain ⟨c, hc, hdecided⟩ := (Option.any_eq_true _ _).mp hnodes
  exact ⟨c, ofDocument_of_toOption hc, of_decide_eq_true hdecided⟩

/-- The nodes that are reached, where four steps are all. The third node is not, so the step from it
leads nowhere. -/
theorem forced_of_steps {m : FeatureModel} (hm : m.WellFormed) (hsize : m.size = 7)
    (hsteps : ∀ p < m.size, ∀ i < m.size,
      (m.MandatoryChild p i ↔ (p, i) ∈ [(0, 1), (0, 3), (1, 6), (2, 4)])) (i : Nat) :
    m.Forced 0 i ↔ i ∈ [1, 3, 6] := by
  have hstep {p i : Nat} (h : m.MandatoryChild p i) :
      (p, i) ∈ [(0, 1), (0, 3), (1, 6), (2, 4)] := by
    obtain ⟨hlt, hi⟩ := hm.lt_of_mem_childrenOf h.1
    exact (hsteps p (hlt.trans hi) i hi).mp h
  rw [hsize] at hsteps
  simp only [List.mem_cons, Prod.mk.injEq, List.not_mem_nil, or_false] at hstep ⊢
  constructor
  · intro h
    induction h with
    | single h =>
      have hpair := hstep h
      omega
    | tail _ h ih =>
      have hpair := hstep h
      omega
  · have hone : m.MandatoryChild 0 1 := (hsteps 0 (by decide) 1 (by decide)).mpr (by decide)
    have hthree : m.MandatoryChild 0 3 := (hsteps 0 (by decide) 3 (by decide)).mpr (by decide)
    have hsix : m.MandatoryChild 1 6 := (hsteps 1 (by decide) 6 (by decide)).mpr (by decide)
    rintro (rfl | rfl | rfl)
    · exact .single hone
    · exact .single hthree
    · exact .tail (.single hone) hsix

/-- The mandatory children of the root, and that of one of them. The child of the optional one is
left out. -/
theorem toCnf_units_mixed : ∃ c f cnf, ofDocument (some mixed) = .ok c ∧
    c.model.lower c.root = ⟨some f, []⟩ ∧ (c.toCnf .first true).1 = .ok cnf ∧
    Cnf.sorted cnf.clauses = [[2], [4], [7]] := by
  obtain ⟨c, hc, hsize, hsteps⟩ := exists_mixed
  have hbuilt := built_of_ofDocument hc
  have hforced (i : Nat) : c.model.Forced c.root i ↔ i ∈ [1, 3, 6] := by
    rw [hbuilt.root]
    exact forced_of_steps hbuilt.wellFormed hsize hsteps i
  obtain ⟨f, cnf, hlower, hcnf, -, hclauses, -⟩ :=
    toCnf_units hc isBasic_mixed (by decide +kernel) .first true
  refine ⟨c, f, cnf, hc, hlower, hcnf, ?_⟩
  rw [hclauses, hsize]
  simp only [hforced]
  decide

end Conversion

end Variability
