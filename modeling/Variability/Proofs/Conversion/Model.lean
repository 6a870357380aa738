import Variability.Conversion
import Variability.Proofs.Build.Tree
import Variability.Proofs.Constraint.Plain
import Variability.Proofs.Lowering.Result

/-!
The model of a document that is converted.

It is well-formed, its features are those of its nodes, and its constraints are
those of the document that are formulas, with their references resolved
(`Built`). If its tree has a formula, every node has a name, the names are all
different, and the formula mentions no others.
-/

namespace Variability.Conversion

/-- What a conversion knows about the document it comes from. -/
structure Built (d : Document) (c : Conversion) : Prop where
  root : c.root = 0
  wellFormed : c.model.WellFormed
  size_pos : 0 < c.model.size
  keys : c.model.features.keys = c.model.nodeNames
  constraints : c.model.constraints =
    (Constraint.report d.constraints).formulas.map (Constraint.resolve c.model.hasFeature)

variable {d : Document} {c : Conversion}

theorem ofDocument_eq_ok : ofDocument (some d) = .ok c ↔
    ∃ root m, Build.tree d {} = .ok root m ∧
      c = ⟨d, { m with
        constraints := m.constraints ++
          (Constraint.report d.constraints).formulas.map (Constraint.resolve m.hasFeature)
        problems := (Constraint.report d.constraints).problems }, root⟩ := by
  rw [ofDocument]
  constructor
  · intro h
    split at h
    · next m root hm =>
      obtain ⟨m₀, hrun, rfl⟩ := Document.toFeatureModel_eq_ok.mp hm
      exact ⟨root, m₀, hrun, (Except.ok.inj h).symm⟩
    · cases h
  · rintro ⟨root, m₀, hrun, rfl⟩
    rw [Document.toFeatureModel_eq_ok.mpr ⟨m₀, hrun, rfl⟩]

theorem ofDocument_of_toOption
    (h : (ofDocument (some d)).toOption = some c) : ofDocument (some d) = .ok c := by
  cases hc : ofDocument (some d) with
  | error e =>
    rw [hc] at h
    cases h
  | ok c' =>
    rw [hc] at h
    exact congrArg Except.ok (Option.some.inj h)

theorem built_of_ofDocument (h : ofDocument (some d) = .ok c) : Built d c := by
  obtain ⟨root, m, hrun, rfl⟩ := ofDocument_eq_ok.mp h
  obtain ⟨hroot, hgrown⟩ := Build.tree_eq_ok hrun
  constructor
  case root => exact hroot
  case wellFormed => exact hgrown.wellFormed.of_change (.same rfl rfl rfl rfl rfl rfl)
  case size_pos => exact hgrown.size_pos
  case keys => exact hgrown.keys
  case constraints =>
    show m.constraints ++ _ = _
    rw [hgrown.constraints]
    rfl

/-! ## The formula of the tree -/

/-- The names of the nodes, in the order of the nodes; a missing name counts as an empty one. -/
def names (c : Conversion) : List String :=
  c.model.nodes.toList.map (fun n => n.name.getD "")

namespace Built

/-- Without a bad node, the tree has a formula; otherwise it has none. -/
theorem lower_eq (h : Built d c) :
    (c.model.lower c.root).value = none ∨
      c.model.lower c.root = ⟨some (c.model.treeFormula true (c.model.subtree 0)), []⟩ ∧
        ∀ i < c.model.size, ¬ c.model.BadAt 0 i := by
  have hresult := Lowering.lowerFrom_result_eq h.wellFormed h.size_pos {}
  rw [h.root, FeatureModel.lower, hresult]
  cases hd : (c.model.subtree 0).postorder.findSome? (c.model.defectAt? 0) with
  | some defect => exact Or.inl rfl
  | none =>
    refine Or.inr ⟨rfl, fun i hi => ?_⟩
    exact Lowering.findSome?_defectAt?_eq_none.mp hd i (h.wellFormed.mem_postorder_subtree_zero hi)

/-- Where no node is bad, every node has a name. -/
theorem nodeNames_eq (hgood : ∀ i < c.model.size, ¬ c.model.BadAt 0 i) :
    c.model.nodeNames = c.names.map some := by
  rw [FeatureModel.nodeNames, names, List.map_map]
  refine List.map_congr_left (fun n hn => ?_)
  obtain ⟨i, hi, rfl⟩ := List.mem_iff_getElem.mp hn
  cases hname : c.model.nodes.toList[i].name with
  | some name => simp only [Function.comp, hname, Option.getD_some]
  | none =>
    have hnode : c.model.nodes[i]? = some c.model.nodes.toList[i] := by
      rw [← Array.getElem?_toList, List.getElem?_eq_getElem hi]
    exact absurd ⟨_, hnode, Or.inl (Or.inl hname)⟩ (hgood i hi)

theorem nodup_names (h : Built d c) (hn : c.model.nodeNames = c.names.map some) :
    c.names.Nodup := by
  have hkeys : (c.names.map some).Nodup := by
    rw [← hn, ← h.keys]
    exact c.model.features.nodup
  exact List.Nodup.of_map some hkeys

/-- The features of the model are those with the names of the nodes. -/
theorem hasFeature_iff (h : Built d c) (hn : c.model.nodeNames = c.names.map some)
    {name : String} : c.model.hasFeature name = true ↔ name ∈ c.names := by
  rw [FeatureModel.hasFeature, Table.contains_iff, h.keys, hn, List.mem_map]
  constructor
  · rintro ⟨name', hm, he⟩
    rw [← Option.some.inj he]
    exact hm
  · exact fun hm => ⟨name, hm, rfl⟩

end Built

theorem length_names (c : Conversion) : c.names.length = c.model.size := by
  rw [names, List.length_map]
  rfl

/-- A tree mentions the names of its nodes only. -/
theorem mem_names_of_treeFormula {isRoot : Bool} {t : Tree Nat} {name : String}
    (h : name ∈ (c.model.treeFormula isRoot t).names) : name ∈ c.names := by
  obtain ⟨i, -, n, hn, rfl⟩ := FeatureModel.mem_names_treeFormula h
  refine List.mem_map.mpr ⟨n, ?_, rfl⟩
  exact Array.mem_toList_iff.mpr (Array.mem_of_getElem? hn)

end Variability.Conversion
