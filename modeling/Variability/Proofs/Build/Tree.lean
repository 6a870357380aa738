import Variability.Conversion
import Variability.Proofs.Build.Feature
import Variability.Proofs.FeatureModel.Reachable

/-!
What building the tree of a document does to a model.

A model under construction stays well-formed, and its features are those of its
nodes, in the same order (`Grown`): a member of a group is registered and gets
its node in one step, and everything else changes neither names nor nodes. So
the names of the nodes of a model that was built are all different
(`tree_eq_ok`). The model of a document is the one of its tree, with constraints
(`toFeatureModel_eq_ok`).
-/

namespace Variability.Build

open Edit
open FeatureModel (Change Named Registered WellFormed)

/-- There is a tree, the features are those of its nodes, in their order, and there are no
constraints yet. -/
structure Grown (m : FeatureModel) : Prop where
  wellFormed : m.WellFormed
  size_pos : 0 < m.size
  named : m.Named
  keys : m.features.keys = m.nodeNames
  constraints : m.constraints = []

variable {m m₁ m' : FeatureModel} {name : Option String}

/-- A change that creates no node keeps the invariant. -/
theorem Grown.of_change (h : Grown m) (hc : Change m m' [])
    (hframe : m'.features = m.features ∧ m'.constraints = m.constraints) : Grown m' where
  wellFormed := h.wellFormed.of_change hc
  size_pos := by
    rw [FeatureModel.size_of_change hc]
    exact h.size_pos
  named := by
    rw [Named, hframe.1]
    exact h.named
  keys := by
    rw [hframe.1, h.keys, FeatureModel.nodeNames_eq_map, FeatureModel.nodeNames_eq_map,
      FeatureModel.nodeFeatures_of_change hc, List.append_nil]
  constraints := hframe.2.trans h.constraints

/-- Registering a feature leaves the nodes and the root alone, and nothing else matters. -/
theorem wellFormed_of_registered (h : m.WellFormed) (hr : Registered m m₁ name) :
    m₁.WellFormed := by
  refine h.of_change (.same ?_ ?_ hr.root ?_ ?_ ?_)
  · rw [FeatureModel.nodeFeatures, hr.nodes, FeatureModel.nodeFeatures]
  · rw [FeatureModel.nodeIndices, hr.nodes, FeatureModel.nodeIndices]
  · funext i
    rw [FeatureModel.linkOf, hr.nodes, FeatureModel.linkOf]
  · funext i
    rw [FeatureModel.groupsOf, hr.nodes, FeatureModel.groupsOf]
  · funext i
    rw [FeatureModel.nextGroupOf, hr.nodes, FeatureModel.nextGroupOf]

/-- Registering a feature and creating its node gives the invariant, if the features were those of
the nodes before. -/
theorem grown_of_registered (hwell : m.WellFormed) (hkeys : m.features.keys = m.nodeNames)
    (hconstraints : m.constraints = []) (hr : Registered m m₁ name)
    (hc : Change m₁ m' [.registered name])
    (hframe : m'.features = m₁.features ∧ m'.constraints = m₁.constraints) : Grown m' where
  wellFormed := (wellFormed_of_registered hwell hr).of_change hc
  size_pos := by
    rw [FeatureModel.size_of_change hc]
    exact Nat.succ_pos _
  named := by
    rw [Named, hframe.1]
    exact hr.named
  keys := by
    have hnodes : m₁.nodeNames = m.nodeNames := by
      rw [FeatureModel.nodeNames, hr.nodes, FeatureModel.nodeNames]
    rw [hframe.1, hr.keys, hkeys, ← hnodes, FeatureModel.nodeNames_eq_map,
      FeatureModel.nodeNames_eq_map m', FeatureModel.nodeFeatures_of_change hc, List.map_append]
    rfl
  constraints := hframe.2.trans (hr.constraints.trans hconstraints)

/-! ## The parts of the construction -/

variable {d : Document}

theorem addMember_eq_ok (h : Grown m) {node group : Nat} {i : Fin d.count}
    {w : Waiting d.count} (hrun : addMember d node group i m = .ok w m') : Grown m' := by
  obtain ⟨name, m₁, hfeature, hrun⟩ := bind_eq_ok.mp hrun
  obtain ⟨-, hr⟩ := addFeature_eq_ok h.named hfeature
  obtain ⟨child, m₂, hadd, hrun⟩ := onModel_bind_eq_ok.mp hrun
  obtain ⟨-, rfl⟩ := pure_eq_ok.mp hrun
  exact grown_of_registered h.wellFormed h.keys h.constraints hr
    (FeatureModel.change_addBelow hadd) (FeatureModel.features_addBelow hadd)

theorem addMembers_eq_ok (h : Grown m) {node group : Nat} {members : List (Fin d.count)}
    {waiting waiting' : List (Waiting d.count)}
    (hrun : addMembers d node group waiting members m = .ok waiting' m') : Grown m' := by
  induction members generalizing m waiting with
  | nil =>
    obtain ⟨-, rfl⟩ := pure_eq_ok.mp hrun
    exact h
  | cons i rest ih =>
    obtain ⟨w, m₁, hmember, hrun⟩ := bind_eq_ok.mp hrun
    exact ih (addMember_eq_ok h hmember) hrun

theorem addGroups_eq_ok (h : Grown m) {owner : Option String} {node : Nat}
    {groups : List (Document.Group d.count)} {waiting waiting' : List (Waiting d.count)}
    (hrun : addGroups d owner node waiting groups m = .ok waiting' m') : Grown m' := by
  induction groups generalizing m waiting with
  | nil =>
    obtain ⟨-, rfl⟩ := pure_eq_ok.mp hrun
    exact h
  | cons g rest ih =>
    obtain ⟨range, m₁, hthrow, hrun⟩ := bind_eq_ok.mp hrun
    obtain ⟨-, rfl⟩ := orThrow_eq_ok.mp hthrow
    obtain ⟨built, m₂, hadd, hrun⟩ := onModel_bind_eq_ok.mp hrun
    obtain ⟨waiting₁, m₂, hmembers, hrun⟩ := bind_eq_ok.mp hrun
    have h₁ := h.of_change (FeatureModel.change_addGroup hadd) (FeatureModel.features_addGroup hadd)
    exact ih (addMembers_eq_ok h₁ hmembers) hrun

theorem complete_eq_ok (h : Grown m) {w : Waiting d.count}
    {waiting waiting' : List (Waiting d.count)}
    (hrun : complete d w waiting m = .ok waiting' m') : Grown m' := by
  obtain ⟨cardinality, m₁, hthrow, hrun⟩ := bind_eq_ok.mp hrun
  obtain ⟨-, rfl⟩ := orThrow_eq_ok.mp hthrow
  obtain ⟨_, m₁, hset, hrun⟩ := onModel_bind_eq_ok.mp hrun
  have h₁ := h.of_change (FeatureModel.change_setCardinality hset)
    (FeatureModel.features_setCardinality hset)
  exact addGroups_eq_ok h₁ hrun

/-- However many rounds there are, the invariant holds after them. -/
theorem completeAll_eq_ok (h : Grown m) {rounds : Nat} {waiting : List (Waiting d.count)}
    {u : Unit} (hrun : completeAll d rounds waiting m = .ok u m') : Grown m' := by
  induction rounds generalizing m waiting with
  | zero =>
    have hdone : (pure () : Build Unit) m = .ok u m' := by
      cases waiting <;> exact hrun
    obtain ⟨-, rfl⟩ := pure_eq_ok.mp hdone
    exact h
  | succ rounds ih =>
    cases waiting with
    | nil =>
      obtain ⟨-, rfl⟩ := pure_eq_ok.mp hrun
      exact h
    | cons w waiting =>
      obtain ⟨waiting₁, m₁, hcomplete, hrun⟩ := bind_eq_ok.mp hrun
      exact ih (complete_eq_ok h hcomplete) hrun

/-- A tree that is built on an empty model starts at the first node, and its features are those of
its nodes. -/
theorem tree_eq_ok {root : Nat} (hrun : tree d {} = .ok root m') : root = 0 ∧ Grown m' := by
  obtain ⟨name, m₁, hfeature, hrun⟩ := bind_eq_ok.mp hrun
  obtain ⟨-, hr⟩ := addFeature_eq_ok (fun name f hf => by cases hf) hfeature
  obtain ⟨i, m₂, hadd, hrun⟩ := onModel_bind_eq_ok.mp hrun
  obtain ⟨_, m₃, hcomplete, hrun⟩ := bind_eq_ok.mp hrun
  obtain ⟨rfl, rfl⟩ := pure_eq_ok.mp hrun
  have h₂ := grown_of_registered .empty rfl rfl hr (FeatureModel.change_addRoot hadd)
    (FeatureModel.features_addRoot hadd)
  refine ⟨?_, completeAll_eq_ok h₂ hcomplete⟩
  -- The root has the first free number, and there was no node before.
  rw [← (FeatureModel.addRoot_iff.mp hadd).2.1, FeatureModel.size, hr.nodes]
  rfl

end Variability.Build

namespace Variability.Document

variable {d : Document}

/-- A model is built iff the tree is, and then it has the constraints of the document, too. -/
theorem toFeatureModel_eq_ok {m : FeatureModel} {root : Nat} :
    d.toFeatureModel = .ok (m, root) ↔ ∃ m₀, Build.tree d {} = .ok root m₀ ∧
      { m₀ with
        constraints := m₀.constraints ++
          (Constraint.report d.constraints).formulas.map (Constraint.resolve m₀.hasFeature)
        problems := (Constraint.report d.constraints).problems } = m := by
  rw [toFeatureModel, EStateM.run]
  cases Build.tree d {} with
  | error e m₀ => simp
  | ok root₀ m₀ => simp [and_comm]

theorem toFeatureModel_eq_error {e : Build.Error} :
    d.toFeatureModel = .error e ↔ ∃ m, Build.tree d {} = .error e m := by
  rw [toFeatureModel, EStateM.run]
  cases Build.tree d {} <;> simp

end Variability.Document
