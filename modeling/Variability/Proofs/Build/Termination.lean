import Mathlib.Data.Set.Card
import Mathlib.Data.Set.Finite.Range
import Variability.Proofs.Build.Isomorphism
import Variability.Proofs.Build.Values

/-!
Constructions that come to an end.

Nothing in a construction looks for features that are shared by groups or that are
their own descendants, and the number of its rounds is not limited beforehand
(`Rounds`, `Builds`). It ends because every feature that waits has claimed a name
that was free before, and there are no more names than the features that can be
reached have (`Claimed`).

What is proved (`tree_terminates`):
  1. The rounds end for every document, with a tree or with an error, and they are
     those of the construction with a limit (`completeAll_eq_of_claimed`).
  2. There are at most as many rounds as names.
  3. Where two paths lead to one feature they end with an error, since the names in
     a tree that is built are all different (`Rounds.exists_forest`).
-/

namespace Variability

/-- The names of the features that can be reached. -/
def Document.names (d : Document) : Set (Option String) :=
  {name | ∃ i, d.Reached i ∧ d.nameOf i = name}

namespace Build

open Edit

variable {d : Document} {m m' : FeatureModel}

/-! ## Rounds without a limit -/

/-- What a run of a construction leads to. -/
abbrev Outcome (α : Type) := EStateM.Result Error FeatureModel α

/-- The waiting nodes are completed in so many rounds with this outcome. The node that was added
last is taken first, and a round that fails is the last one. -/
inductive Rounds (d : Document) :
    List (Waiting d.count) → FeatureModel → Nat → Outcome Unit → Prop
  | done {m : FeatureModel} : Rounds d [] m 0 (.ok () m)
  | fails {w : Waiting d.count} {waiting : List (Waiting d.count)} {m m' : FeatureModel} {e : Error}
      (h : complete d w waiting m = .error e m') : Rounds d (w :: waiting) m 1 (.error e m')
  | round {w : Waiting d.count} {waiting waiting' : List (Waiting d.count)} {m m' : FeatureModel}
      {n : Nat} {r : Outcome Unit} (h : complete d w waiting m = .ok waiting' m')
      (rest : Rounds d waiting' m' n r) : Rounds d (w :: waiting) m (n + 1) r

theorem Rounds.unique {waiting : List (Waiting d.count)} {n n' : Nat} {r r' : Outcome Unit}
    (h : Rounds d waiting m n r) (h' : Rounds d waiting m n' r') : n' = n ∧ r' = r := by
  induction h generalizing n' with
  | done =>
    cases h'
    exact ⟨rfl, rfl⟩
  | fails hfails =>
    cases h' with
    | fails hfails' =>
      rw [hfails] at hfails'
      cases hfails'
      exact ⟨rfl, rfl⟩
    | round hround' _ =>
      rw [hfails] at hround'
      cases hround'
  | round hround _ ih =>
    cases h' with
    | fails hfails' =>
      rw [hround] at hfails'
      cases hfails'
    | round hround' rest' =>
      rw [hround] at hround'
      cases hround'
      obtain ⟨rfl, rfl⟩ := ih rest'
      exact ⟨rfl, rfl⟩

/-- Builds the root of a document, which is the first feature that waits. -/
def plant (d : Document) : Build (Waiting d.count) := do
  let name ← addFeature (d.feature d.root)
  let root ← onModel (FeatureModel.addRoot (.registered name))
  return ⟨d.root, root⟩

/-- The outcome of a construction whose rounds have this one. -/
def conclude (root : Nat) : Outcome Unit → Outcome Nat
  | .ok _ m => .ok root m
  | .error e m => .error e m

/-- The tree of a document is built on a model in so many rounds with this outcome. -/
inductive Builds (d : Document) (m : FeatureModel) : Nat → Outcome Nat → Prop
  | unplanted {e : Error} {m' : FeatureModel} (h : plant d m = .error e m') :
      Builds d m 0 (.error e m')
  | planted {w : Waiting d.count} {m' : FeatureModel} {n : Nat} {r : Outcome Unit}
      (h : plant d m = .ok w m') (rounds : Rounds d [w] m' n r) :
      Builds d m n (conclude w.node r)

theorem Builds.unique {n n' : Nat} {r r' : Outcome Nat} (h : Builds d m n r)
    (h' : Builds d m n' r') : n' = n ∧ r' = r := by
  cases h with
  | unplanted hnone =>
    cases h' with
    | unplanted hnone' =>
      rw [hnone] at hnone'
      cases hnone'
      exact ⟨rfl, rfl⟩
    | planted hw' _ =>
      rw [hnone] at hw'
      cases hw'
  | planted hw hrounds =>
    cases h' with
    | unplanted hnone' =>
      rw [hw] at hnone'
      cases hnone'
    | planted hw' hrounds' =>
      rw [hw] at hw'
      cases hw'
      obtain ⟨rfl, rfl⟩ := hrounds.unique hrounds'
      exact ⟨rfl, rfl⟩

theorem tree_eq_plant (d : Document) :
    tree d = plant d >>= fun w => completeAll d d.count [w] >>= fun _ => pure w.node := by
  simp only [tree, plant, bind_assoc, pure_bind]

theorem tree_of_plant {w : Waiting d.count} (h : plant d m = .ok w m') :
    tree d m = conclude w.node (completeAll d d.count [w] m') := by
  rw [tree_eq_plant, bind_of_ok h]
  cases hrun : completeAll d d.count [w] m' with
  | ok u m₁ => exact bind_of_ok hrun
  | error e m₁ => exact bind_of_error hrun

/-! ## The names of the features that wait -/

/-- The keys of a table are different, so names that come after others are different, too. -/
theorem nodup_of_keys_eq {before names : List (Option String)}
    (h : m.features.keys = before ++ names) : names.Nodup := by
  have hkeys : (before ++ names).Nodup := h ▸ m.features.nodup
  exact (List.nodup_append.mp hkeys).2.1

theorem addMember_claims {node group : Nat} {i : Fin d.count} {w : Waiting d.count}
    (hrun : addMember d node group i m = .ok w m') :
    w.feature = i ∧ m'.features.keys = m.features.keys ++ [d.nameOf i] := by
  obtain ⟨name, m₁, hfeature, hrun⟩ := bind_eq_ok.mp hrun
  obtain ⟨rfl, hkeys, -⟩ := addFeature_holds hfeature
  obtain ⟨child, m₂, hadd, hrun⟩ := onModel_bind_eq_ok.mp hrun
  obtain ⟨rfl, rfl⟩ := pure_eq_ok.mp hrun
  rw [(FeatureModel.features_addBelow hadd).1]
  exact ⟨rfl, hkeys⟩

theorem addMembers_claims {node group : Nat} {members : List (Fin d.count)}
    {waiting waiting' : List (Waiting d.count)}
    (hrun : addMembers d node group waiting members m = .ok waiting' m') :
    waiting'.map Waiting.feature = members.reverse ++ waiting.map Waiting.feature ∧
      m'.features.keys = m.features.keys ++ members.map d.nameOf := by
  induction members generalizing waiting m with
  | nil =>
    obtain ⟨rfl, rfl⟩ := pure_eq_ok.mp hrun
    exact ⟨rfl, (List.append_nil _).symm⟩
  | cons i rest ih =>
    obtain ⟨w, m₁, hmember, hmembers⟩ := bind_eq_ok.mp hrun
    obtain ⟨hfeature, hkeys₁⟩ := addMember_claims hmember
    obtain ⟨hwaiting, hkeys⟩ := ih hmembers
    constructor
    · rw [hwaiting, List.map_cons, hfeature, List.reverse_cons, List.append_assoc,
        List.singleton_append]
    · rw [hkeys, hkeys₁, List.map_cons, List.append_assoc, List.singleton_append]

theorem addGroups_claims {owner : Option String} {node : Nat}
    {groups : List (Document.Group d.count)} {waiting waiting' : List (Waiting d.count)}
    (hrun : addGroups d owner node waiting groups m = .ok waiting' m') :
    waiting'.map Waiting.feature =
        (groups.flatMap Document.Group.members).reverse ++ waiting.map Waiting.feature ∧
      m'.features.keys =
        m.features.keys ++ (groups.flatMap Document.Group.members).map d.nameOf := by
  induction groups generalizing waiting m with
  | nil =>
    obtain ⟨rfl, rfl⟩ := pure_eq_ok.mp hrun
    exact ⟨rfl, (List.append_nil _).symm⟩
  | cons g rest ih =>
    obtain ⟨_, -, _, m₁, hgroup, waiting₁, m₂, hmembers, hrun⟩ := Stage.addGroups_cons.mp hrun
    obtain ⟨hwaiting₁, hkeys₁⟩ := addMembers_claims hmembers
    obtain ⟨hwaiting, hkeys⟩ := ih hrun
    rw [List.flatMap_cons]
    constructor
    · rw [hwaiting, hwaiting₁, List.reverse_append, List.append_assoc]
    · rw [hkeys, hkeys₁, (FeatureModel.features_addGroup hgroup).1, List.map_append,
        List.append_assoc]

/-- In a round the children of the feature claim their names and wait, the last one first. -/
theorem complete_claims {w : Waiting d.count} {waiting waiting' : List (Waiting d.count)}
    (hrun : complete d w waiting m = .ok waiting' m') :
    waiting'.map Waiting.feature =
        (d.childrenOf w.feature).reverse ++ waiting.map Waiting.feature ∧
      m'.features.keys = m.features.keys ++ (d.childrenOf w.feature).map d.nameOf := by
  obtain ⟨_, -, _, m₁, hset, hrun⟩ := Stage.complete_iff.mp hrun
  obtain ⟨hwaiting, hkeys⟩ := addGroups_claims hrun
  rw [(FeatureModel.features_setCardinality hset).1] at hkeys
  exact ⟨hwaiting, hkeys⟩

theorem plant_claims {w : Waiting d.count} (hrun : plant d m = .ok w m') :
    w.feature = d.root ∧ m'.features.keys = m.features.keys ++ [d.nameOf d.root] := by
  obtain ⟨name, m₁, hfeature, hrun⟩ := bind_eq_ok.mp hrun
  obtain ⟨rfl, hkeys, -⟩ := addFeature_holds hfeature
  obtain ⟨root, m₂, hadd, hrun⟩ := onModel_bind_eq_ok.mp hrun
  obtain ⟨rfl, rfl⟩ := pure_eq_ok.mp hrun
  rw [(FeatureModel.features_addRoot hadd).1]
  exact ⟨rfl, hkeys⟩

/-! ## How many rounds there are -/

/-- The features that wait can be reached, and since the construction began with the names `before`,
features that can be reached have claimed `claimed`. -/
structure Claimed (d : Document) (before claimed : List (Option String))
    (waiting : List (Waiting d.count)) (m : FeatureModel) : Prop where
  keys : m.features.keys = before ++ claimed
  claimed : ∀ name ∈ claimed, name ∈ d.names
  waiting : ∀ i ∈ waiting.map Waiting.feature, d.Reached i

theorem finite_names (d : Document) : d.names.Finite := by
  have himage : d.names ⊆ Set.range d.nameOf := by
    rintro _ ⟨i, -, rfl⟩
    exact ⟨i, rfl⟩
  exact (Set.finite_range d.nameOf).subset himage

theorem ncard_names_le (d : Document) : d.names.ncard ≤ d.count := by
  have himage : d.names = d.nameOf '' {i | d.Reached i} := by
    ext name
    rfl
  calc d.names.ncard
      ≤ {i | d.Reached i}.ncard := himage ▸ Set.ncard_image_le (Set.toFinite _)
    _ ≤ (Set.univ : Set (Fin d.count)).ncard := Set.ncard_le_ncard (Set.subset_univ _)
    _ = d.count := by rw [Set.ncard_univ, Nat.card_fin]

namespace Claimed

variable {before claimed : List (Option String)} {waiting waiting' : List (Waiting d.count)}

/-- No more names are claimed than there are. -/
theorem length_le (h : Claimed d before claimed waiting m) : claimed.length ≤ d.names.ncard := by
  have hnodup := nodup_of_keys_eq h.keys
  calc claimed.length
      = claimed.toFinset.card := (List.toFinset_card_of_nodup hnodup).symm
    _ = (claimed.toFinset : Set (Option String)).ncard := (Set.ncard_coe_finset _).symm
    _ ≤ d.names.ncard := by
      refine Set.ncard_le_ncard (fun name hname => ?_) (finite_names d)
      exact h.claimed name (List.mem_toFinset.mp hname)

theorem complete {w : Waiting d.count} (h : Claimed d before claimed (w :: waiting) m)
    (hrun : Build.complete d w waiting m = .ok waiting' m') :
    Claimed d before (claimed ++ (d.childrenOf w.feature).map d.nameOf) waiting' m' := by
  obtain ⟨hwaiting, hkeys⟩ := complete_claims hrun
  obtain ⟨hw, hothers⟩ := List.forall_mem_cons.mp h.waiting
  have hchildren : ∀ i ∈ d.childrenOf w.feature, d.Reached i := fun i hi => hw.child hi
  refine { keys := ?keys, claimed := ?claimed, waiting := ?waiting }
  case keys => rw [hkeys, h.keys, List.append_assoc]
  case claimed =>
    refine List.forall_mem_append.mpr ⟨h.claimed, fun name hname => ?_⟩
    obtain ⟨i, hi, rfl⟩ := List.mem_map.mp hname
    exact ⟨i, hchildren i hi, rfl⟩
  case waiting =>
    rw [hwaiting]
    exact List.forall_mem_append.mpr ⟨fun i hi => hchildren i (List.mem_reverse.mp hi), hothers⟩

theorem plant {w : Waiting d.count} (hrun : Build.plant d m = .ok w m') :
    Claimed d m.features.keys [d.nameOf d.root] [w] m' := by
  obtain ⟨hroot, hkeys⟩ := plant_claims hrun
  refine ⟨hkeys, List.forall_mem_singleton.mpr ⟨d.root, Document.reached_root, rfl⟩, ?_⟩
  exact List.forall_mem_singleton.mpr (hroot ▸ Document.reached_root)

end Claimed

/-- The rounds end. Each of them takes a feature from the list that has claimed a name, so a limit
that leaves a round for every name that is free does not cut them short. -/
theorem completeAll_eq_of_claimed {before claimed : List (Option String)}
    {waiting : List (Waiting d.count)} (h : Claimed d before claimed waiting m) {limit : Nat}
    (hlimit : d.names.ncard + waiting.length ≤ claimed.length + limit) :
    ∃ n, Rounds d waiting m n (completeAll d limit waiting m) ∧
      n + claimed.length ≤ d.names.ncard + waiting.length := by
  induction limit generalizing claimed waiting m with
  | zero =>
    have hle := h.length_le
    obtain rfl : waiting = [] := List.eq_nil_of_length_eq_zero (by omega)
    exact ⟨0, .done, by omega⟩
  | succ limit ih =>
    cases waiting with
    | nil =>
      have hle := h.length_le
      exact ⟨0, .done, by rw [List.length_nil]; omega⟩
    | cons w waiting =>
      rw [List.length_cons] at hlimit
      have hstep : completeAll d (limit + 1) (w :: waiting) m =
          (complete d w waiting >>= completeAll d limit) m := rfl
      rw [hstep]
      cases hrun : complete d w waiting m with
      | error e m₁ =>
        rw [bind_of_error hrun]
        have hle := h.length_le
        exact ⟨1, .fails hrun, by rw [List.length_cons]; omega⟩
      | ok waiting₁ m₁ =>
        rw [bind_of_ok hrun]
        have hlength : waiting₁.length = (d.childrenOf w.feature).length + waiting.length := by
          have hlengths := congrArg List.length (complete_claims hrun).1
          rwa [List.length_map, List.length_append, List.length_reverse, List.length_map]
            at hlengths
        obtain ⟨n, hrounds, hn⟩ := ih (h.complete hrun) (by
          rw [List.length_append, List.length_map]
          omega)
        rw [List.length_append, List.length_map] at hn
        exact ⟨n + 1, .round hrun hrounds, by rw [List.length_cons]; omega⟩

/-! ## Features that are reached twice -/

/-- Rounds that succeed build the trees of the features that wait, and each feature in them claims
its name. -/
theorem Rounds.exists_forest {waiting : List (Waiting d.count)} {n : Nat} {u : Unit}
    (h : Rounds d waiting m n (.ok u m')) :
    ∃ ts : List (Tree (Fin d.count)), ts.map Tree.label = waiting.map Waiting.feature ∧
      (∀ t ∈ ts, d.Unfolds t) ∧
      m'.features.keys = m.features.keys ++ (ts.flatMap Tree.expand).map d.nameOf := by
  generalize hr : EStateM.Result.ok u m' = r at h
  induction h with
  | done =>
    cases hr
    exact ⟨[], rfl, (fun _ ht => nomatch ht), (List.append_nil _).symm⟩
  | fails => cases hr
  | round hrun _ ih =>
    obtain ⟨hwaiting, hclaimed⟩ := complete_claims hrun
    obtain ⟨ts, hlabels, hunfolds, hkeys⟩ := ih hr
    rw [hwaiting] at hlabels
    obtain ⟨us, hus, hunfolds', hexpand⟩ := Document.exists_forest_cons hlabels hunfolds
    refine ⟨us, hus, hunfolds', ?_⟩
    rw [hkeys, hclaimed, hexpand, List.map_append, List.append_assoc]

/-- If a tree is built, different paths lead to different names. -/
theorem Builds.distinctFrom {n root : Nat} (h : Builds d m n (.ok root m')) :
    Document.DistinctFrom d.nameOf d.root := by
  generalize hr : EStateM.Result.ok root m' = r at h
  cases h with
  | unplanted => cases hr
  | @planted w m₁ _ r hw hrounds =>
    cases r with
    | error => cases hr
    | ok u m₂ =>
      obtain ⟨hroot, hclaimed⟩ := plant_claims hw
      obtain ⟨ts, hlabels, hunfolds, hkeys⟩ := hrounds.exists_forest
      obtain ⟨t, rfl, hlabel⟩ := List.map_eq_singleton_iff.mp hlabels
      replace hlabel : t.label = d.root := hlabel.trans hroot
      have hnames : m₂.features.keys = m.features.keys ++ t.order.map d.nameOf := by
        rw [hkeys, hclaimed, ← hlabel, ← Tree.append_expand_singleton, List.map_append,
          List.append_assoc]
        rfl
      rw [← hlabel]
      exact Document.distinctFrom_of_nodup (hunfolds t List.mem_cons_self)
        (nodup_of_keys_eq hnames)

/-! ## The whole construction -/

/-- The construction with a limit is the one without, which ends. -/
theorem exists_builds (d : Document) (m : FeatureModel) :
    ∃ n, Builds d m n (tree d m) ∧ n ≤ d.names.ncard := by
  cases hw : plant d m with
  | error e m₁ =>
    rw [tree_eq_plant, bind_of_error hw]
    exact ⟨0, .unplanted hw, Nat.zero_le _⟩
  | ok w m₁ =>
    have hlimit : d.names.ncard + [w].length ≤ [d.nameOf d.root].length + d.count := by
      rw [List.length_singleton, List.length_singleton, Nat.add_comm 1]
      exact Nat.add_le_add_right (ncard_names_le d) 1
    obtain ⟨n, hrounds, hn⟩ := completeAll_eq_of_claimed (Claimed.plant hw) hlimit
    rw [tree_of_plant hw]
    exact ⟨n, .planted hw hrounds, Nat.le_of_add_le_add_right hn⟩

/-- A document in which two paths lead to one feature has no tree. -/
theorem tree_eq_error_of_paths (m : FeatureModel) {p q : List Nat} {i : Fin d.count} (hne : p ≠ q)
    (hp : d.walk? d.root p = some i) (hq : d.walk? d.root q = some i) :
    ∃ e m', tree d m = .error e m' := by
  obtain ⟨n, hbuilds, -⟩ := exists_builds d m
  cases hrun : tree d m with
  | error e m' => exact ⟨e, m', rfl⟩
  | ok root m' =>
    rw [hrun] at hbuilds
    exact absurd (hbuilds.distinctFrom p q i i hp hq rfl) hne

/-- The construction ends on every document and every model, and with one outcome only. It takes at
most as many rounds as the features that can be reached have names, and if one of these is at the
end of two paths, it fails and no model is built. -/
theorem tree_terminates (d : Document) (m : FeatureModel) :
    ∃ n r, Builds d m n r ∧ (∀ n' r', Builds d m n' r' → n' = n ∧ r' = r) ∧ tree d m = r ∧
      n ≤ d.names.ncard ∧
      ∀ p q i, p ≠ q → d.walk? d.root p = some i → d.walk? d.root q = some i →
        (∃ e m', r = .error e m') ∧ ∃ e, d.toFeatureModel = .error e := by
  obtain ⟨n, hbuilds, hn⟩ := exists_builds d m
  refine ⟨n, tree d m, hbuilds, fun n' r' h' => hbuilds.unique h', rfl, hn, ?_⟩
  intro p q i hne hp hq
  obtain ⟨e, m', hempty⟩ := tree_eq_error_of_paths {} hne hp hq
  exact ⟨tree_eq_error_of_paths m hne hp hq, e, Document.toFeatureModel_eq_error.mpr ⟨m', hempty⟩⟩

/-- A document whose root is a member of its own group. -/
def ownDescendant : Document where
  count := 1
  features := #v[
    { name := some "R", groups := [{ kind := .text "or", members := [⟨0, Nat.one_pos⟩] }] }]
  root := ⟨0, Nat.one_pos⟩

/-- The root claims its name a second time, so the first round fails. -/
theorem tree_terminates_ownDescendant :
    (∃ n e m', Builds ownDescendant {} n (.error e m') ∧ n ≤ ownDescendant.names.ncard) ∧
      ownDescendant.toFeatureModel = .error (.duplicateName (some "R")) := by
  obtain ⟨n, r, hbuilds, -, -, hn, hpaths⟩ := tree_terminates ownDescendant {}
  obtain ⟨⟨e, m', rfl⟩, -⟩ := hpaths [] [0] ownDescendant.root (by decide) rfl rfl
  exact ⟨⟨n, e, m', hbuilds, hn⟩, by rfl⟩

end Build

end Variability
