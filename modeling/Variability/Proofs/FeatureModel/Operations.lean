import Variability.Proofs.FeatureModel.WellFormed

/-!
Runs of the operations on a feature model.

What is proved:
  1. how a run is taken apart: a run of a sequence that succeeds is made of runs of
     its parts (`bind_eq_ok` and the lemmas after it);
  2. what an operation does, one lemma for each: on which models it succeeds, what
     it gives, and the model afterwards (`addRoot_iff` and the lemmas after it);
  3. that every operation is `Guarded`: if it fails then it has changed nothing,
     because whatever can fail comes before the first change.
-/

namespace Variability

/-! ## Runs -/

namespace Edit

variable {α β ε : Type} {m m' : FeatureModel}

theorem bind_eq_ok {x : Edit ε α} {f : α → Edit ε β} {b : β} :
    (x >>= f) m = .ok b m' ↔ ∃ a m₁, x m = .ok a m₁ ∧ f a m₁ = .ok b m' := by
  show EStateM.bind x f m = .ok b m' ↔ _
  unfold EStateM.bind
  cases x m with
  | ok a m₁ =>
    constructor
    · exact fun h => ⟨a, m₁, rfl, h⟩
    · rintro ⟨a', m₁', he, h⟩
      cases he
      exact h
  | error e m₁ => simp

theorem bind_of_ok {x : Edit ε α} {f : α → Edit ε β} {a : α} (h : x m = .ok a m') :
    (x >>= f) m = f a m' := by
  show EStateM.bind x f m = f a m'
  rw [EStateM.bind, h]

theorem bind_of_error {x : Edit ε α} {f : α → Edit ε β} {e : ε} (h : x m = .error e m') :
    (x >>= f) m = .error e m' := by
  show EStateM.bind x f m = .error e m'
  rw [EStateM.bind, h]

theorem pure_eq_ok {a b : α} : (pure a : Edit ε α) m = .ok b m' ↔ a = b ∧ m = m' := by
  show EStateM.Result.ok a m = .ok b m' ↔ _
  rw [EStateM.Result.ok.injEq]

theorem set_eq_ok {m₁ : FeatureModel} {u : PUnit} :
    (set m₁ : Edit ε PUnit) m = .ok u m' ↔ m₁ = m' := by
  show EStateM.Result.ok PUnit.unit m₁ = .ok u m' ↔ _
  rw [EStateM.Result.ok.injEq, and_iff_right rfl]

theorem modify_eq_ok {f : FeatureModel → FeatureModel} {u : PUnit} :
    (modify f : Edit ε PUnit) m = .ok u m' ↔ f m = m' := by
  show EStateM.Result.ok PUnit.unit (f m) = .ok u m' ↔ _
  rw [EStateM.Result.ok.injEq, and_iff_right rfl]

theorem throw_eq_ok {e : ε} {a : α} : (throw e : Edit ε α) m = .ok a m' ↔ False := by
  show EStateM.Result.error e m = .ok a m' ↔ _
  simp

theorem get_bind {k : FeatureModel → Edit ε β} : (get >>= k) m = k m m := rfl

theorem modify_bind {f : FeatureModel → FeatureModel} {k : PUnit → Edit ε β} :
    (modify f >>= k) m = k .unit (f m) := rfl

theorem discard_eq_ok {x : Edit ε α} {u : Unit} :
    discard x m = .ok u m' ↔ ∃ a, x m = .ok a m' := by
  show EStateM.map _ x m = .ok u m' ↔ _
  unfold EStateM.map
  cases x m <;> simp

end Edit

namespace FeatureModel

open Edit

variable {α β ε : Type} {m m' : FeatureModel} {index i : Nat} {id : Int}

theorem lookUp_bind_of_ok (find : FeatureModel → Except Error α) {k : α → Edit Error β} {a : α}
    (h : find m = .ok a) : (lookUp find >>= k) m = k a m := by
  rw [lookUp, bind_assoc, get_bind, h, pure_bind]

theorem lookUp_bind_of_error (find : FeatureModel → Except Error α) {k : α → Edit Error β}
    {e : Error} (h : find m = .error e) : (lookUp find >>= k) m = .error e m := by
  rw [lookUp, bind_assoc, get_bind, h]
  rfl

theorem lookUp_bind_iff {find : FeatureModel → Except Error α} {k : α → Edit Error β} {b : β} :
    (lookUp find >>= k) m = .ok b m' ↔ ∃ a, find m = .ok a ∧ k a m = .ok b m' := by
  cases h : find m with
  | ok a => simp [lookUp_bind_of_ok find h]
  | error e => simp [lookUp_bind_of_error find h]

/-! ## What a successful operation does -/

theorem addFeature_iff {name : Option String} {type : FeatureType} {f : Feature} :
    addFeature name type m = .ok f m' ↔
      m.features.contains name = false ∧ { name, type } = f ∧ m.storeFeature f = m' := by
  rw [addFeature, get_bind]
  split
  · next h => simp [h, throw_eq_ok]
  · next h =>
    rw [modify_bind, pure_eq_ok, Bool.eq_false_iff]
    constructor
    · rintro ⟨rfl, rfl⟩
      exact ⟨h, rfl, rfl⟩
    · rintro ⟨-, rfl, rfl⟩
      exact ⟨rfl, rfl⟩

theorem addRoot_iff {feature : FeatureRef} :
    addRoot feature m = .ok i m' ↔ m.root = none ∧ m.size = i ∧
      { m.pushNode { feature, index := m.size, parent := none } with
        root := some m.size } = m' := by
  rw [addRoot, get_bind]
  split
  · next h =>
    have hroot : m.root ≠ none := Option.isSome_iff_ne_none.mp h
    simp [hroot, throw_eq_ok]
  · next h =>
    have hroot : m.root = none := by simpa using h
    rw [newNode, bind_assoc, get_bind, bind_assoc, modify_bind, pure_bind, modify_bind, pure_eq_ok,
      and_iff_right hroot]

/-- The new node has the number of a new last place. -/
theorem addBelow_iff {feature : FeatureRef} :
    addBelow index feature id m = .ok i m' ↔ ∃ g, m.group index id = .ok g ∧ m.size = i ∧
      (m.pushNode { feature, index := m.size, parent := some ⟨index, g.id⟩ }).modifyGroup index g.id
        (fun g => { g with children := g.children ++ [m.size] }) = m' := by
  rw [addBelow, lookUp_bind_iff]
  refine exists_congr (fun g => and_congr_right (fun _ => ?_))
  rw [newNode, bind_assoc, get_bind, bind_assoc, modify_bind, pure_bind, modify_bind, modify_bind,
    pure_eq_ok, modifyNode_pushNode]

theorem addGroup_iff {range : Range} {g : Group} :
    addGroup index range m = .ok g m' ↔ ∃ n, m.node index = .ok n ∧ ⟨n.nextGroup, range, []⟩ = g ∧
      m.modifyNode index (fun n =>
        { n with groups := n.groups ++ [g], nextGroup := n.nextGroup + 1 }) = m' := by
  rw [addGroup, lookUp_bind_iff]
  refine exists_congr (fun n => and_congr_right (fun _ => ?_))
  rw [modify_bind, pure_eq_ok]
  constructor <;>
  · rintro ⟨rfl, rfl⟩
    exact ⟨rfl, rfl⟩

theorem setCardinality_iff {cardinality : Range} {u : Unit} :
    setCardinality index cardinality m = .ok u m' ↔ (∃ n, m.node index = .ok n) ∧
      m.modifyNode index (fun n => { n with cardinality }) = m' := by
  rw [setCardinality, lookUp_bind_iff, ← exists_and_right]
  simp only [modify_eq_ok]

theorem removeGroup_eq_ok {u : Unit} (h : removeGroup index id m = .ok u m') :
    ∃ g ∈ m.groupsOf index, g.children = [] ∧
      m' = m.modifyNode index (fun n =>
        { n with groups := n.groups.filter (fun g' => g'.id != g.id) }) := by
  obtain ⟨n, -, h⟩ := lookUp_bind_iff.mp h
  obtain ⟨g, hg, h⟩ := lookUp_bind_iff.mp h
  split at h
  · next he => exact ⟨g, (group_eq_ok hg).1, by simpa using he, (modify_eq_ok.mp h).symm⟩
  · exact (throw_eq_ok.mp h).elim

/-- A node that is moved stays below its parent. -/
theorem moveToGroup_eq_ok {u : Unit} (h : moveToGroup index id m = .ok u m') :
    ∃ link, m.linkOf index = some link ∧ ∃ g ∈ m.groupsOf link.node,
      (g.id = link.group ∧ m' = m) ∨
      g.id ≠ link.group ∧
        m' = (((m.modifyGroup link.node link.group
          (fun g => { g with children := g.children.erase index })).modifyGroup link.node g.id
          (fun g => { g with children := g.children ++ [index] })).modifyNode index
          (fun n => { n with parent := some ⟨link.node, g.id⟩ })) := by
  obtain ⟨n, hn, h⟩ := lookUp_bind_iff.mp h
  cases hlink : n.parent with
  | none =>
    rw [hlink] at h
    exact (throw_eq_ok.mp h).elim
  | some link =>
    rw [hlink] at h
    obtain ⟨g, hg, h⟩ := lookUp_bind_iff.mp h
    refine ⟨link, by rw [linkOf, node_eq_ok.mp hn]; exact hlink, g, (group_eq_ok hg).1, ?_⟩
    split at h
    · next he => exact Or.inl ⟨he, (pure_eq_ok.mp h).2.symm⟩
    · next he =>
      obtain ⟨old, hold, h⟩ := lookUp_bind_iff.mp h
      have hid : old.id = link.group := Int.ofNat_inj.mp (group_eq_ok hold).2
      split at h
      · rw [modify_bind, modify_bind, modify_eq_ok, hid] at h
        exact Or.inr ⟨he, h.symm⟩
      · exact (throw_eq_ok.mp h).elim

/-! An operation on nodes leaves the features and the constraints alone. -/

theorem features_addRoot {feature : FeatureRef} (h : addRoot feature m = .ok i m') :
    m'.features = m.features ∧ m'.constraints = m.constraints := by
  obtain ⟨-, -, rfl⟩ := addRoot_iff.mp h
  exact ⟨rfl, rfl⟩

theorem features_addBelow {feature : FeatureRef} (h : addBelow index feature id m = .ok i m') :
    m'.features = m.features ∧ m'.constraints = m.constraints := by
  obtain ⟨g, -, -, rfl⟩ := addBelow_iff.mp h
  exact ⟨rfl, rfl⟩

theorem features_addGroup {range : Range} {g : Group} (h : addGroup index range m = .ok g m') :
    m'.features = m.features ∧ m'.constraints = m.constraints := by
  obtain ⟨n, -, -, rfl⟩ := addGroup_iff.mp h
  exact ⟨rfl, rfl⟩

theorem features_setCardinality {cardinality : Range} {u : Unit}
    (h : setCardinality index cardinality m = .ok u m') :
    m'.features = m.features ∧ m'.constraints = m.constraints := by
  obtain ⟨-, rfl⟩ := setCardinality_iff.mp h
  exact ⟨rfl, rfl⟩

/-! ## What an operation that fails does -/

/-- Never fails. -/
def Succeeds (x : Edit ε α) : Prop := ∀ m, ∃ a m', x m = .ok a m'

namespace Succeeds

theorem pure (a : α) : Succeeds (pure a : Edit ε α) := fun m => ⟨a, m, rfl⟩

theorem get : Succeeds (get : Edit ε FeatureModel) := fun m => ⟨m, m, rfl⟩

theorem modify (f : FeatureModel → FeatureModel) : Succeeds (modify f : Edit ε PUnit) :=
  fun m => ⟨.unit, f m, rfl⟩

theorem bind {x : Edit ε α} {f : α → Edit ε β} (hx : Succeeds x) (hf : ∀ a, Succeeds (f a)) :
    Succeeds (x >>= f) := by
  intro m
  obtain ⟨a, m₁, hx⟩ := hx m
  rw [bind_of_ok hx]
  exact hf a m₁

end Succeeds

/-- If it fails then the model is as it was before. -/
def Guarded (x : Edit ε α) : Prop := ∀ m e m', x m = .error e m' → m' = m

namespace Guarded

theorem throw (e : ε) : Guarded (throw e : Edit ε α) := by
  intro m e' m' h
  cases h
  rfl

theorem of_succeeds {x : Edit ε α} (hx : Succeeds x) : Guarded x := by
  intro m e m' h
  obtain ⟨a, m₁, hok⟩ := hx m
  rw [hok] at h
  cases h

theorem get_bind {k : FeatureModel → Edit ε β} (hk : ∀ m, Guarded (k m)) :
    Guarded (get >>= k) := fun m e m' h => hk m m e m' h

theorem lookUp_bind {find : FeatureModel → Except Error α} {k : α → Edit Error β}
    (hk : ∀ a, Guarded (k a)) : Guarded (lookUp find >>= k) := by
  rw [lookUp, bind_assoc]
  refine get_bind (fun m₀ => ?_)
  cases find m₀ with
  | ok a => exact hk a
  | error e => exact throw e

theorem ite {c : Prop} [Decidable c] {x y : Edit ε α} (hx : Guarded x) (hy : Guarded y) :
    Guarded (if c then x else y) := by
  split
  · exact hx
  · exact hy

theorem discard {x : Edit ε α} (hx : Guarded x) : Guarded (discard x) := by
  intro m e m' h
  change EStateM.map _ x m = .error e m' at h
  unfold EStateM.map at h
  split at h
  · cases h
  · next hrun =>
    cases h
    exact hx m e m' hrun

end Guarded

theorem succeeds_newNode (feature : FeatureRef) : Succeeds (newNode feature) :=
  .bind .get (fun _ => .bind (.modify _) (fun _ => .pure _))

theorem guarded_addFeature (name : Option String) (type : FeatureType) :
    Guarded (addFeature name type) :=
  .get_bind (fun _ => .ite (.throw _) (.of_succeeds (.bind (.modify _) (fun _ => .pure _))))

theorem guarded_addRoot (feature : FeatureRef) : Guarded (addRoot feature) :=
  .get_bind (fun _ => .ite (.throw _) (.of_succeeds
    (.bind (succeeds_newNode feature) (fun _ => .bind (.modify _) (fun _ => .pure _)))))

theorem guarded_addBelow (index : Nat) (feature : FeatureRef) (id : Int) :
    Guarded (addBelow index feature id) :=
  .lookUp_bind (fun _ => .of_succeeds (.bind (succeeds_newNode feature) (fun _ =>
    .bind (.modify _) (fun _ => .bind (.modify _) (fun _ => .pure _)))))

theorem guarded_addGroup (index : Nat) (range : Range) : Guarded (addGroup index range) :=
  .lookUp_bind (fun _ => .of_succeeds (.bind (.modify _) (fun _ => .pure _)))

theorem guarded_removeGroup (index : Nat) (id : Int) : Guarded (removeGroup index id) :=
  .lookUp_bind (fun _ => .lookUp_bind (fun _ => .ite (.of_succeeds (.modify _)) (.throw _)))

theorem guarded_moveToGroup (index : Nat) (id : Int) : Guarded (moveToGroup index id) := by
  refine .lookUp_bind (fun n => ?_)
  cases n.parent with
  | none => exact .throw _
  | some link =>
    refine .lookUp_bind (fun target => .ite (.of_succeeds (.pure _)) (.lookUp_bind (fun old => ?_)))
    -- The node is looked for in its old group before it is taken out, so no half of a move is done.
    exact .ite (.of_succeeds (.bind (.modify _) (fun _ => .bind (.modify _) (fun _ => .modify _))))
      (.throw _)

theorem guarded_setCardinality (index : Nat) (cardinality : Range) :
    Guarded (setCardinality index cardinality) :=
  .lookUp_bind (fun _ => .of_succeeds (.modify _))

end FeatureModel

end Variability
