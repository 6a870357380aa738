import Variability.Proofs.Build.Progress

/-!
Invariants of a construction.

A judgement about a run says what holds of the model if it succeeds and of the
error if it fails (`Ends`), and the judgements about the parts of a construction
give the one about the whole. So what every feature that can be reached keeps
holds of the model that is built, and a construction that fails does so for a
reason that one of these features gives (`Keeps.tree`): no operation on the model
is ever refused.
-/

namespace Variability.Build

open Edit

section
variable {α β ε : Type} {m m₁ : FeatureModel} {ok : α → FeatureModel → Prop}
  {ok' : β → FeatureModel → Prop} {fault : Error → Prop}

/-- If the run succeeds then its result and the model satisfy `ok`, and if it fails then its error
satisfies `fault`. -/
def Ends (x : Build α) (m : FeatureModel) (ok : α → FeatureModel → Prop)
    (fault : Error → Prop) : Prop :=
  match x m with
  | .ok a m' => ok a m'
  | .error e _ => fault e

namespace Ends

theorem pure {a : α} (h : ok a m) : Ends (pure a : Build α) m ok fault := h

theorem fail {e : Error} (h : fault e) : Ends (throw e : Build α) m ok fault := h

theorem fail_bind {e : Error} {f : α → Build β} (h : fault e) :
    Ends (throw e >>= f) m ok' fault := h

/-- Where the errors do not matter, only a run that succeeds has to be looked at. -/
theorem of_ok {x : Build α} (h : ∀ a m', x m = .ok a m' → ok a m') :
    Ends x m ok (fun _ => True) := by
  unfold Ends
  split
  · next a m' hrun => exact h a m' hrun
  · trivial

theorem of_eq_ok {x : Build α} {a : α} (h : Ends x m ok fault) (hrun : x m = .ok a m₁) :
    ok a m₁ := by
  rwa [Ends, hrun] at h

theorem of_eq_error {x : Build α} {e : Error} (h : Ends x m ok fault)
    (hrun : x m = .error e m₁) : fault e := by
  rwa [Ends, hrun] at h

theorem mono {x : Build α} {ok' : α → FeatureModel → Prop} {fault' : Error → Prop}
    (h : Ends x m ok fault) (hok : ∀ a m', ok a m' → ok' a m') (hfault : ∀ e, fault e → fault' e) :
    Ends x m ok' fault' := by
  unfold Ends
  split
  · next a m' hrun => exact hok a m' (h.of_eq_ok hrun)
  · next e m' hrun => exact hfault e (h.of_eq_error hrun)

theorem bind {x : Build α} {f : α → Build β} (hx : Ends x m ok fault)
    (hf : ∀ a m₁, x m = .ok a m₁ → ok a m₁ → Ends (f a) m₁ ok' fault) :
    Ends (x >>= f) m ok' fault := by
  show Ends (EStateM.bind x f) m ok' fault
  unfold Ends EStateM.bind
  cases hrun : x m with
  | ok a m₁ => exact hf a m₁ hrun (hx.of_eq_ok hrun)
  | error e m₁ => exact hx.of_eq_error hrun

theorem orThrow_bind {cause : ε → Error} {x : Except ε α} {f : α → Build β}
    (hx : ∀ e, x = .error e → fault (cause e)) (hf : ∀ a, x = .ok a → Ends (f a) m ok' fault) :
    Ends (orThrow cause x >>= f) m ok' fault := by
  cases x with
  | ok a => exact hf a rfl
  | error e => exact hx e rfl

theorem get_bind {f : FeatureModel → Build β} (hf : Ends (f m) m ok' fault) :
    Ends (get >>= f) m ok' fault := hf

theorem set_bind {f : PUnit → Build β} (hf : Ends (f .unit) m₁ ok' fault) :
    Ends (set m₁ >>= f) m ok' fault := hf

/-- An operation that succeeds on the model, as a part of a construction. -/
theorem onModel_bind {op : Edit FeatureModel.Error α} {a : α} {f : α → Build β}
    (hop : op m = .ok a m₁) (hf : Ends (f a) m₁ ok' fault) :
    Ends (onModel op >>= f) m ok' fault := by
  rw [Ends, bind_of_ok (onModel_eq_ok.mpr hop)]
  exact hf

end Ends

end

variable {d : Document} {m m' : FeatureModel} {order : List (Fin d.count)}
  {gs : List (Document.Group d.count)} {built : Nat → List (Document.Group d.count)}
  {ranged : Nat → Prop} {P : FeatureModel → Prop} {fault : Error → Prop}

/-- The property depends on the features and the registry only, every feature that can be reached
keeps it, and what can be wrong with such a feature and its groups is one of the faults. -/
structure Keeps (d : Document) (P : FeatureModel → Prop) (fault : Error → Prop) : Prop where
  congr : ∀ {m m'}, m'.features = m.features → m'.registry = m.registry → P m → P m'
  feature : ∀ {i m}, d.Reached i → m.Named → P m →
    Ends (addFeature (d.feature i)) m (fun _ => P) fault
  cardinality : ∀ {i e}, d.Reached i → featureCardinality d i = .error e → fault (.bound e)
  range : ∀ {i g e}, d.Reached i → g ∈ (d.feature i).groups →
    groupRange (d.feature i).name g = .error e → fault e

namespace Keeps

theorem addMember (hd : Keeps d P fault) (h : Stage d order built ranged m) {k : Nat}
    (hk : k < order.length) {g : Document.Group d.count} (hbuilt : built k = gs ++ [g])
    {i : Fin d.count} (hi : d.Reached i) (hm : P m) :
    Ends (Build.addMember d k (gs.length + 1) i) m (fun _ => P) fault := by
  apply (hd.feature hi h.grown.named hm).bind
  intro name m₁ hfeature hm₁
  obtain ⟨-, hr⟩ := addFeature_eq_ok h.grown.named hfeature
  obtain ⟨child, m₂, hadd⟩ := h.exists_addBelow hk hbuilt hr (.registered name)
  obtain ⟨-, -, -, -, -, hfeatures, hregistry⟩ := Stage.addBelow_views hadd
  exact .onModel_bind hadd (.pure (hd.congr hfeatures hregistry hm₁))

theorem addMembers (hd : Keeps d P fault) (h : Stage d order built ranged m) {k : Nat}
    (hk : k < order.length) {g : Document.Group d.count} (hbuilt : built k = gs ++ [g])
    {members : List (Fin d.count)} (hmembers : ∀ i ∈ members, d.Reached i) (hm : P m)
    (waiting : List (Waiting d.count)) :
    Ends (Build.addMembers d k (gs.length + 1) waiting members) m (fun _ => P) fault := by
  induction members generalizing order built g waiting m with
  | nil => exact .pure hm
  | cons i rest ih =>
    obtain ⟨hi, hrest⟩ := List.forall_mem_cons.mp hmembers
    apply (hd.addMember h hk hbuilt hi hm).bind
    intro w m₁ hmember hm₁
    obtain ⟨-, h₁⟩ := h.addMember hk hbuilt hmember
    exact ih h₁ (lt_length_append hk [i]) (Function.update_self ..) hrest hm₁ (w :: waiting)

theorem addGroups (hd : Keeps d P fault) (h : Stage d order built ranged m) {k : Nat}
    (hk : k < order.length) {i : Fin d.count} (hi : d.Reached i)
    {rest : List (Document.Group d.count)} (hgroups : ∀ g ∈ rest, g ∈ (d.feature i).groups)
    (hm : P m) (waiting : List (Waiting d.count)) :
    Ends (Build.addGroups d (d.feature i).name k waiting rest) m (fun _ => P) fault := by
  induction rest generalizing order built waiting m with
  | nil => exact .pure hm
  | cons g rest ih =>
    obtain ⟨hg, hrest⟩ := List.forall_mem_cons.mp hgroups
    have hmembers : ∀ j ∈ g.members, d.Reached j :=
      fun j hj => hi.child (List.mem_flatMap.mpr ⟨g, hg, hj⟩)
    apply Ends.orThrow_bind (fun e he => hd.range hi hg he)
    intro r hr
    -- The node is there, so adding a group to it is not refused.
    obtain ⟨n, hn⟩ := h.node_succeeds hk
    obtain ⟨g', m₁, hadd, hm₁⟩ : ∃ g' m₁, FeatureModel.addGroup k r m = .ok g' m₁ ∧ P m₁ :=
      ⟨_, _, FeatureModel.addGroup_iff.mpr ⟨n, hn, rfl, rfl⟩, hd.congr (m := m) rfl rfl hm⟩
    obtain ⟨hid, h₁⟩ := h.addGroup hk (groupRange_eq_ok.mp hr) hadd
    refine .onModel_bind hadd ?_
    rw [hid]
    apply (hd.addMembers h₁ hk (Function.update_self ..) hmembers hm₁ waiting).bind
    intro waiting₁ m₂ hrun hm₂
    obtain ⟨-, h₂⟩ := h₁.addMembers hk (Function.update_self ..) hrun
    exact ih h₂ (lt_length_append hk g.members) hrest hm₂ waiting₁

theorem complete (hd : Keeps d P fault) (h : Stage d order built ranged m) {w : Waiting d.count}
    (hw : order[w.node]? = some w.feature) (hreached : d.Reached w.feature) (hm : P m)
    (waiting : List (Waiting d.count)) :
    Ends (Build.complete d w waiting) m (fun _ => P) fault := by
  have hk := (List.getElem?_eq_some_iff.mp hw).1
  apply Ends.orThrow_bind (fun e he => hd.cardinality hreached he)
  intro r hr
  obtain ⟨n, hn⟩ := h.node_succeeds hk
  obtain ⟨m₁, hset, hm₁⟩ : ∃ m₁, FeatureModel.setCardinality w.node r m = .ok () m₁ ∧ P m₁ :=
    ⟨_, FeatureModel.setCardinality_iff.mpr ⟨⟨n, hn⟩, rfl⟩, hd.congr (m := m) rfl rfl hm⟩
  have h₁ := h.setCardinality hw (featureCardinality_eq_ok.mp hr) hset
  exact .onModel_bind hset (hd.addGroups h₁ hk hreached (fun g hg => hg) hm₁ waiting)

theorem completeAll (hd : Keeps d P fault) (h : Stage d order built ranged m)
    {waiting : List (Waiting d.count)} (hp : Pending d order waiting built ranged)
    (hreached : ∀ w ∈ waiting, d.Reached w.feature) (hm : P m) (rounds : Nat) :
    Ends (Build.completeAll d rounds waiting) m (fun _ => P) fault := by
  induction rounds generalizing order built ranged waiting m with
  | zero =>
    have hdone : Build.completeAll d 0 waiting = pure () := by cases waiting <;> rfl
    rw [hdone]
    exact .pure hm
  | succ rounds ih =>
    cases waiting with
    | nil => exact .pure hm
    | cons w waiting =>
      obtain ⟨hget, hempty⟩ := hp.waits w List.mem_cons_self
      have hw := hreached w List.mem_cons_self
      apply (hd.complete h hget hw hm waiting).bind
      intro waiting₁ m₁ hrun hm₁
      obtain ⟨rfl, h₁⟩ := h.complete hget hempty hrun
      have hp₁ := hp.complete (fun k hk => (h.fresh k hk).1)
      exact ih h₁ hp₁ (reached_of_complete hreached order.length) hm₁

/-- What every feature keeps that can be reached holds at the end of the construction, and if it
fails then with one of the faults. -/
theorem tree (hd : Keeps d P fault) (hempty : P {}) :
    Ends (Build.tree d) {} (fun _ => P) fault := by
  apply (hd.feature Document.reached_root FeatureModel.named_empty hempty).bind
  intro name m₁ hfeature hm₁
  obtain ⟨-, hr⟩ := addFeature_eq_ok FeatureModel.named_empty hfeature
  obtain ⟨root, m₂, hadd, hm₂⟩ :
      ∃ root m₂, FeatureModel.addRoot (.registered name) m₁ = .ok root m₂ ∧ P m₂ :=
    ⟨_, _, FeatureModel.addRoot_iff.mpr ⟨hr.root, rfl, rfl⟩, hd.congr (m := m₁) rfl rfl hm₁⟩
  obtain ⟨rfl, h⟩ := stage_root hfeature hadd
  refine .onModel_bind hadd ?_
  apply (hd.completeAll h pending_root
    (List.forall_mem_singleton.mpr Document.reached_root) hm₂ d.count).bind
  exact fun _ _ _ hm => .pure hm

end Keeps

end Variability.Build
