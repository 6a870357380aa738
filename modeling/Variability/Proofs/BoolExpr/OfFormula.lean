import Variability.Proofs.BoolExpr.Splicing

/-!
The Boolean expression of a formula has the truth value of the formula under
every assignment and no other variables than its names
(`ofFormula?_denotes`).
-/

namespace Variability.BoolExpr

/-- The expression has the truth value of the formula, and no other variables than its names. -/
structure Denotes (f : Formula) (e : BoolExpr) : Prop where
  eval_eq : ∀ v, e.eval v = f.eval v
  vars_subset : ∀ x ∈ e.vars, x ∈ f.names

theorem holds_of_denotes {fs : List Formula} {es : List BoolExpr}
    (h : List.Forall₂ Denotes fs es) (v : String → Bool) (op : Junctor) :
    op.holds (eval v) es = op.holds (Formula.eval v) fs := by
  induction h with
  | nil => rw [Junctor.holds_nil, Junctor.holds_nil]
  | cons h _ ih => cases op <;> simp_all [Junctor.holds, h.eval_eq v]

theorem names_of_denotes {fs : List Formula} {es : List BoolExpr}
    (h : List.Forall₂ Denotes fs es) {e : BoolExpr} (he : e ∈ es) {x : String} (hx : x ∈ e.vars) :
    x ∈ fs.flatMap Formula.names := by
  induction h with
  | nil => simp at he
  | cons h _ ih =>
    rw [List.flatMap_cons, List.mem_append]
    rcases List.mem_cons.mp he with rfl | he
    · exact Or.inl (h.vars_subset x hx)
    · exact Or.inr (ih he)

theorem denotes_of_directs? {fs : List Formula} {es : List BoolExpr}
    (h : ∀ f ∈ fs, ∀ e, direct? f = some e → Denotes f e) (hes : directs? fs = some es) :
    List.Forall₂ Denotes fs es := by
  have hboth := (List.forall₂_and_left fs es).mpr ⟨h, directs?_eq_some_iff.mp hes⟩
  exact hboth.imp (fun f e hfe => hfe.1 e hfe.2)

theorem denotes_join {op : Junctor} {f : Formula} {fs : List Formula} {es : List BoolExpr}
    (h : List.Forall₂ Denotes fs es) (heval : ∀ v, f.eval v = op.holds (Formula.eval v) fs)
    (hnames : f.names = fs.flatMap Formula.names) : Denotes f (join op es) where
  eval_eq := fun v => by rw [eval_join, holds_of_denotes h, heval]
  vars_subset := fun x hx => by
    obtain ⟨e, he, hx⟩ := vars_join hx
    rw [hnames]
    exact names_of_denotes h he hx

/-- The expression that the plain recursion gives denotes the formula. -/
theorem denotes_of_direct? {f : Formula} {e : BoolExpr} (h : direct? f = some e) :
    Denotes f e := by
  induction f generalizing e with
  | literal name =>
    obtain rfl := Option.some.inj h
    exact ⟨fun v => rfl, fun x hx => hx⟩
  | top | bottom =>
    obtain rfl := Option.some.inj h
    exact ⟨fun v => rfl, fun x hx => by cases hx⟩
  | hole => cases h
  | neg f ih =>
    obtain ⟨a, ha, rfl⟩ := Option.map_eq_some_iff.mp h
    refine ⟨fun v => ?_, fun x hx => ?_⟩
    · rw [eval_negate, (ih ha).eval_eq, Formula.eval]
    · exact (ih ha).vars_subset x (vars_negate a ▸ hx)
  | conj fs ih =>
    obtain ⟨es, hes, rfl⟩ := Option.map_eq_some_iff.mp h
    exact denotes_join (denotes_of_directs? (fun f hf _ => ih f hf) hes)
      (fun v => by rw [Formula.eval, Formula.evalAll_eq, Junctor.holds])
      (by rw [Formula.names, Formula.namesAll_eq])
  | disj fs ih =>
    obtain ⟨es, hes, rfl⟩ := Option.map_eq_some_iff.mp h
    exact denotes_join (denotes_of_directs? (fun f hf _ => ih f hf) hes)
      (fun v => by rw [Formula.eval, Formula.evalAny_eq, Junctor.holds])
      (by rw [Formula.names, Formula.namesAll_eq])
  | implies f g ihf ihg =>
    obtain ⟨a, ha, h⟩ := Option.bind_eq_some_iff.mp h
    obtain ⟨b, hb, rfl⟩ := Option.map_eq_some_iff.mp h
    refine ⟨fun v => ?_, fun x hx => ?_⟩
    · rw [eval_imply, (ihf ha).eval_eq, (ihg hb).eval_eq, Formula.eval]
    · rw [Formula.names, List.mem_append]
      exact (vars_imply hx).imp ((ihf ha).vars_subset x) ((ihg hb).vars_subset x)

theorem ofFormula?_denotes {f : Formula} (hf : f.isPlain) :
    ∃ e, ofFormula? f = some e ∧ Denotes f e := by
  obtain ⟨e, he⟩ := (exists_direct?_iff f).mpr hf
  exact ⟨e, (ofFormula?_eq f).trans he, denotes_of_direct? he⟩

end Variability.BoolExpr
