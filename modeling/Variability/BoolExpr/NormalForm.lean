import Variability.BoolExpr.Connective

/-!
Negation normal form and conjunctive normal form.

Negations move down to the variables first. Then a disjunction with a
conjunction among its operands becomes the conjunction of the disjunctions with
one operand of that conjunction in its place, until no such disjunction is left.
-/

namespace Variability.BoolExpr

/-! ## Negations at variables only -/

mutual

/-- The expression, or its negation if `positive` is false, with negations at variables only. -/
def pushNegation (positive : Bool) : BoolExpr → BoolExpr
  | const b => const (b == positive)
  | var x => if positive then var x else neg (var x)
  | neg e => e.pushNegation (!positive)
  | junction op es => join (op.under positive) (pushNegations positive es)
  | implies a b =>
    join (Junctor.any.under positive) [a.pushNegation (!positive), b.pushNegation positive]

/-- The expressions of a list, each with negations at variables only. -/
def pushNegations (positive : Bool) : List BoolExpr → List BoolExpr
  | [] => []
  | e :: es => e.pushNegation positive :: pushNegations positive es

end

/-! ## Distribution -/

/-- A rule for the conjunction that is distributed next: of the conjunctions among the operands
of a disjunction, the one with this number, or the last one. -/
abbrev Strategy := List BoolExpr → Nat

/-- The strategy that distributes the first conjunction. -/
def Strategy.first : Strategy := fun _ => 0

/-- The operands of a conjunction among `es`, after skipping `skip` others as long as there are
more, and the remaining members of `es`. -/
def splitConjunction? (skip : Nat) : List BoolExpr → Option (List BoolExpr × List BoolExpr)
  | [] => none
  | junction .all cs :: es =>
    match skip with
    | 0 => some (cs, es)
    | skip + 1 =>
      match splitConjunction? skip es with
      | some (cs', rest) => some (cs', junction .all cs :: rest)
      | none => some (cs, es)
  | e :: es => (splitConjunction? skip es).map (fun p => (p.1, e :: p.2))

theorem sizes_splitConjunction {skip : Nat} {es cs rest : List BoolExpr}
    (h : splitConjunction? skip es = some (cs, rest)) : sizes es = sizes cs + 1 + sizes rest := by
  induction es generalizing skip cs rest with
  | nil => simp [splitConjunction?] at h
  | cons e es ih =>
    unfold splitConjunction? at h
    split at h
    · simp at *
    · next cs₀ es₀ he =>
      obtain ⟨rfl, rfl⟩ := List.cons.inj he
      split at h
      · obtain ⟨rfl, rfl⟩ := Prod.mk.inj (Option.some.inj h)
        simp [sizes, size]
      · split at h
        · next cs' rest' hs =>
          obtain ⟨rfl, rfl⟩ := Prod.mk.inj (Option.some.inj h)
          have := ih hs
          simp only [sizes, size]
          omega
        · obtain ⟨rfl, rfl⟩ := Prod.mk.inj (Option.some.inj h)
          simp [sizes, size]
    · next he =>
      obtain ⟨rfl, rfl⟩ := List.cons.inj he
      obtain ⟨⟨cs', rest'⟩, hs, hp⟩ := Option.map_eq_some_iff.1 h
      obtain ⟨rfl, rfl⟩ := Prod.mk.inj hp
      have := ih hs
      simp only [sizes]
      omega

theorem size_le_sizes {e : BoolExpr} {es : List BoolExpr} (h : e ∈ es) : e.size ≤ sizes es := by
  induction es with
  | nil => simp at h
  | cons e' es ih =>
    rcases List.mem_cons.1 h with rfl | h
    · simp [sizes]
    · have := ih h
      simp only [sizes]
      omega

/-- Distributes disjunctions over conjunctions until none is left. -/
def distribute (strategy : Strategy) : BoolExpr → BoolExpr
  | junction .all es => join .all (es.attach.map (fun e => distribute strategy e.1))
  | junction .any es =>
    match _h : splitConjunction? (strategy es) es with
    | some (cs, rest) =>
      join .all (cs.attach.map (fun c => distribute strategy (join .any (c.1 :: rest))))
    | none => junction .any es
  | e => e
termination_by e => e.size
decreasing_by
  · have := size_le_sizes e.2
    simp only [size]
    omega
  · have h₁ := size_join_le .any (c.1 :: rest)
    have h₂ := size_le_sizes c.2
    have h₃ := sizes_splitConjunction _h
    simp only [size, sizes] at h₁ ⊢
    omega

/-- An equivalent conjunction of disjunctions of variables and negated variables. -/
def conjunctive (strategy : Strategy) (e : BoolExpr) : BoolExpr :=
  (e.pushNegation true).distribute strategy

end Variability.BoolExpr
