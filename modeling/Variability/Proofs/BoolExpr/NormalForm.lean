import Variability.BoolExpr.NormalForm
import Variability.Proofs.BoolExpr.Order

/-!
The conjunctive form of an expression has the value of the expression
(`eval_conjunctive`), no other variables (`vars_conjunctive`), and the shape of
a conjunction of clauses (`isConjunctive_conjunctive`), whichever conjunction
is distributed first.

On the way to it stand the expressions with negations at variables only
(`IsNegationNormal`): their junctions have neither constants nor junctions of
their own kind among the operands, and distribution keeps that.
-/

namespace Variability.BoolExpr

/-! ## Negations at variables -/

theorem pushNegations_eq (positive : Bool) (es : List BoolExpr) :
    pushNegations positive es = es.map (pushNegation positive) := by
  induction es with
  | nil => rfl
  | cons e es ih => rw [pushNegations, ih, List.map_cons]

theorem eval_pushNegation (v : String → Bool) (e : BoolExpr) (positive : Bool) :
    (e.pushNegation positive).eval v = (e.eval v == positive) := by
  induction e generalizing positive with
  | const b => rfl
  | var x => cases positive <;> simp [pushNegation, eval]
  | neg e ih => rw [pushNegation, ih, eval]; cases positive <;> simp
  | junction op es ih =>
    have hs : ∀ e ∈ es, (e.pushNegation positive).eval v = (e.eval v == positive) :=
      fun e he => ih e he positive
    rw [pushNegation, eval_join, pushNegations_eq, Junctor.holds_map, Junctor.holds_congr hs,
      Junctor.holds_under, eval_junction]
  | implies a b iha ihb =>
    rw [pushNegation, eval_join, eval]
    cases positive <;> simp [Junctor.under, Junctor.dual, Junctor.holds, iha, ihb]

theorem vars_pushNegation {e : BoolExpr} {positive : Bool} {x : String}
    (hx : x ∈ (e.pushNegation positive).vars) : x ∈ e.vars := by
  induction e generalizing positive with
  | const b => simp [pushNegation, vars] at hx
  | var y => cases positive <;> simpa [pushNegation, vars] using hx
  | neg e ih => exact ih hx
  | junction op es ih =>
    rw [pushNegation, pushNegations_eq] at hx
    obtain ⟨e', he', hx⟩ := vars_join hx
    obtain ⟨e, he, rfl⟩ := List.mem_map.mp he'
    exact mem_vars_junction.mpr ⟨e, he, ih e he hx⟩
  | implies a b iha ihb =>
    rw [pushNegation] at hx
    obtain ⟨e, he, hxe⟩ := vars_join hx
    simp only [List.mem_cons, List.not_mem_nil, or_false] at he
    rw [vars, List.mem_append]
    rcases he with rfl | rfl
    · exact Or.inl (iha hxe)
    · exact Or.inr (ihb hxe)

/-- Whether an expression can be an operand of a junction that has been simplified. -/
def isOperand (op : Junctor) : BoolExpr → Bool
  | const _ => false
  | junction op' _ => op' != op
  | _ => true

/-- Negations stand at variables only, and junctions are simplified. -/
inductive IsNegationNormal : BoolExpr → Prop
  | const (b : Bool) : IsNegationNormal (.const b)
  | var (x : String) : IsNegationNormal (.var x)
  | negVar (x : String) : IsNegationNormal (.neg (.var x))
  | junction (op : Junctor) (es : List BoolExpr) (normal : ∀ e ∈ es, IsNegationNormal e)
      (operand : ∀ e ∈ es, isOperand op e) : IsNegationNormal (.junction op es)

/-- What normal expressions contribute to a junction that none of them decides alone. -/
theorem isNegationNormal_of_mem_contributed {op : Junctor} {e e' : BoolExpr}
    (h : IsNegationNormal e) (ha : isAbsorbing op e = false) (he : e' ∈ contributed op e) :
    IsNegationNormal e' ∧ isOperand op e' := by
  cases h with
  | const b =>
    have hb : b = op.neutral := by simpa [isAbsorbing] using ha
    simp [contributed, hb] at he
  | var x =>
    obtain rfl := List.mem_singleton.mp he
    exact ⟨.var x, rfl⟩
  | negVar x =>
    obtain rfl := List.mem_singleton.mp he
    exact ⟨.negVar x, rfl⟩
  | junction op' es normal operand =>
    rw [contributed] at he
    split at he
    · next h => exact ⟨normal e' he, h ▸ operand e' he⟩
    · next h =>
      obtain rfl := List.mem_singleton.mp he
      exact ⟨.junction op' es normal operand, by simpa [isOperand] using h⟩

theorem isNegationNormal_join {op : Junctor} {es : List BoolExpr}
    (h : ∀ e ∈ es, IsNegationNormal e) : IsNegationNormal (join op es) := by
  have hcontributed : ∀ e ∈ es, isAbsorbing op e = false → ∀ e' ∈ contributed op e,
      IsNegationNormal e' ∧ isOperand op e' :=
    fun e he ha e' he' => isNegationNormal_of_mem_contributed (h e he) ha he'
  apply join_cases hcontributed
  case const => exact .const
  case single => exact fun e he => he.1
  case junction =>
    exact fun es' hs _ _ => .junction op es' (fun e he => (hs e he).1) (fun e he => (hs e he).2)

theorem isNegationNormal_pushNegation (e : BoolExpr) (positive : Bool) :
    IsNegationNormal (e.pushNegation positive) := by
  induction e generalizing positive with
  | const b => exact .const _
  | var x =>
    cases positive with
    | true => exact .var x
    | false => exact .negVar x
  | neg e ih => exact ih _
  | junction op es ih =>
    rw [pushNegation, pushNegations_eq]
    refine isNegationNormal_join (fun e' he' => ?_)
    obtain ⟨e, he, rfl⟩ := List.mem_map.mp he'
    exact ih e he positive
  | implies a b iha ihb =>
    rw [pushNegation]
    refine isNegationNormal_join (fun e he => ?_)
    simp only [List.mem_cons, List.not_mem_nil, or_false] at he
    rcases he with rfl | rfl
    · exact iha _
    · exact ihb _

/-! ## Distribution -/

/-- The chosen conjunction and the rest are the operands, up to their order. -/
theorem perm_of_splitConjunction {skip : Nat} {es cs rest : List BoolExpr}
    (h : splitConjunction? skip es = some (cs, rest)) : es.Perm (junction .all cs :: rest) := by
  induction es generalizing skip cs rest with
  | nil => simp [splitConjunction?] at h
  | cons e es ih =>
    unfold splitConjunction? at h
    split at h
    · simp at *
    · next cs₀ es₀ he =>
      obtain ⟨rfl, rfl⟩ := List.cons.inj he
      split at h
      · obtain ⟨rfl, rfl⟩ := Prod.mk.inj (Option.some.inj h)
        exact List.Perm.refl _
      · split at h
        -- This conjunction is passed over for a later one, unless it is the last.
        · next cs' rest' hs =>
          obtain ⟨rfl, rfl⟩ := Prod.mk.inj (Option.some.inj h)
          exact ((ih hs).cons _).trans (List.Perm.swap ..)
        · obtain ⟨rfl, rfl⟩ := Prod.mk.inj (Option.some.inj h)
          exact List.Perm.refl _
    · next he =>
      obtain ⟨rfl, rfl⟩ := List.cons.inj he
      obtain ⟨⟨cs', rest'⟩, hs, hp⟩ := Option.map_eq_some_iff.mp h
      obtain ⟨rfl, rfl⟩ := Prod.mk.inj hp
      exact ((ih hs).cons _).trans (List.Perm.swap ..)

theorem no_conjunction_of_splitConjunction {skip : Nat} {es : List BoolExpr}
    (h : splitConjunction? skip es = none) (cs : List BoolExpr) : junction .all cs ∉ es := by
  induction es generalizing skip with
  | nil => exact List.not_mem_nil
  | cons e es ih =>
    unfold splitConjunction? at h
    split at h
    · simp at *
    · split at h
      · simp at h
      · split at h <;> simp at h
    · next hne he =>
      obtain ⟨rfl, rfl⟩ := List.cons.inj he
      intro hm
      rcases List.mem_cons.mp hm with rfl | hm
      · exact hne cs rfl
      · exact ih (Option.map_eq_none_iff.mp h) hm

/-- The operands of a disjunction in which a conjunction is distributed are normal. -/
theorem IsNegationNormal.distributed {skip : Nat} {es cs rest : List BoolExpr}
    (h : IsNegationNormal (.junction .any es)) (hs : splitConjunction? skip es = some (cs, rest))
    {c : BoolExpr} (hc : c ∈ cs) : IsNegationNormal (join .any (c :: rest)) := by
  obtain _ | _ | _ | ⟨_, _, normal, _⟩ := h
  have hp := perm_of_splitConjunction hs
  refine isNegationNormal_join (fun e he => ?_)
  rcases List.mem_cons.mp he with rfl | he
  · obtain _ | _ | _ | ⟨_, _, normal, _⟩ := normal _ (hp.mem_iff.mpr List.mem_cons_self)
    exact normal e hc
  · exact normal e (hp.mem_iff.mpr (List.mem_cons_of_mem _ he))

/-- A variable or a negated variable. -/
def isLiteral : BoolExpr → Bool
  | var _ | neg (var _) => true
  | _ => false

/-- A literal or a disjunction of literals. -/
def IsClause (e : BoolExpr) : Prop :=
  isLiteral e ∨ ∃ es, e = junction .any es ∧ ∀ l ∈ es, isLiteral l

/-- A constant, a clause or a conjunction of clauses. -/
def IsConjunctive (e : BoolExpr) : Prop :=
  (∃ b, e = const b) ∨ IsClause e ∨ ∃ es, e = junction .all es ∧ ∀ c ∈ es, IsClause c

theorem isClause_of_mem_contributed {e e' : BoolExpr} (h : IsConjunctive e)
    (ha : isAbsorbing .all e = false) (he : e' ∈ contributed .all e) : IsClause e' := by
  rcases h with ⟨b, rfl⟩ | h | ⟨es, rfl, h⟩
  · have hb : b = Junctor.all.neutral := by simpa [isAbsorbing] using ha
    simp [contributed, hb] at he
  · have hc : contributed .all e = [e] := by
      rcases h with h | ⟨es, rfl, -⟩
      · cases e <;> simp_all [isLiteral, contributed]
      · simp [contributed]
    rw [hc] at he
    obtain rfl := List.mem_singleton.mp he
    exact h
  · exact h e' (by simpa [contributed] using he)

theorem isConjunctive_join {es : List BoolExpr} (h : ∀ e ∈ es, IsConjunctive e) :
    IsConjunctive (join .all es) := by
  have hcontributed : ∀ e ∈ es, isAbsorbing .all e = false → ∀ e' ∈ contributed .all e,
      IsClause e' := fun e he ha e' he' => isClause_of_mem_contributed (h e he) ha he'
  apply join_cases hcontributed
  case const => exact fun b => Or.inl ⟨b, rfl⟩
  case single => exact fun e he => Or.inr (Or.inl he)
  case junction => exact fun es' hs _ _ => Or.inr (Or.inr ⟨es', rfl, hs⟩)

theorem distribute_all (strategy : Strategy) (es : List BoolExpr) :
    (junction .all es).distribute strategy = join .all (es.map (distribute strategy)) := by
  rw [distribute, List.attach_map_val (f := distribute strategy)]

theorem distribute_any (strategy : Strategy) {es cs rest : List BoolExpr}
    (h : splitConjunction? (strategy es) es = some (cs, rest)) :
    (junction .any es).distribute strategy =
      join .all (cs.map (fun c => (join .any (c :: rest)).distribute strategy)) := by
  rw [distribute]
  split
  · next cs' rest' h' =>
    obtain ⟨rfl, rfl⟩ := Prod.mk.inj (Option.some.inj (h.symm.trans h'))
    simp
  · simp_all

theorem distribute_any_self (strategy : Strategy) {es : List BoolExpr}
    (h : splitConjunction? (strategy es) es = none) :
    (junction .any es).distribute strategy = junction .any es := by
  rw [distribute]
  split
  · next h' => exact absurd (h.symm.trans h') (by simp)
  · rfl

/-- A disjunction with a conjunction among its operands is a conjunction of disjunctions. -/
theorem holds_distributed (p : BoolExpr → Bool) (q : BoolExpr → Bool) (cs rest : List BoolExpr)
    (hq : ∀ c ∈ cs, q c = Junctor.any.holds p (c :: rest)) :
    Junctor.all.holds q cs = (Junctor.all.holds p cs || Junctor.any.holds p rest) := by
  rw [Junctor.holds_congr hq]
  simp only [Junctor.holds, List.any_cons]
  cases rest.any p with
  | true => simp
  | false => simp

theorem eval_distribute (v : String → Bool) (strategy : Strategy) (e : BoolExpr) :
    (e.distribute strategy).eval v = e.eval v := by
  induction e using distribute.induct strategy with
  | case1 es ih =>
    rw [distribute_all, eval_join, eval_junction, Junctor.holds_map]
    exact Junctor.holds_congr (fun e he => ih ⟨e, he⟩)
  | case2 es cs rest hs ih =>
    -- Only the members of the chosen conjunction and the rest matter, not where they stood.
    have hc : ∀ c ∈ cs, ((join .any (c :: rest)).distribute strategy).eval v =
        Junctor.any.holds (eval v) (c :: rest) :=
      fun c hc => (ih ⟨c, hc⟩).trans (eval_join ..)
    rw [distribute_any strategy hs, eval_join, Junctor.holds_map, holds_distributed _ _ _ _ hc,
      eval_junction, Junctor.holds_congr_mem (fun _ => (perm_of_splitConjunction hs).mem_iff)]
    simp [Junctor.holds, eval_junction]
  | case3 es hs => rw [distribute_any_self strategy hs]
  | case4 e h₁ h₂ => rw [distribute] <;> assumption

theorem vars_distribute {strategy : Strategy} {e : BoolExpr} {x : String}
    (hx : x ∈ (e.distribute strategy).vars) : x ∈ e.vars := by
  induction e using distribute.induct strategy with
  | case1 es ih =>
    rw [distribute_all] at hx
    obtain ⟨e', he', hx⟩ := vars_join hx
    obtain ⟨e, he, rfl⟩ := List.mem_map.mp he'
    exact mem_vars_junction.mpr ⟨e, he, ih ⟨e, he⟩ hx⟩
  | case2 es cs rest hs ih =>
    rw [distribute_any strategy hs] at hx
    obtain ⟨e', he', hx⟩ := vars_join hx
    obtain ⟨c, hc, rfl⟩ := List.mem_map.mp he'
    obtain ⟨e, he, hxe⟩ := vars_join (ih ⟨c, hc⟩ hx)
    have hp := perm_of_splitConjunction hs
    rcases List.mem_cons.mp he with rfl | he
    · exact mem_vars_junction.mpr
        ⟨_, hp.mem_iff.mpr List.mem_cons_self, mem_vars_junction.mpr ⟨e, hc, hxe⟩⟩
    · exact mem_vars_junction.mpr ⟨e, hp.mem_iff.mpr (List.mem_cons_of_mem _ he), hxe⟩
  | case3 es hs => rwa [distribute_any_self strategy hs] at hx
  | case4 e h₁ h₂ => rwa [distribute] at hx <;> assumption

/-- Distribution ends with a conjunction of clauses. -/
theorem isConjunctive_distribute {strategy : Strategy} {e : BoolExpr} (h : IsNegationNormal e) :
    IsConjunctive (e.distribute strategy) := by
  induction e using distribute.induct strategy with
  | case1 es ih =>
    obtain _ | _ | _ | ⟨_, _, normal, _⟩ := h
    rw [distribute_all]
    refine isConjunctive_join (fun e' he' => ?_)
    obtain ⟨e, he, rfl⟩ := List.mem_map.mp he'
    exact ih ⟨e, he⟩ (normal e he)
  | case2 es cs rest hs ih =>
    rw [distribute_any strategy hs]
    refine isConjunctive_join (fun e' he' => ?_)
    obtain ⟨c, hc, rfl⟩ := List.mem_map.mp he'
    exact ih ⟨c, hc⟩ (h.distributed hs hc)
  | case3 es hs =>
    obtain _ | _ | _ | ⟨_, _, normal, operand⟩ := h
    rw [distribute_any_self strategy hs]
    refine Or.inr (Or.inl (Or.inr ⟨es, rfl, fun l hl => ?_⟩))
    -- A normal operand of a disjunction without conjunctions is a literal.
    cases normal l hl with
    | const b => exact absurd (operand _ hl) (by simp [isOperand])
    | var x => rfl
    | negVar x => rfl
    | junction op ls _ _ =>
      cases op with
      | all => exact absurd hl (no_conjunction_of_splitConjunction hs ls)
      | any => exact absurd (operand _ hl) (by simp [isOperand])
  | case4 e h₁ h₂ =>
    have hd : e.distribute strategy = e := by rw [distribute] <;> assumption
    rw [hd]
    cases h with
    | const b => exact Or.inl ⟨b, rfl⟩
    | var x => exact Or.inr (Or.inl (Or.inl rfl))
    | negVar x => exact Or.inr (Or.inl (Or.inl rfl))
    | junction op es =>
      cases op with
      | all => exact absurd rfl (h₁ es)
      | any => exact absurd rfl (h₂ es)

/-! ## The conjunctive form -/

theorem eval_conjunctive (v : String → Bool) (strategy : Strategy) (e : BoolExpr) :
    (e.conjunctive strategy).eval v = e.eval v := by
  rw [conjunctive, eval_distribute, eval_pushNegation, beq_true]

theorem vars_conjunctive {strategy : Strategy} {e : BoolExpr} {x : String}
    (hx : x ∈ (e.conjunctive strategy).vars) : x ∈ e.vars :=
  vars_pushNegation (vars_distribute hx)

theorem isConjunctive_conjunctive (strategy : Strategy) (e : BoolExpr) :
    IsConjunctive (e.conjunctive strategy) :=
  isConjunctive_distribute (isNegationNormal_pushNegation e true)

end Variability.BoolExpr
