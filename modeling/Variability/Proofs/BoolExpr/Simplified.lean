import Variability.Proofs.BoolExpr.NormalForm

/-!
Simplified expressions.

The operands of a simplified junction are at least two different expressions, in
ascending order, and neither constants nor junctions of the same kind, and so it is
with every junction in the expression (`IsSimplified`).

The connectives keep that (`isSimplified_join`, `isSimplified_negate`,
`isSimplified_imply`), and so do the rules that bring an expression into conjunctive
form (`isSimplified_conjunctive`). A junction among the operands of one of the same
kind may be replaced by its own operands, before or after it is simplified
(`join_splice`).
-/

namespace Variability.BoolExpr

/-- Each junction in the expression has at least two operands in ascending order, none of which is a
constant or a junction of the same kind. -/
inductive IsSimplified : BoolExpr → Prop
  | const (b : Bool) : IsSimplified (.const b)
  | var (x : String) : IsSimplified (.var x)
  | neg {e : BoolExpr} (h : IsSimplified e) : IsSimplified (.neg e)
  | junction {op : Junctor} {es : List BoolExpr} (simplified : ∀ e ∈ es, IsSimplified e)
      (operand : ∀ e ∈ es, isOperand op e) (ascending : es.Pairwise Before)
      (several : 2 ≤ es.length) : IsSimplified (.junction op es)
  | implies {a b : BoolExpr} (left : IsSimplified a) (right : IsSimplified b) :
      IsSimplified (.implies a b)

variable {op : Junctor} {e e' : BoolExpr} {es : List BoolExpr}

/-! ## Connectives -/

/-- What simplified expressions contribute to a junction that none of them decides alone. -/
theorem isSimplified_of_mem_contributed (h : IsSimplified e) (ha : isAbsorbing op e = false)
    (he : e' ∈ contributed op e) : IsSimplified e' ∧ isOperand op e' := by
  cases h with
  | const b =>
    have hb : b = op.neutral := by simpa [isAbsorbing] using ha
    rw [contributed, if_pos hb] at he
    cases he
  | var x =>
    obtain rfl := List.mem_singleton.mp he
    exact ⟨.var x, rfl⟩
  | neg h =>
    obtain rfl := List.mem_singleton.mp he
    exact ⟨.neg h, rfl⟩
  | @junction op' es simplified operand ascending several =>
    rw [contributed] at he
    split at he
    · next hop =>
      subst hop
      exact ⟨simplified e' he, operand e' he⟩
    · next hop =>
      obtain rfl := List.mem_singleton.mp he
      exact ⟨.junction simplified operand ascending several, bne_iff_ne.mpr hop⟩
  | implies left right =>
    obtain rfl := List.mem_singleton.mp he
    exact ⟨.implies left right, rfl⟩

theorem isSimplified_join (h : ∀ e ∈ es, IsSimplified e) : IsSimplified (join op es) := by
  have hcontributed : ∀ e ∈ es, isAbsorbing op e = false → ∀ e' ∈ contributed op e,
      IsSimplified e' ∧ isOperand op e' :=
    fun e he ha e' he' => isSimplified_of_mem_contributed (h e he) ha he'
  apply join_cases hcontributed
  case const => exact .const
  case single => exact fun e he => he.1
  case junction =>
    intro es' hs hascending hseveral
    exact .junction (fun e he => (hs e he).1) (fun e he => (hs e he).2) hascending hseveral

theorem isSimplified_negate (h : IsSimplified e) : IsSimplified e.negate := by
  cases h with
  | const b => exact .const _
  | neg h => exact h
  | var x => exact .neg (.var x)
  | junction simplified operand ascending several =>
    exact .neg (.junction simplified operand ascending several)
  | implies left right => exact .neg (.implies left right)

theorem isSimplified_imply {a b : BoolExpr} (ha : IsSimplified a) (hb : IsSimplified b) :
    IsSimplified (imply a b) := by
  unfold imply
  split
  · refine isSimplified_join (List.forall_mem_cons.mpr ⟨isSimplified_negate ha, ?_⟩)
    exact List.forall_mem_singleton.mpr hb
  · split
    · exact .const true
    · exact .implies ha hb

/-! ## Splicing -/

theorem contributed_of_isOperand (h : isOperand op e) :
    contributed op e = [e] ∧ isAbsorbing op e = false := by
  cases e with
  | const b => cases h
  | junction op' es =>
    have hne : op' ≠ op := bne_iff_ne.mp h
    exact ⟨if_neg hne, rfl⟩
  | var x | neg e | implies a b => exact ⟨rfl, rfl⟩

/-- A junction of operands contributes these to another one of the same kind. -/
theorem contributed_ofOperands (h : ∀ e ∈ es, isOperand op e) :
    contributed op (ofOperands op es) = es ∧ isAbsorbing op (ofOperands op es) = false := by
  match es with
  | [] => exact ⟨if_pos rfl, by rw [ofOperands, isAbsorbing, bne_self_eq_false]⟩
  | [e] => exact contributed_of_isOperand (h e List.mem_cons_self)
  | _ :: _ :: _ => exact ⟨if_pos rfl, rfl⟩

/-- A junction is decided alone by what decides it, and contributes what its operands do. -/
theorem contributed_join (op : Junctor) (h : ∀ e ∈ es, IsSimplified e) :
    isAbsorbing op (join op es) = es.any (isAbsorbing op) ∧
      (es.any (isAbsorbing op) = false →
        contributed op (join op es) = operandSet (es.flatMap (contributed op))) := by
  unfold join
  split
  · next habsorbing =>
    rw [habsorbing]
    refine ⟨?_, fun hnone => Bool.noConfusion hnone⟩
    cases op <;> rfl
  · next habsorbing =>
    rw [Bool.not_eq_true] at habsorbing
    rw [habsorbing]
    have hoperands : ∀ e' ∈ operandSet (es.flatMap (contributed op)), isOperand op e' := by
      intro e' he'
      obtain ⟨e, he, he'⟩ := List.mem_flatMap.mp (mem_operandSet.mp he')
      have hne : isAbsorbing op e = false :=
        Bool.eq_false_iff.mpr (List.any_eq_false.mp habsorbing e he)
      exact (isSimplified_of_mem_contributed (h e he) hne he').2
    obtain ⟨hcontributed, hnone⟩ := contributed_ofOperands hoperands
    exact ⟨hnone, fun _ => hcontributed⟩

theorem join_congr {es es' : List BoolExpr}
    (habsorbing : es.any (isAbsorbing op) = es'.any (isAbsorbing op))
    (hcontributed : es.any (isAbsorbing op) = false →
      ∀ e, e ∈ es.flatMap (contributed op) ↔ e ∈ es'.flatMap (contributed op)) :
    join op es = join op es' := by
  unfold join
  rw [← habsorbing]
  split
  · rfl
  · next hnone => rw [operandSet_congr (hcontributed (Bool.not_eq_true _ ▸ hnone))]

/-- A junction among the operands may be replaced by its own operands. -/
theorem join_splice (h : ∀ e ∈ es, IsSimplified e) (front rest : List BoolExpr) :
    join op (front ++ join op es :: rest) = join op (front ++ (es ++ rest)) := by
  obtain ⟨habsorbing, hcontributed⟩ := contributed_join op h
  have hany : (front ++ join op es :: rest).any (isAbsorbing op) =
      (front ++ (es ++ rest)).any (isAbsorbing op) := by
    rw [List.any_append, List.any_cons, habsorbing, List.any_append, List.any_append]
  refine join_congr hany (fun hnone e => ?_)
  -- Where nothing decides the junction, the inner one has a set of operands.
  have hinner : es.any (isAbsorbing op) = false := by
    rw [hany, List.any_append, List.any_append, Bool.or_eq_false_iff, Bool.or_eq_false_iff] at hnone
    exact hnone.2.1
  rw [List.flatMap_append, List.flatMap_cons, hcontributed hinner, List.flatMap_append,
    List.flatMap_append]
  simp only [List.mem_append, mem_operandSet]

/-! ## Conjunctive form -/

theorem isSimplified_pushNegation (e : BoolExpr) (positive : Bool) :
    IsSimplified (e.pushNegation positive) := by
  induction e generalizing positive with
  | const b => exact .const _
  | var x =>
    cases positive with
    | true => exact .var x
    | false => exact .neg (.var x)
  | neg e ih => exact ih _
  | junction op es ih =>
    rw [pushNegation, pushNegations_eq]
    refine isSimplified_join (fun e' he' => ?_)
    obtain ⟨e, he, rfl⟩ := List.mem_map.mp he'
    exact ih e he positive
  | implies a b iha ihb =>
    refine isSimplified_join (List.forall_mem_cons.mpr ⟨iha _, ?_⟩)
    exact List.forall_mem_singleton.mpr (ihb _)

theorem IsSimplified.operands (h : IsSimplified (.junction op es)) : ∀ e ∈ es, IsSimplified e := by
  cases h with
  | junction simplified _ _ _ => exact simplified

theorem isSimplified_distribute {strategy : Strategy} (h : IsSimplified e) :
    IsSimplified (e.distribute strategy) := by
  induction e using distribute.induct strategy with
  | case1 es ih =>
    rw [distribute_all]
    refine isSimplified_join (fun e' he' => ?_)
    obtain ⟨e, he, rfl⟩ := List.mem_map.mp he'
    exact ih ⟨e, he⟩ (h.operands e he)
  | case2 es cs rest hs ih =>
    rw [distribute_any strategy hs]
    refine isSimplified_join (fun e' he' => ?_)
    obtain ⟨c, hc, rfl⟩ := List.mem_map.mp he'
    have hoperands := List.forall_mem_cons.mp
      (fun e he => h.operands e ((perm_of_splitConjunction hs).mem_iff.mpr he))
    exact ih ⟨c, hc⟩ (isSimplified_join
      (List.forall_mem_cons.mpr ⟨hoperands.1.operands c hc, hoperands.2⟩))
  | case3 es hs =>
    rw [distribute_any_self strategy hs]
    exact h
  | case4 e h₁ h₂ => rwa [distribute] <;> assumption

/-- The conjunctive form of every expression is simplified. -/
theorem isSimplified_conjunctive (strategy : Strategy) (e : BoolExpr) :
    IsSimplified (e.conjunctive strategy) :=
  isSimplified_distribute (isSimplified_pushNegation e true)

end Variability.BoolExpr
