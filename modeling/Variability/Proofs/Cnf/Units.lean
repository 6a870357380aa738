import Mathlib.Data.List.Lex
import Variability.Proofs.BoolExpr.Order
import Variability.Proofs.Cnf.Clauses

/-!
The clauses of conjunctions of literals.

The expression of such a formula is the conjunction of its variables, as nested
conjunctions are joined to it and repetitions dropped (`direct?_conjunctionOf`),
and this is in conjunctive form already (`conjunctive_conjunctionOf`). So there
is one clause for each name, with the number of the name alone
(`exists_units`).
-/

namespace Variability

namespace Formula

/-- A conjunction of literals, nested to any depth. -/
inductive IsConjunction : Formula → Prop where
  | literal (name : String) : IsConjunction (.literal name)
  | top : IsConjunction .top
  | conj {fs : List Formula} (h : ∀ f ∈ fs, IsConjunction f) : IsConjunction (.conj fs)

end Formula

namespace BoolExpr

open Formula (IsConjunction)

/-! ## Variables as operands -/

/-- All expressions of a list are variables. -/
def IsVars (es : List BoolExpr) : Prop := ∀ e ∈ es, ∃ x, e = var x

namespace IsVars

variable {es : List BoolExpr}

/-- Only two or more variables make a conjunction of their own. -/
theorem cases_length (h : IsVars es) :
    es = [] ∨ (∃ x, es = [var x]) ∨ ∃ e e' es', es = e :: e' :: es' := by
  rcases es with _ | ⟨e, _ | ⟨e', es⟩⟩
  · exact Or.inl rfl
  · obtain ⟨x, rfl⟩ := h e (List.mem_singleton_self e)
    exact Or.inr (Or.inl ⟨x, rfl⟩)
  · exact Or.inr (Or.inr ⟨e, e', es, rfl⟩)

theorem isOperand (h : IsVars es) : ∀ e ∈ es, isOperand .all e := by
  intro e he
  obtain ⟨x, rfl⟩ := h e he
  rfl

theorem join_eq (h : IsVars es) : join .all es = ofOperands .all (operandSet es) := by
  have habsorbing : es.any (isAbsorbing .all) = false := by
    refine List.any_eq_false.mpr (fun e he => ?_)
    obtain ⟨x, rfl⟩ := h e he
    exact Bool.false_ne_true
  have hcontributed : es.flatMap (contributed .all) = es := by
    conv_rhs => rw [← List.flatMap_singleton' es]
    refine List.flatMap_congr (fun e he => ?_)
    obtain ⟨x, rfl⟩ := h e he
    rfl
  rw [join, habsorbing, hcontributed, if_neg Bool.false_ne_true]

theorem map_eq (h : IsVars es) {f : BoolExpr → BoolExpr} (hf : ∀ x, f (var x) = var x) :
    es.map f = es := by
  conv_rhs => rw [← List.map_id es]
  refine List.map_congr_left (fun e he => ?_)
  obtain ⟨x, rfl⟩ := h e he
  exact hf x

end IsVars

theorem isVars_operandSet (names : List String) : IsVars (operandSet (names.map var)) := by
  intro e he
  obtain ⟨x, -, rfl⟩ := List.mem_map.mp (mem_operandSet.mp he)
  exact ⟨x, rfl⟩

/-! ## Conjunctions of variables -/

/-- The conjunction of the variables with the given names. -/
def conjunctionOf (names : List String) : BoolExpr :=
  ofOperands .all (operandSet (names.map var))

theorem conjunctionOf_nil : conjunctionOf [] = const true := by
  rw [conjunctionOf, List.map_nil, operandSet, List.mergeSort_nil]
  rfl

theorem conjunctionOf_singleton (name : String) : conjunctionOf [name] = var name := by
  rw [conjunctionOf, List.map_singleton, operandSet, List.mergeSort_singleton]
  rfl

/-- Conjunctions of variables are joined to the conjunction of all of them. -/
theorem join_conjunctionOf (names : List (List String)) :
    join .all (names.map conjunctionOf) = conjunctionOf names.flatten := by
  have habsorbing : (names.map conjunctionOf).any (isAbsorbing .all) = false := by
    rw [List.any_map, List.any_eq_false]
    intro ns _
    rw [Function.comp, conjunctionOf, (contributed_ofOperands (isVars_operandSet ns).isOperand).2]
    exact Bool.false_ne_true
  have hcontributed : (names.map conjunctionOf).flatMap (contributed .all) =
      names.flatMap (fun ns => operandSet (ns.map var)) := by
    rw [List.flatMap_map]
    exact List.flatMap_congr
      (fun ns _ => (contributed_ofOperands (isVars_operandSet ns).isOperand).1)
  rw [join, habsorbing, hcontributed, if_neg Bool.false_ne_true, conjunctionOf]
  refine congrArg _ (operandSet_congr (fun e => ?_))
  simp only [List.mem_flatMap, mem_operandSet, List.mem_map, List.mem_flatten]
  constructor
  · rintro ⟨ns, hns, x, hx, rfl⟩
    exact ⟨x, ⟨ns, hns, hx⟩, rfl⟩
  · rintro ⟨x, ⟨ns, hns, hx⟩, rfl⟩
    exact ⟨ns, hns, x, hx, rfl⟩

/-- A conjunction of variables is in conjunctive form. -/
theorem conjunctive_conjunctionOf (strategy : Strategy) (names : List String) :
    (conjunctionOf names).conjunctive strategy = conjunctionOf names := by
  have hvars := isVars_operandSet names
  have hset : operandSet (operandSet (names.map var)) = operandSet (names.map var) :=
    operandSet_congr (fun _ => mem_operandSet)
  have hvar (x : String) : (var x).distribute strategy = var x := by rw [distribute] <;> simp
  rw [conjunctive, conjunctionOf]
  generalize operandSet (names.map var) = es at hvars hset
  obtain rfl | ⟨x, rfl⟩ | ⟨e, e', es, rfl⟩ := hvars.cases_length
  · show (const true).distribute strategy = const true
    rw [distribute] <;> simp
  · exact hvar x
  · have hjoin := hvars.join_eq
    rw [hset] at hjoin
    show ((junction .all (e :: e' :: es)).pushNegation true).distribute strategy = _
    rw [pushNegation, pushNegations_eq, hvars.map_eq (fun x => rfl)]
    show (join .all (e :: e' :: es)).distribute strategy = _
    rw [hjoin]
    show (junction .all (e :: e' :: es)).distribute strategy = _
    rw [distribute_all, hvars.map_eq hvar, hjoin]

/-! ## The expression of a conjunction of literals -/

/-- The expression of a conjunction of literals is the conjunction of the variables. -/
theorem direct?_conjunctionOf {f : Formula} (h : IsConjunction f) :
    direct? f = some (conjunctionOf f.names) := by
  induction h with
  | literal name => exact congrArg some (conjunctionOf_singleton name).symm
  | top => exact congrArg some conjunctionOf_nil.symm
  | @conj fs _ ih =>
    have hoperands : directs? fs = some ((fs.map Formula.names).map conjunctionOf) := by
      rw [directs?_eq_some_iff, List.map_map, List.forall₂_map_right_iff, List.forall₂_same]
      exact ih
    rw [direct?, hoperands, Option.map_some, join_conjunctionOf, ← List.flatMap_def,
      Formula.names, Formula.namesAll_eq]

end BoolExpr

/-! ## Unit clauses -/

namespace Cnf

open BoolExpr (operandSet)

theorem clausesOf_conjunctionOf (number : String → Int) (names : List String) :
    clausesOf number (BoolExpr.conjunctionOf names) =
      (operandSet (names.map .var)).map (clauseOf number) := by
  have hvars := BoolExpr.isVars_operandSet names
  rw [BoolExpr.conjunctionOf]
  generalize operandSet (names.map .var) = es at hvars
  obtain rfl | ⟨x, rfl⟩ | ⟨e, e', es, rfl⟩ := hvars.cases_length <;> rfl

/-- The clauses in ascending order, with the literals of each of them in ascending order, too. -/
def sorted (cs : List (List Int)) : List (List Int) :=
  (cs.map (fun c => c.mergeSort (fun l l' => decide (l ≤ l')))).mergeSort
    (fun c c' => decide (c ≤ c'))

theorem sorted_of_units {cs : List (List Int)} {is : List Nat} (hnodup : cs.Nodup)
    (hmem : ∀ c, c ∈ cs ↔ ∃ i ∈ is, c = [(i : Int) + 1]) (his : is.Pairwise (· < ·)) :
    sorted cs = is.map (fun i : Nat => [(i : Int) + 1]) := by
  have hsame : cs.map (fun c => c.mergeSort (fun l l' => decide (l ≤ l'))) = cs := by
    conv_rhs => rw [← List.map_id cs]
    refine List.map_congr_left (fun c hc => ?_)
    obtain ⟨i, -, rfl⟩ := (hmem c).mp hc
    exact List.mergeSort_singleton _
  have hascending : (is.map (fun i : Nat => [(i : Int) + 1])).Pairwise (· < ·) := by
    refine List.pairwise_map.mpr (his.imp (fun hlt => ?_))
    exact List.Lex.rel (by omega)
  have hperm : cs.Perm (is.map (fun i : Nat => [(i : Int) + 1])) := by
    refine (List.perm_ext_iff_of_nodup hnodup (hascending.imp ne_of_lt)).mpr (fun c => ?_)
    rw [hmem, List.mem_map]
    exact exists_congr fun i => and_congr_right fun _ => eq_comm
  have hsorted : (cs.mergeSort (fun c c' => decide (c ≤ c'))).Pairwise (· ≤ ·) := by
    refine (List.pairwise_mergeSort (fun a b c => ?_) (fun a b => ?_) cs).imp of_decide_eq_true
    · simpa using le_trans
    · simpa using le_total a b
  rw [sorted, hsame]
  exact ((List.mergeSort_perm cs _).trans hperm).eq_of_pairwise
    (fun a b _ _ => le_antisymm) hsorted (hascending.imp le_of_lt)

end Cnf

namespace Formula

open BoolExpr (operandSet)

/-- The clauses of a conjunction of literals with different numbers are the numbers of its names,
each of them in one clause and alone. -/
theorem exists_units {f : Formula} {n : Numbering} (hf : f.IsConjunction) (hn : n.Covers f)
    (hinj : ∀ x ∈ f.names, ∀ y ∈ f.names, n.find? x = n.find? y → x = y)
    (strategy : BoolExpr.Strategy) :
    ∃ cs, f.clauses n strategy = .ok cs ∧ cs.Nodup ∧
      ∀ c, c ∈ cs ↔ ∃ x ∈ f.names, ∃ i, n.find? x = some i ∧ c = [i] := by
  have hexpr : BoolExpr.ofFormula? f = some (BoolExpr.conjunctionOf f.names) :=
    (BoolExpr.ofFormula?_eq f).trans (BoolExpr.direct?_conjunctionOf hf)
  let number (x : String) : Int := (n.find? x).getD 0
  let cs := (operandSet (f.names.map .var)).map (Cnf.clauseOf number)
  have hnumber : ∀ x ∈ f.names, n.find? x = some (number x) := by
    intro x hx
    obtain ⟨i, hi, -⟩ := hn x (mem_literals.mpr hx)
    rw [hi]
    exact congrArg some (congrArg (Option.getD · 0) hi).symm
  refine ⟨cs, ?_, ?_, fun c => ?_⟩
  · rw [clauses, Cnf.unnumbered_of_covers hn, hexpr]
    show Except.ok (Cnf.clausesOf number _) = _
    rw [BoolExpr.conjunctive_conjunctionOf, Cnf.clausesOf_conjunctionOf]
  · refine (BoolExpr.nodup_operandSet _).map_on (fun e he e' he' heq => ?_)
    obtain ⟨x, hx, rfl⟩ := List.mem_map.mp (BoolExpr.mem_operandSet.mp he)
    obtain ⟨y, hy, rfl⟩ := List.mem_map.mp (BoolExpr.mem_operandSet.mp he')
    have hsame : number x = number y := (List.cons.inj heq).1
    rw [hinj x hx y hy (by rw [hnumber x hx, hnumber y hy, hsame])]
  · rw [List.mem_map]
    constructor
    · rintro ⟨e, he, rfl⟩
      obtain ⟨x, hx, rfl⟩ := List.mem_map.mp (BoolExpr.mem_operandSet.mp he)
      exact ⟨x, hx, number x, hnumber x hx, rfl⟩
    · rintro ⟨x, hx, i, hi, rfl⟩
      obtain rfl := Option.some.inj ((hnumber x hx).symm.trans hi)
      exact ⟨.var x, BoolExpr.mem_operandSet.mpr (List.mem_map_of_mem hx), rfl⟩

end Formula

end Variability
