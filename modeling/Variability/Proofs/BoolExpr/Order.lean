import Mathlib.Data.List.Sort
import Variability.Proofs.BoolExpr.Semantics

/-!
The order of expressions.

It is a linear order (`cmp_swap`, `isLE_trans`), as expressions of one form are
compared by their parts. So the members of a set of operands are in strictly
ascending order (`pairwise_operandSet`), and two sets with the same members are
the same list (`operandSet_congr`). A junction is seen through its set of operands
(`join_cases`).
-/

namespace Variability.BoolExpr

/-! ## Forms -/

/-- Two expressions of one form. -/
inductive SameForm : BoolExpr → BoolExpr → Prop where
  | const (a b : Bool) : SameForm (.const a) (.const b)
  | var (a b : String) : SameForm (.var a) (.var b)
  | neg (e e' : BoolExpr) : SameForm (.neg e) (.neg e')
  | junction (op : Junctor) (es es' : List BoolExpr) :
      SameForm (.junction op es) (.junction op es')
  | implies (a b a' b' : BoolExpr) : SameForm (.implies a b) (.implies a' b')

variable {e e' e'' : BoolExpr}

theorem sameForm (h : e.form = e'.form) : SameForm e e' := by
  cases e with
  | const a =>
    cases e' with
    | const b => exact .const a b
    | junction op es => cases op <;> cases h
    | _ => cases h
  | var a =>
    cases e' with
    | var b => exact .var a b
    | junction op es => cases op <;> cases h
    | _ => cases h
  | neg e =>
    cases e' with
    | neg e' => exact .neg e e'
    | junction op es => cases op <;> cases h
    | _ => cases h
  | junction op es =>
    cases e' with
    | junction op' es' =>
      obtain rfl : op = op' := by cases op <;> cases op' <;> first | rfl | cases h
      exact .junction op es es'
    | _ => cases op <;> cases h
  | implies a b =>
    cases e' with
    | implies a' b' => exact .implies a b a' b'
    | junction op es => cases op <;> cases h
    | _ => cases h

theorem cmp_of_form_ne (h : e.form ≠ e'.form) : e.cmp e' = compare e.form e'.form := by
  cases e with
  | junction op es =>
    cases e' with
    | junction op' es' => cases op <;> cases op' <;> first | rfl | exact absurd rfl h
    | _ => cases op <;> rfl
  | _ =>
    cases e' with
    | junction op' es' => cases op' <;> rfl
    | _ => first | rfl | exact absurd rfl h

/-- An expression that does not come after another one has no later form. -/
theorem form_le (h : (e.cmp e').isLE = true) : e.form ≤ e'.form := by
  by_cases hf : e.form = e'.form
  · exact Nat.le_of_eq hf
  · rwa [cmp_of_form_ne hf, Nat.isLE_compare] at h

theorem cmp_junction (op : Junctor) (es es' : List BoolExpr) :
    (junction op es).cmp (junction op es') = cmpAll es es' := by
  cases op <;> rw [cmp]

/-! ## A linear order -/

theorem cmpAll_swap {es : List BoolExpr} (h : ∀ e ∈ es, ∀ e', (e.cmp e').swap = e'.cmp e)
    (es' : List BoolExpr) : (cmpAll es es').swap = cmpAll es' es := by
  induction es generalizing es' with
  | nil => cases es' <;> rfl
  | cons e es ih =>
    obtain ⟨he, hes⟩ := List.forall_mem_cons.mp h
    cases es' with
    | nil => rfl
    | cons e' es' => rw [cmpAll, cmpAll, Ordering.swap_then, he, ih hes]

theorem cmp_swap_of (h : SameForm e e' → (e.cmp e').swap = e'.cmp e) :
    (e.cmp e').swap = e'.cmp e := by
  by_cases hf : e.form = e'.form
  · exact h (sameForm hf)
  · rw [cmp_of_form_ne hf, cmp_of_form_ne (Ne.symm hf)]
    exact Std.OrientedCmp.eq_swap.symm

theorem cmp_swap (e e' : BoolExpr) : (e.cmp e').swap = e'.cmp e := by
  induction e generalizing e' with
  | const a =>
    refine cmp_swap_of (fun h => ?_)
    cases h
    rw [cmp, cmp]
    exact Std.OrientedCmp.eq_swap.symm
  | var a =>
    refine cmp_swap_of (fun h => ?_)
    cases h
    rw [cmp, cmp]
    exact Std.OrientedCmp.eq_swap.symm
  | neg e ih =>
    refine cmp_swap_of (fun h => ?_)
    cases h with
    | neg _ e' => exact ih e'
  | junction op es ih =>
    refine cmp_swap_of (fun h => ?_)
    cases h with
    | junction _ _ es' =>
      rw [cmp_junction, cmp_junction]
      exact cmpAll_swap ih es'
  | implies a b iha ihb =>
    refine cmp_swap_of (fun h => ?_)
    cases h with
    | implies _ _ a' b' => rw [cmp, cmp, Ordering.swap_then, iha, ihb]

/-- Nothing that does not come after the expression comes after what the expression does not come
after. -/
def Transitive (e : BoolExpr) : Prop :=
  ∀ e' e'' : BoolExpr, (e.cmp e').isLE = true → (e'.cmp e'').isLE = true → (e.cmp e'').isLE = true

theorem Transitive.lt_trans (h : Transitive e) (hlt : e.cmp e' = .lt) (hlt' : e'.cmp e'' = .lt) :
    e.cmp e'' = .lt := by
  have hle := h e' e'' (by rw [hlt]; rfl) (by rw [hlt']; rfl)
  cases hc : e.cmp e'' with
  | lt => rfl
  | gt => rw [hc] at hle; cases hle
  | eq =>
    -- Otherwise each of the two would come before the other.
    obtain rfl := (cmp_eq_iff e e'').mp hc
    rw [← cmp_swap, hlt] at hlt'
    cases hlt'

/-- Parts that are compared first, and others that are compared after them. -/
theorem Transitive.then (h : Transitive e) {o o' o'' : Ordering}
    (ho : o.isLE = true → o'.isLE = true → o''.isLE = true)
    (hle : ((e.cmp e').then o).isLE = true) (hle' : ((e'.cmp e'').then o').isLE = true) :
    ((e.cmp e'').then o'').isLE = true := by
  rw [Ordering.isLE_then_iff_or] at hle hle' ⊢
  rcases hle with hlt | ⟨heq, hle⟩
  · rcases hle' with hlt' | ⟨heq', -⟩
    · exact Or.inl (h.lt_trans hlt hlt')
    · obtain rfl := (cmp_eq_iff e' e'').mp heq'
      exact Or.inl hlt
  · obtain rfl := (cmp_eq_iff e e').mp heq
    rcases hle' with hlt' | ⟨heq', hle'⟩
    · exact Or.inl hlt'
    · exact Or.inr ⟨heq', ho hle hle'⟩

theorem cmpAll_isLE_trans {es : List BoolExpr} (h : ∀ e ∈ es, Transitive e)
    {es' es'' : List BoolExpr} (hle : (cmpAll es es').isLE = true)
    (hle' : (cmpAll es' es'').isLE = true) : (cmpAll es es'').isLE = true := by
  induction es generalizing es' es'' with
  | nil => cases es'' <;> rfl
  | cons e es ih =>
    obtain ⟨he, hes⟩ := List.forall_mem_cons.mp h
    cases es' with
    | nil => cases hle
    | cons e' es' =>
      cases es'' with
      | nil => cases hle'
      | cons e'' es'' =>
        rw [cmpAll] at hle hle' ⊢
        exact he.then (ih hes) hle hle'

theorem transitive_of
    (h : ∀ e' e'', SameForm e e' → SameForm e' e'' → (e.cmp e').isLE = true →
      (e'.cmp e'').isLE = true → (e.cmp e'').isLE = true) : Transitive e := by
  intro e' e'' hle hle'
  have hform := form_le hle
  have hform' := form_le hle'
  by_cases hf : e.form = e''.form
  · exact h e' e'' (sameForm (by omega)) (sameForm (by omega)) hle hle'
  · rw [cmp_of_form_ne hf, Nat.isLE_compare]
    exact hform.trans hform'

theorem transitive (e : BoolExpr) : Transitive e := by
  induction e with
  | const a =>
    refine transitive_of (fun e' e'' h h' => ?_)
    cases h
    cases h'
    rw [cmp, cmp, cmp]
    exact Std.TransCmp.isLE_trans
  | var a =>
    refine transitive_of (fun e' e'' h h' => ?_)
    cases h
    cases h'
    rw [cmp, cmp, cmp]
    exact Std.TransCmp.isLE_trans
  | neg e ih =>
    refine transitive_of (fun e' e'' h h' => ?_)
    cases h
    cases h'
    exact ih _ _
  | junction op es ih =>
    refine transitive_of (fun e' e'' h h' => ?_)
    cases h
    cases h'
    rw [cmp_junction, cmp_junction, cmp_junction]
    exact cmpAll_isLE_trans ih
  | implies a b iha ihb =>
    refine transitive_of (fun e' e'' h h' => ?_)
    cases h
    cases h'
    rw [cmp, cmp, cmp]
    exact iha.then (ihb _ _)

instance : Std.TransCmp cmp where
  eq_swap := (cmp_swap _ _).symm
  isLE_trans := transitive _ _ _

theorem le_iff : e.le e' = true ↔ (e.cmp e').isLE = true := by
  rw [le, bne_iff_ne, Ne, Ordering.ne_gt_iff_isLE]

/-! ## Sets of operands -/

/-- The first expression comes before the second. -/
def Before (e e' : BoolExpr) : Prop := e.cmp e' = .lt

instance : Std.Irrefl Before where
  irrefl e h := by
    rw [Before, (cmp_eq_iff e e).mpr rfl] at h
    cases h

instance : Std.Antisymm Before where
  antisymm e e' h h' := by
    rw [Before, ← cmp_swap, h] at h'
    cases h'

theorem pairwise_collapseRuns {es : List BoolExpr}
    (h : es.Pairwise (fun e e' => e.le e' = true)) : (collapseRuns es).Pairwise Before := by
  fun_induction collapseRuns es with
  | case1 e e' es hsame ih => exact ih h.of_cons
  | case2 e e' es hsame ih =>
    obtain ⟨hle, htail⟩ := List.pairwise_cons.mp h
    have hlt : e.cmp e' = .lt := by
      have hle' := le_iff.mp (hle e' List.mem_cons_self)
      cases hc : e.cmp e' with
      | lt => rfl
      | eq => rw [same, hc] at hsame; exact absurd rfl hsame
      | gt => rw [hc] at hle'; cases hle'
    refine List.pairwise_cons.mpr ⟨fun x hx => ?_, ih htail⟩
    -- What comes later does not come before the next expression.
    rcases List.mem_cons.mp (mem_collapseRuns.mp hx) with rfl | hx
    · exact hlt
    · exact Std.TransCmp.lt_of_lt_of_isLE hlt (le_iff.mp ((List.pairwise_cons.mp htail).1 x hx))
  | case3 es hshort =>
    rcases es with _ | ⟨e, _ | ⟨e', es⟩⟩
    · exact .nil
    · exact List.pairwise_singleton _ e
    · exact absurd rfl (hshort e e' es)

/-- The members of a set of operands are in strictly ascending order. -/
theorem pairwise_operandSet (es : List BoolExpr) : (operandSet es).Pairwise Before := by
  refine pairwise_collapseRuns (List.pairwise_mergeSort (fun e e' e'' h h' => ?_) ?_ es)
  · rw [le_iff] at h h' ⊢
    exact transitive e e' e'' h h'
  · intro e e'
    rw [Bool.or_eq_true, le_iff, le_iff, ← cmp_swap e e']
    cases e.cmp e' <;> simp

theorem nodup_operandSet (es : List BoolExpr) : (operandSet es).Nodup := by
  refine (pairwise_operandSet es).imp ?_
  rintro e _ hbefore rfl
  exact Std.Irrefl.irrefl e hbefore

/-- Sets of operands with the same members are the same. -/
theorem operandSet_congr {es es' : List BoolExpr} (h : ∀ e, e ∈ es ↔ e ∈ es') :
    operandSet es = operandSet es' := by
  refine (pairwise_operandSet es).eq_of_mem_iff (pairwise_operandSet es') (fun e => ?_)
  rw [mem_operandSet, mem_operandSet, h]

/-- A junction is a constant, something that its expressions contribute, or the junction of at least
two of these in ascending order. -/
theorem join_cases {motive : BoolExpr → Prop} {op : Junctor} {es : List BoolExpr}
    {operand : BoolExpr → Prop}
    (contributes : ∀ e ∈ es, isAbsorbing op e = false → ∀ e' ∈ contributed op e, operand e')
    (const : ∀ b, motive (.const b)) (single : ∀ e, operand e → motive e)
    (junction : ∀ es', (∀ e ∈ es', operand e) → es'.Pairwise Before → 2 ≤ es'.length →
      motive (.junction op es')) : motive (join op es) := by
  unfold join
  split
  · exact const _
  · next habsorbing =>
    have hs : ∀ e' ∈ operandSet (es.flatMap (contributed op)), operand e' := by
      intro e' he'
      obtain ⟨e, he, he'⟩ := List.mem_flatMap.mp (mem_operandSet.mp he')
      rw [Bool.not_eq_true, List.any_eq_false] at habsorbing
      exact contributes e he (Bool.eq_false_iff.mpr (habsorbing e he)) e' he'
    have hascending := pairwise_operandSet (es.flatMap (contributed op))
    -- What is left to see is how many operands there are.
    generalize operandSet (es.flatMap (contributed op)) = operands at hs hascending
    match operands with
    | [] => exact const _
    | [e] => exact single e (hs e List.mem_cons_self)
    | e :: e' :: rest =>
      exact junction _ hs hascending (Nat.le_add_left 2 rest.length)

end Variability.BoolExpr
