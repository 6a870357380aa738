import Variability.BoolExpr.Connective

/-!
Truth values of Boolean expressions, and what the simplifying connectives do to
them: a junction has the value of its operands joined (`eval_join`), negation
and implication have theirs, and no connective brings in a new variable.

The order of expressions tells different ones apart (`cmp_eq_iff`), so that a
set of operands has the members of the list that it was made of
(`mem_operandSet`).
-/

namespace Variability

namespace Junctor

variable {α β : Type}

/-- Whether the members of a list satisfy a condition: all of them, or any of them. -/
def holds (op : Junctor) (p : α → Bool) (xs : List α) : Bool :=
  match op with
  | all => xs.all p
  | any => xs.any p

@[simp] theorem holds_nil (op : Junctor) (p : α → Bool) : op.holds p [] = op.neutral := by
  cases op <;> rfl

@[simp] theorem holds_singleton (op : Junctor) (p : α → Bool) (x : α) :
    op.holds p [x] = p x := by
  cases op <;> simp [holds]

/-- A member with the value opposite to the neutral one decides the junction. -/
theorem holds_of_mem {op : Junctor} {p : α → Bool} {x : α} {xs : List α} (hx : x ∈ xs)
    (hp : p x = !op.neutral) : op.holds p xs = !op.neutral := by
  cases op with
  | all => exact List.all_eq_false.mpr ⟨x, hx, by simp [hp, neutral]⟩
  | any => exact List.any_eq_true.mpr ⟨x, hx, by simp [hp, neutral]⟩

/-- The junction of a list depends on its members only. -/
theorem holds_congr_mem {op : Junctor} {p : α → Bool} {xs ys : List α}
    (h : ∀ x, x ∈ xs ↔ x ∈ ys) : op.holds p xs = op.holds p ys := by
  rw [Bool.eq_iff_iff]
  cases op <;> simp [holds, h]

theorem holds_congr {op : Junctor} {p q : α → Bool} {xs : List α} (h : ∀ x ∈ xs, p x = q x) :
    op.holds p xs = op.holds q xs := by
  rw [Bool.eq_iff_iff]
  cases op <;> simp only [holds, List.all_eq_true, List.any_eq_true] <;> grind

theorem holds_map (op : Junctor) (p : β → Bool) (g : α → β) (xs : List α) :
    op.holds p (xs.map g) = op.holds (fun x => p (g x)) xs := by
  cases op <;> simp [holds, Function.comp_def]

theorem holds_flatMap (op : Junctor) (p : β → Bool) (g : α → List β) (xs : List α) :
    op.holds p (xs.flatMap g) = op.holds (fun x => op.holds p (g x)) xs := by
  cases op <;> simp [holds, List.all_flatMap, List.any_flatMap]

/-- De Morgan: under a negation a junction turns into its dual. -/
theorem holds_under (op : Junctor) (positive : Bool) (p : α → Bool) (xs : List α) :
    (op.under positive).holds (fun x => p x == positive) xs = (op.holds p xs == positive) := by
  cases op <;> cases positive <;>
    simp [under, dual, holds, List.not_all_eq_any_not, List.not_any_eq_all_not]

end Junctor

namespace BoolExpr

/-! ## Induction over the operands -/

/-- Induction with one case for each kind of expression. -/
@[induction_eliminator]
theorem inductionOn {motive : BoolExpr → Prop} (const : ∀ b, motive (.const b))
    (var : ∀ x, motive (.var x)) (neg : ∀ e, motive e → motive (.neg e))
    (junction : ∀ op es, (∀ e ∈ es, motive e) → motive (.junction op es))
    (implies : ∀ a b, motive a → motive b → motive (.implies a b)) : ∀ e, motive e
  | .const b => const b
  | .var x => var x
  | .neg e => neg e (inductionOn const var neg junction implies e)
  | .junction op es =>
    junction op es (fun e _ => inductionOn const var neg junction implies e)
  | .implies a b =>
    implies a b (inductionOn const var neg junction implies a)
      (inductionOn const var neg junction implies b)

/-! ## Order -/

mutual

theorem cmp_eq_iff : ∀ e e' : BoolExpr, e.cmp e' = .eq ↔ e = e'
  | const a, e' => by
    cases e' with
    | junction op es => cases op <;> simp [cmp, form]
    | _ => simp [cmp, form]
  | var a, e' => by
    cases e' with
    | junction op es => cases op <;> simp [cmp, form]
    | _ => simp [cmp, form]
  | neg e, e' => by
    cases e' with
    | neg e' => simp [cmp, cmp_eq_iff e e']
    | junction op es => cases op <;> simp [cmp, form]
    | _ => simp [cmp, form]
  | junction op es, e' => by
    cases op <;> cases e' with
    | junction op' es' => cases op' <;> simp [cmp, form, cmpAll_eq_iff es es']
    | _ => simp [cmp, form]
  | implies a b, e' => by
    cases e' with
    | implies a' b' => simp [cmp, Ordering.then_eq_eq, cmp_eq_iff a a', cmp_eq_iff b b']
    | junction op es => cases op <;> simp [cmp, form]
    | _ => simp [cmp, form]

theorem cmpAll_eq_iff : ∀ es es' : List BoolExpr, cmpAll es es' = .eq ↔ es = es'
  | [], es' => by cases es' <;> simp [cmpAll]
  | e :: es, es' => by
    cases es' with
    | nil => simp [cmpAll]
    | cons e' es' => simp [cmpAll, Ordering.then_eq_eq, cmp_eq_iff e e', cmpAll_eq_iff es es']

end

theorem same_iff {e e' : BoolExpr} : e.same e' = true ↔ e = e' := by
  rw [same, beq_iff_eq, cmp_eq_iff]

theorem mem_collapseRuns {x : BoolExpr} {es : List BoolExpr} : x ∈ collapseRuns es ↔ x ∈ es := by
  fun_induction collapseRuns es with
  | case1 e e' es h ih =>
    obtain rfl := same_iff.mp h
    simp [ih]
  | case2 e e' es h ih => rw [List.mem_cons, ih, ← List.mem_cons]
  | case3 es => rfl

theorem mem_operandSet {x : BoolExpr} {es : List BoolExpr} : x ∈ operandSet es ↔ x ∈ es := by
  rw [operandSet, mem_collapseRuns, List.mem_mergeSort]

/-! ## Truth values -/

mutual

/-- The truth value of an expression under an assignment of truth values to variables. -/
def eval (v : String → Bool) : BoolExpr → Bool
  | const b => b
  | var x => v x
  | neg e => !e.eval v
  | junction .all es => evalAll v es
  | junction .any es => evalAny v es
  | implies a b => !a.eval v || b.eval v

/-- Whether all expressions of a list are true. -/
def evalAll (v : String → Bool) : List BoolExpr → Bool
  | [] => true
  | e :: es => e.eval v && evalAll v es

/-- Whether one expression of a list is true. -/
def evalAny (v : String → Bool) : List BoolExpr → Bool
  | [] => false
  | e :: es => e.eval v || evalAny v es

end

theorem evalAll_eq (v : String → Bool) (es : List BoolExpr) : evalAll v es = es.all (eval v) := by
  induction es with
  | nil => rfl
  | cons e es ih => rw [evalAll, ih, List.all_cons]

theorem evalAny_eq (v : String → Bool) (es : List BoolExpr) : evalAny v es = es.any (eval v) := by
  induction es with
  | nil => rfl
  | cons e es ih => rw [evalAny, ih, List.any_cons]

theorem eval_junction (v : String → Bool) (op : Junctor) (es : List BoolExpr) :
    (junction op es).eval v = op.holds (eval v) es := by
  cases op with
  | all => rw [eval, evalAll_eq, Junctor.holds]
  | any => rw [eval, evalAny_eq, Junctor.holds]

/-- The operands that an expression contributes stand for it. -/
theorem holds_contributed (v : String → Bool) (op : Junctor) (e : BoolExpr) :
    op.holds (eval v) (contributed op e) = e.eval v := by
  cases e with
  | const b =>
    rw [contributed]
    split
    · next h => rw [Junctor.holds_nil, eval, h]
    · rw [Junctor.holds_singleton]
  | junction op' es =>
    rw [contributed]
    split
    · next h => rw [h, eval_junction]
    · rw [Junctor.holds_singleton]
  | _ => rw [contributed, Junctor.holds_singleton] <;> simp

theorem eval_ofOperands (v : String → Bool) (op : Junctor) (es : List BoolExpr) :
    (ofOperands op es).eval v = op.holds (eval v) es := by
  unfold ofOperands
  split
  · rw [eval, Junctor.holds_nil]
  · rw [Junctor.holds_singleton]
  · exact eval_junction v op _

theorem eq_const_of_isAbsorbing {op : Junctor} {e : BoolExpr} (h : isAbsorbing op e = true) :
    e = const (!op.neutral) := by
  cases e with
  | const b => simpa [isAbsorbing, ← Bool.eq_not] using h
  | _ => simp [isAbsorbing] at h

theorem eval_join (v : String → Bool) (op : Junctor) (es : List BoolExpr) :
    (join op es).eval v = op.holds (eval v) es := by
  unfold join
  split
  · next h =>
    obtain ⟨e, he, ha⟩ := List.any_eq_true.mp h
    obtain rfl := eq_const_of_isAbsorbing ha
    exact (Junctor.holds_of_mem he rfl).symm
  · calc (ofOperands op (operandSet (es.flatMap (contributed op)))).eval v
        = op.holds (eval v) (operandSet (es.flatMap (contributed op))) := eval_ofOperands ..
      _ = op.holds (eval v) (es.flatMap (contributed op)) :=
          Junctor.holds_congr_mem (fun _ => mem_operandSet)
      _ = op.holds (fun e => op.holds (eval v) (contributed op e)) es := Junctor.holds_flatMap ..
      _ = op.holds (eval v) es := Junctor.holds_congr (fun e _ => holds_contributed v op e)

@[simp] theorem eval_negate (v : String → Bool) (e : BoolExpr) :
    e.negate.eval v = !e.eval v := by
  cases e <;> simp [negate, eval]

theorem eval_imply (v : String → Bool) (a b : BoolExpr) :
    (imply a b).eval v = (!a.eval v || b.eval v) := by
  unfold imply
  split
  · simp [eval_join, Junctor.holds]
  · split
    · next h =>
      obtain rfl := same_iff.mp h
      simp [eval]
    · rfl

/-! ## Variables -/

mutual

/-- The variables of an expression, from left to right, with repetitions. -/
def vars : BoolExpr → List String
  | const _ => []
  | var x => [x]
  | neg e => e.vars
  | junction _ es => varsAll es
  | implies a b => a.vars ++ b.vars

/-- The variables of a list of expressions. -/
def varsAll : List BoolExpr → List String
  | [] => []
  | e :: es => e.vars ++ varsAll es

end

@[simp] theorem varsAll_eq (es : List BoolExpr) : varsAll es = es.flatMap vars := by
  induction es with
  | nil => rfl
  | cons e es ih => rw [varsAll, ih, List.flatMap_cons]

theorem mem_vars_junction {op : Junctor} {es : List BoolExpr} {x : String} :
    x ∈ (junction op es).vars ↔ ∃ e ∈ es, x ∈ e.vars := by
  rw [vars, varsAll_eq, List.mem_flatMap]

theorem vars_of_mem_contributed {op : Junctor} {e e' : BoolExpr} {x : String}
    (he : e' ∈ contributed op e) (hx : x ∈ e'.vars) : x ∈ e.vars := by
  cases e with
  | const b =>
    rw [contributed] at he
    split at he
    · simp at he
    · rwa [← List.mem_singleton.mp he]
  | junction op' es =>
    rw [contributed] at he
    split at he
    · exact mem_vars_junction.mpr ⟨e', he, hx⟩
    · rwa [← List.mem_singleton.mp he]
  | _ => simp_all [contributed]

theorem vars_ofOperands {op : Junctor} {es : List BoolExpr} {x : String}
    (hx : x ∈ (ofOperands op es).vars) : ∃ e ∈ es, x ∈ e.vars := by
  unfold ofOperands at hx
  split at hx
  · simp [vars] at hx
  · exact ⟨_, List.mem_singleton_self _, hx⟩
  · exact mem_vars_junction.mp hx

/-- A junction has no other variables than the expressions that it was made of. -/
theorem vars_join {op : Junctor} {es : List BoolExpr} {x : String}
    (hx : x ∈ (join op es).vars) : ∃ e ∈ es, x ∈ e.vars := by
  unfold join at hx
  split at hx
  · simp [vars] at hx
  · obtain ⟨e', he', hx⟩ := vars_ofOperands hx
    obtain ⟨e, he, he'⟩ := List.mem_flatMap.mp (mem_operandSet.mp he')
    exact ⟨e, he, vars_of_mem_contributed he' hx⟩

@[simp] theorem vars_negate (e : BoolExpr) : e.negate.vars = e.vars := by
  cases e <;> simp [negate, vars]

theorem vars_imply {a b : BoolExpr} {x : String} (hx : x ∈ (imply a b).vars) :
    x ∈ a.vars ∨ x ∈ b.vars := by
  unfold imply at hx
  split at hx
  · obtain ⟨e, he, hxe⟩ := vars_join hx
    simp only [List.mem_cons, List.not_mem_nil, or_false] at he
    rcases he with rfl | rfl
    · exact Or.inl (by simpa using hxe)
    · exact Or.inr hxe
  · split at hx
    · simp [vars] at hx
    · exact List.mem_append.mp hx

end BoolExpr

end Variability
