import Variability.Proofs.Formula.Semantics

/-!
Formulas as they are read back from their texts.

A text has no empty conjunction or disjunction and none of one operand, and a
conjunction that comes first in a conjunction is continued by the other
operands; disjunctions likewise. `normal` brings a formula into this form. It
keeps the truth value (`eval_normal`) and changes nothing in a formula that has
the form (`Normal.normal_eq`).
-/

namespace Variability.Formula

/-! ## Operands of chains -/

/-- The formulas that a formula is the conjunction of; any other formula stands alone. -/
def conjuncts : Formula → List Formula
  | conj fs => fs
  | f => [f]

/-- The formulas that a formula is the disjunction of; any other formula stands alone. -/
def disjuncts : Formula → List Formula
  | disj fs => fs
  | f => [f]

theorem all_eval_conjuncts (v : String → Bool) (f : Formula) :
    f.conjuncts.all (eval v) = f.eval v := by
  cases f with
  | conj fs => rw [conjuncts, eval, evalAll_eq]
  | _ => simp [conjuncts]

theorem any_eval_disjuncts (v : String → Bool) (f : Formula) :
    f.disjuncts.any (eval v) = f.eval v := by
  cases f with
  | disj fs => rw [disjuncts, eval, evalAny_eq]
  | _ => simp [disjuncts]

/-- The conjunction of some formulas; the first one is continued if it is a conjunction. -/
def allOf : List Formula → Formula
  | [] => top
  | [f] => f
  | f :: g :: fs => conj (f.conjuncts ++ g :: fs)

/-- The disjunction of some formulas; the first one is continued if it is a disjunction. -/
def anyOf : List Formula → Formula
  | [] => bottom
  | [f] => f
  | f :: g :: fs => disj (f.disjuncts ++ g :: fs)

theorem eval_allOf (v : String → Bool) (fs : List Formula) :
    (allOf fs).eval v = fs.all (eval v) := by
  match fs with
  | [] => rfl
  | [f] => simp [allOf]
  | f :: g :: fs =>
    rw [allOf, eval, evalAll_eq, List.all_append, all_eval_conjuncts, List.all_cons (a := f)]

theorem eval_anyOf (v : String → Bool) (fs : List Formula) :
    (anyOf fs).eval v = fs.any (eval v) := by
  match fs with
  | [] => rfl
  | [f] => simp [anyOf]
  | f :: g :: fs =>
    rw [anyOf, eval, evalAny_eq, List.any_append, any_eval_disjuncts, List.any_cons (a := f)]

/-! ## The normal form -/

mutual

/-- The formula without empty and one-operand chains and with chains continued that come first in
a chain of their kind. -/
def normal : Formula → Formula
  | literal name => literal name
  | top => top
  | bottom => bottom
  | hole => hole
  | neg f => neg f.normal
  | conj fs => allOf (normals fs)
  | disj fs => anyOf (normals fs)
  | implies f g => implies f.normal g.normal

/-- The normal forms of a list of formulas. -/
def normals : List Formula → List Formula
  | [] => []
  | f :: fs => f.normal :: normals fs

end

@[simp] theorem normals_eq (fs : List Formula) : normals fs = fs.map normal := by
  induction fs with
  | nil => rfl
  | cons f fs ih => rw [normals, ih, List.map_cons]

/-- The normal form has the truth value of the formula. -/
theorem eval_normal (v : String → Bool) (f : Formula) : f.normal.eval v = f.eval v := by
  induction f with
  | literal | top | bottom | hole => rfl
  | neg f ih => rw [normal, eval, ih, eval]
  | conj fs ih =>
    rw [normal, eval_allOf, normals_eq, eval, evalAll_eq, Bool.eq_iff_iff, List.all_map,
      List.all_eq_true, List.all_eq_true]
    exact forall₂_congr (fun f hf => by rw [Function.comp_apply, ih f hf])
  | disj fs ih =>
    rw [normal, eval_anyOf, normals_eq, eval, evalAny_eq, Bool.eq_iff_iff, List.any_map,
      List.any_eq_true, List.any_eq_true]
    exact exists_congr (fun f => and_congr_right fun hf => by rw [Function.comp_apply, ih f hf])
  | implies f g ihf ihg => rw [normal, eval, ihf, ihg, eval]

/-- Each chain in the formula has two operands at least, and the first one is no chain of the same
kind. -/
inductive Normal : Formula → Prop
  | literal (name : String) : Normal (literal name)
  | top : Normal top
  | bottom : Normal bottom
  | hole : Normal hole
  | neg {f : Formula} (h : Normal f) : Normal (neg f)
  | conj {f g : Formula} {fs : List Formula} (first : f.conjuncts = [f])
      (h : ∀ g' ∈ f :: g :: fs, Normal g') : Normal (conj (f :: g :: fs))
  | disj {f g : Formula} {fs : List Formula} (first : f.disjuncts = [f])
      (h : ∀ g' ∈ f :: g :: fs, Normal g') : Normal (disj (f :: g :: fs))
  | implies {f g : Formula} (left : Normal f) (right : Normal g) : Normal (implies f g)

namespace Normal

theorem normal_eq {f : Formula} (h : Normal f) : f.normal = f := by
  induction h with
  | literal | top | bottom | hole => rfl
  | neg h ih => rw [normal, ih]
  | @conj f g fs first h ih =>
    have hfs : normals (f :: g :: fs) = f :: g :: fs := by
      rw [normals_eq, List.map_congr_left ih, List.map_id']
    rw [normal, hfs, allOf, first, List.singleton_append]
  | @disj f g fs first h ih =>
    have hfs : normals (f :: g :: fs) = f :: g :: fs := by
      rw [normals_eq, List.map_congr_left ih, List.map_id']
    rw [normal, hfs, anyOf, first, List.singleton_append]
  | implies left right ihl ihr => rw [normal, ihl, ihr]

/-- A conjunction in normal form may be continued. -/
theorem append_conjuncts {f g : Formula} (hf : Normal f) (hg : Normal g) :
    Normal (.conj (f.conjuncts ++ [g])) := by
  have hf' := hf
  cases hf with
  | @conj f f' fs first h =>
    have hall : ∀ g' ∈ (f :: f' :: fs) ++ [g], Normal g' :=
      List.forall_mem_append.mpr ⟨h, List.forall_mem_singleton.mpr hg⟩
    exact .conj first hall
  | _ => exact .conj rfl (List.forall_mem_cons.mpr ⟨hf', List.forall_mem_singleton.mpr hg⟩)

/-- A disjunction in normal form may be continued. -/
theorem append_disjuncts {f g : Formula} (hf : Normal f) (hg : Normal g) :
    Normal (.disj (f.disjuncts ++ [g])) := by
  have hf' := hf
  cases hf with
  | @disj f f' fs first h =>
    have hall : ∀ g' ∈ (f :: f' :: fs) ++ [g], Normal g' :=
      List.forall_mem_append.mpr ⟨h, List.forall_mem_singleton.mpr hg⟩
    exact .disj first hall
  | _ => exact .disj rfl (List.forall_mem_cons.mpr ⟨hf', List.forall_mem_singleton.mpr hg⟩)

end Normal

end Variability.Formula
