import Mathlib.Data.List.Basic
import Variability.Formula.Literals
import Variability.Proofs.Formula.Semantics

/-!
Substitution is simultaneous.

The replacement of the literals by plain recursion (`replaced`) goes below every
literal once and leaves all other nodes as they are. The tasks come to the same
formula: visiting a formula puts the replaced one on top of the nodes that are
done, whatever these are and whatever tasks wait (`run_visit`). So a node that is
put together finds just its own operands, also where a node or a replacement has
no operands.

What is proved (`substitute_simultaneous`):
  1. Literals are a unit of substitution, and it is associative.
  2. The truth value is that of the formula with the values of the replacements
     for its names.
  3. The names are those of the replacements, in the order of the names that they
     replace.
-/

namespace Variability.Formula

/-! ## The plain recursion -/

mutual

/-- The formula with every literal replaced once, all other nodes kept. -/
def replaced (σ : String → Formula) : Formula → Formula
  | literal name => σ name
  | top => top
  | bottom => bottom
  | hole => hole
  | neg f => neg (f.replaced σ)
  | conj fs => conj (replacedAll σ fs)
  | disj fs => disj (replacedAll σ fs)
  | implies f g => implies (f.replaced σ) (g.replaced σ)

/-- The formulas of a list with every literal replaced once. -/
def replacedAll (σ : String → Formula) : List Formula → List Formula
  | [] => []
  | f :: fs => f.replaced σ :: replacedAll σ fs

end

@[simp] theorem replacedAll_eq (σ : String → Formula) (fs : List Formula) :
    replacedAll σ fs = fs.map (replaced σ) := by
  induction fs with
  | nil => rfl
  | cons f fs ih => rw [replacedAll, ih, List.map_cons]

/-- A node with operands is put together over the replaced ones. -/
theorem replaced_eq_withChildren {f : Formula} (h : f.children ≠ []) (σ : String → Formula) :
    f.replaced σ = f.withChildren (f.children.map (replaced σ)) := by
  cases f with
  | literal | top | bottom | hole => exact absurd rfl h
  | neg f => rfl
  | conj fs | disj fs =>
    rw [replaced, replacedAll_eq]
    rfl
  | implies f g => rfl

/-! ## The tasks -/

namespace Substitution

variable (σ : String → Formula)

/-- A node is put together over the latest formulas, as many as it has operands. -/
theorem run_close {f : Formula} {gs : List Formula} (h : gs.length = f.children.length)
    (done : List Formula) (tasks : List Task) :
    run σ (gs.reverse ++ done) (.close f :: tasks) = run σ (f.withChildren gs :: done) tasks := by
  rw [run, ← h, ← List.length_reverse, List.take_left, List.drop_left, List.reverse_reverse]

theorem run_visits {fs : List Formula}
    (h : ∀ f ∈ fs, ∀ done tasks,
      run σ done (.visit f :: tasks) = run σ (f.replaced σ :: done) tasks)
    (done : List Formula) (tasks : List Task) :
    run σ done (fs.map .visit ++ tasks) =
      run σ ((fs.map (replaced σ)).reverse ++ done) tasks := by
  induction fs generalizing done with
  | nil => rfl
  | cons f fs ih =>
    obtain ⟨hf, hfs⟩ := List.forall_mem_cons.mp h
    rw [List.map_cons, List.cons_append, hf, ih hfs, List.map_cons, List.reverse_cons,
      List.append_assoc, List.singleton_append]

/-- A node whose operands can be visited can be visited. -/
theorem run_visit_of_children {f : Formula} (hne : ∀ name, f ≠ literal name)
    (h : ∀ g ∈ f.children, ∀ done tasks,
      run σ done (.visit g :: tasks) = run σ (g.replaced σ :: done) tasks)
    (done : List Formula) (tasks : List Task) :
    run σ done (.visit f :: tasks) = run σ (f.replaced σ :: done) tasks := by
  rw [run]
  · split
    · next hempty =>
      -- A node without operands is none of the literals, so it stays.
      have hstays : f.replaced σ = f := by
        cases f with
        | literal name => exact absurd rfl (hne name)
        | top | bottom | hole => rfl
        | conj fs | disj fs =>
          obtain rfl : fs = [] := List.isEmpty_iff.mp hempty
          rfl
        | neg | implies => cases hempty
      rw [hstays]
    · next hempty =>
      have hchildren : f.children ≠ [] := fun hnil => hempty (List.isEmpty_iff.mpr hnil)
      rw [run_visits σ h, run_close σ (List.length_map ..), replaced_eq_withChildren hchildren]
  · exact hne

/-- Visiting a formula puts the replaced formula on top of those that are done. -/
theorem run_visit (f : Formula) : ∀ done tasks,
    run σ done (.visit f :: tasks) = run σ (f.replaced σ :: done) tasks := by
  induction f with
  | literal name =>
    intro done tasks
    rw [run, replaced]
  | top | bottom | hole => exact run_visit_of_children σ (by simp) (by simp [children])
  | neg f ih => exact run_visit_of_children σ (by simp) (List.forall_mem_singleton.mpr ih)
  | conj fs ih | disj fs ih => exact run_visit_of_children σ (by simp) ih
  | implies f g ihf ihg =>
    exact run_visit_of_children σ (by simp)
      (List.forall_mem_cons.mpr ⟨ihf, List.forall_mem_singleton.mpr ihg⟩)

end Substitution

theorem substitute_eq (f : Formula) (σ : String → Formula) : f.substitute σ = f.replaced σ := by
  rw [substitute, Substitution.run_visit, Substitution.run, List.getLastD_cons,
    List.getLastD_nil]

/-! ## Laws -/

theorem replaced_literal (f : Formula) : f.replaced literal = f := by
  have hall {fs : List Formula} (ih : ∀ f ∈ fs, f.replaced literal = f) :
      fs.map (replaced literal) = fs := by
    rw [List.map_congr_left ih, List.map_id']
  induction f with
  | literal | top | bottom | hole => rfl
  | neg f ih => rw [replaced, ih]
  | conj fs ih | disj fs ih => rw [replaced, replacedAll_eq, hall ih]
  | implies f g ihf ihg => rw [replaced, ihf, ihg]

theorem replaced_replaced (σ τ : String → Formula) (f : Formula) :
    (f.replaced σ).replaced τ = f.replaced (fun name => (σ name).replaced τ) := by
  induction f with
  | literal | top | bottom | hole => rfl
  | neg f ih => rw [replaced, replaced, ih, replaced]
  | conj fs ih | disj fs ih =>
    simp only [replaced, replacedAll_eq, List.map_map]
    exact congrArg _ (List.map_congr_left ih)
  | implies f g ihf ihg => rw [replaced, replaced, ihf, ihg, replaced]

theorem eval_replaced (v : String → Bool) (σ : String → Formula) (f : Formula) :
    (f.replaced σ).eval v = f.eval (fun name => (σ name).eval v) := by
  induction f with
  | literal | top | bottom | hole => rfl
  | neg f ih => rw [replaced, eval, ih, eval]
  | conj fs ih =>
    simp only [replaced, replacedAll_eq, eval, evalAll_eq, List.all_map]
    rw [Bool.eq_iff_iff, List.all_eq_true, List.all_eq_true]
    exact forall₂_congr (fun f hf => by rw [Function.comp_apply, ih f hf])
  | disj fs ih =>
    simp only [replaced, replacedAll_eq, eval, evalAny_eq, List.any_map]
    rw [Bool.eq_iff_iff, List.any_eq_true, List.any_eq_true]
    exact exists_congr (fun f => and_congr_right fun hf => by rw [Function.comp_apply, ih f hf])
  | implies f g ihf ihg => rw [replaced, eval, ihf, ihg, eval]

theorem names_replaced (σ : String → Formula) (f : Formula) :
    (f.replaced σ).names = f.names.flatMap (fun name => (σ name).names) := by
  induction f with
  | literal name => exact (List.flatMap_singleton ..).symm
  | top | bottom | hole => rfl
  | neg f ih => rw [replaced, names, ih, names]
  | conj fs ih | disj fs ih =>
    simp only [replaced, replacedAll_eq, names, namesAll_eq, List.flatMap_map]
    rw [List.flatMap_assoc]
    exact List.flatMap_congr ih
  | implies f g ihf ihg => rw [replaced, names, ihf, ihg, names, List.flatMap_append]

/-- The names of the replacements, each once, in the order of the names that they replace. -/
theorem literals_replaced (σ : String → Formula) (f : Formula) :
    (f.replaced σ).literals = (f.literals.flatMap (fun name => (σ name).literals)).eraseDups := by
  -- A name that is repeated within a replacement is found once, as is one in the whole formula.
  have hfound : literals = fun f => (names f).eraseDups := funext literals_eq_eraseDups
  calc (f.replaced σ).literals
      = (f.names.flatMap (fun name => (σ name).names)).eraseDups := by
        rw [literals_eq_eraseDups, names_replaced]
    _ = (f.names.flatMap (fun name => (σ name).literals)).eraseDups := by
        rw [hfound, eraseDups_flatMap_eraseDups]
    _ = (f.names.eraseDups.flatMap (fun name => (σ name).literals)).eraseDups := by
        rw [eraseDups_eq_foldl, eraseDups_eq_foldl, foldl_appendNew_flatMap]
    _ = (f.literals.flatMap (fun name => (σ name).literals)).eraseDups := by
        rw [← literals_eq_eraseDups]

/-- Substitution replaces every literal once and keeps all other nodes. Replacing the literals by
themselves changes nothing, and two substitutions come to one. The truth value is that of the
formula with the values of the replacements for the names, and the names are those of the
replacements, each once, in the order of the names that they replace. -/
theorem substitute_simultaneous (f : Formula) (σ : String → Formula) :
    f.substitute σ = f.replaced σ ∧ f.substitute literal = f ∧
      (∀ τ, (f.substitute σ).substitute τ = f.substitute (fun name => (σ name).substitute τ)) ∧
      (∀ v, (f.substitute σ).eval v = f.eval (fun name => (σ name).eval v)) ∧
      (f.substitute σ).literals =
        (f.literals.flatMap (fun name => (σ name).literals)).eraseDups := by
  refine ⟨substitute_eq f σ, ?_⟩
  simp only [substitute_eq]
  exact ⟨replaced_literal f, fun τ => replaced_replaced σ τ f, fun v => eval_replaced v σ f,
    literals_replaced σ f⟩

/-- Two names are exchanged at once, and what replaces a name is not searched again. -/
example : (implies (.literal "A") (conj [.literal "B", disj []])).substitute
      (fun name => if name = "A" then .literal "B" else conj [.literal "A", conj []]) =
    implies (.literal "B") (conj [conj [.literal "A", conj []], disj []]) := by decide +kernel

end Variability.Formula
