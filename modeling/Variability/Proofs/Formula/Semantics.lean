import Variability.Formula.Literals
import Variability.Proofs.Table

/-!
Truth values of formulas, and the names that they depend on.

A formula has a truth value under every assignment of truth values to names
(`eval`), which depends on the names of its literals only (`eval_congr`). The
search for names finds every name at a leaf (`literals_eq_foldl`), each once.
-/

namespace Variability.Formula

/-! ## Induction over the operands -/

/-- Induction with one case for each kind of formula. -/
@[induction_eliminator]
theorem inductionOn {motive : Formula → Prop} (literal : ∀ name, motive (.literal name))
    (top : motive .top) (bottom : motive .bottom) (hole : motive .hole)
    (neg : ∀ f, motive f → motive (.neg f))
    (conj : ∀ fs, (∀ f ∈ fs, motive f) → motive (.conj fs))
    (disj : ∀ fs, (∀ f ∈ fs, motive f) → motive (.disj fs))
    (implies : ∀ f g, motive f → motive g → motive (.implies f g)) : ∀ f, motive f
  | .literal name => literal name
  | .top => top
  | .bottom => bottom
  | .hole => hole
  | .neg f => neg f (inductionOn literal top bottom hole neg conj disj implies f)
  | .conj fs => conj fs (fun f _ => inductionOn literal top bottom hole neg conj disj implies f)
  | .disj fs => disj fs (fun f _ => inductionOn literal top bottom hole neg conj disj implies f)
  | .implies f g =>
    implies f g (inductionOn literal top bottom hole neg conj disj implies f)
      (inductionOn literal top bottom hole neg conj disj implies g)

theorem size_le_sizes {f : Formula} {fs : List Formula} (h : f ∈ fs) : f.size ≤ sizes fs := by
  induction fs with
  | nil => simp at h
  | cons g fs ih =>
    rw [sizes]
    rcases List.mem_cons.mp h with rfl | h
    · omega
    · have := ih h
      omega

/-! ## Truth values -/

mutual

/-- The truth value under an assignment. A place holder has no meaning and counts as false. -/
def eval (v : String → Bool) : Formula → Bool
  | literal name => v name
  | top => true
  | bottom | hole => false
  | neg f => !f.eval v
  | conj fs => evalAll v fs
  | disj fs => evalAny v fs
  | implies f g => !f.eval v || g.eval v

/-- Whether all formulas of a list are true. -/
def evalAll (v : String → Bool) : List Formula → Bool
  | [] => true
  | f :: fs => f.eval v && evalAll v fs

/-- Whether one formula of a list is true. -/
def evalAny (v : String → Bool) : List Formula → Bool
  | [] => false
  | f :: fs => f.eval v || evalAny v fs

end

@[simp] theorem evalAll_eq (v : String → Bool) (fs : List Formula) :
    evalAll v fs = fs.all (eval v) := by
  induction fs with
  | nil => rfl
  | cons f fs ih => rw [evalAll, ih, List.all_cons]

@[simp] theorem evalAny_eq (v : String → Bool) (fs : List Formula) :
    evalAny v fs = fs.any (eval v) := by
  induction fs with
  | nil => rfl
  | cons f fs ih => rw [evalAny, ih, List.any_cons]

mutual

/-- Whether no place holder occurs in a formula. -/
def isPlain : Formula → Bool
  | hole => false
  | literal _ | top | bottom => true
  | neg f => f.isPlain
  | conj fs | disj fs => allPlain fs
  | implies f g => f.isPlain && g.isPlain

/-- Whether no place holder occurs in a list of formulas. -/
def allPlain : List Formula → Bool
  | [] => true
  | f :: fs => f.isPlain && allPlain fs

end

@[simp] theorem allPlain_eq (fs : List Formula) : allPlain fs = fs.all isPlain := by
  induction fs with
  | nil => rfl
  | cons f fs ih => rw [allPlain, ih, List.all_cons]

/-! ## Names -/

mutual

/-- The names at the leaves, from left to right, with repetitions. -/
def names : Formula → List String
  | literal name => [name]
  | top | bottom | hole => []
  | neg f => f.names
  | conj fs | disj fs => namesAll fs
  | implies f g => f.names ++ g.names

/-- The names at the leaves of a list of formulas. -/
def namesAll : List Formula → List String
  | [] => []
  | f :: fs => f.names ++ namesAll fs

end

@[simp] theorem namesAll_eq (fs : List Formula) : namesAll fs = fs.flatMap names := by
  induction fs with
  | nil => rfl
  | cons f fs ih => rw [namesAll, ih, List.flatMap_cons]

/-- The search adds the names at the leaves one after the other. -/
theorem collectNames_eq_foldl (found : List String) (pending : List Formula) :
    collectNames found pending = (pending.flatMap names).foldl appendNew found := by
  fun_induction collectNames found pending <;>
    simp_all [names, List.flatMap_append, List.append_assoc]

theorem literals_eq_foldl (f : Formula) : f.literals = f.names.foldl appendNew [] := by
  rw [literals, collectNames_eq_foldl, List.flatMap_singleton]

theorem literals_eq_eraseDups (f : Formula) : f.literals = f.names.eraseDups := by
  rw [literals_eq_foldl, eraseDups_eq_foldl]

/-- The search finds the names in the order in which they appear first. -/
theorem firstAppearances_literals (f : Formula) :
    FirstAppearances (fun _ => True) f.names f.literals := by
  rw [literals_eq_eraseDups]
  exact firstAppearances_eraseDups f.names

theorem mem_literals {f : Formula} {name : String} : name ∈ f.literals ↔ name ∈ f.names := by
  rw [literals_eq_eraseDups, List.mem_eraseDups]

theorem foldl_appendNew_of_nodup {found xs : List String} (h : (found ++ xs).Nodup) :
    xs.foldl appendNew found = found ++ xs := by
  induction xs generalizing found with
  | nil => exact (List.append_nil found).symm
  | cons x xs ih =>
    have hnew : x ∉ found :=
      fun hx => (List.nodup_append.mp h).2.2 x hx x List.mem_cons_self rfl
    rw [List.append_cons] at h
    rw [List.foldl_cons, appendNew, if_neg hnew, ih h, List.append_cons found x xs]

/-- If no name is repeated, the search finds the names at the leaves as they are. -/
theorem literals_of_nodup {f : Formula} (h : f.names.Nodup) : f.literals = f.names := by
  rw [literals_eq_foldl, foldl_appendNew_of_nodup (by simpa using h), List.nil_append]

/-- The truth value depends on the names at the leaves only. -/
theorem eval_congr {v w : String → Bool} (f : Formula) (h : ∀ name ∈ f.names, v name = w name) :
    f.eval v = f.eval w := by
  induction f with
  | literal name => exact h name (by simp [names])
  | top | bottom | hole => rfl
  | neg f ih => rw [eval, eval, ih (by simpa [names] using h)]
  | conj fs ih | disj fs ih =>
    simp only [names, namesAll_eq, List.mem_flatMap] at h
    have hs : ∀ f ∈ fs, f.eval v = f.eval w :=
      fun f hf => ih f hf (fun name hn => h name ⟨f, hf, hn⟩)
    simp only [eval, evalAll_eq, evalAny_eq]
    grind
  | implies f g ihf ihg =>
    simp only [names, List.mem_append] at h
    rw [eval, eval, ihf (fun name hn => h name (Or.inl hn)),
      ihg (fun name hn => h name (Or.inr hn))]

end Variability.Formula
