/-!
Propositional formulas over named features.

Conjunctions and disjunctions take any number of operands, none included.
Equality of formulas is structural and decidable.
-/

namespace Variability

/-- A propositional formula; a literal names a feature. -/
inductive Formula where
  | literal (name : String)
  | top
  | bottom
  /-- A place holder without a meaning of its own. -/
  | hole
  | neg (operand : Formula)
  | conj (operands : List Formula)
  | disj (operands : List Formula)
  | implies (left right : Formula)
deriving Inhabited, Repr

namespace Formula

/-- The operands of a connective, from left to right. -/
def children : Formula → List Formula
  | neg f => [f]
  | conj fs => fs
  | disj fs => fs
  | implies f g => [f, g]
  | literal _ | top | bottom | hole => []

mutual

/-- The number of nodes of a formula. -/
def size : Formula → Nat
  | neg f => f.size + 1
  | conj fs => sizes fs + 1
  | disj fs => sizes fs + 1
  | implies f g => f.size + g.size + 1
  | literal _ | top | bottom | hole => 1

/-- The number of nodes of all formulas of a list. -/
def sizes : List Formula → Nat
  | [] => 0
  | f :: fs => f.size + sizes fs

end

theorem size_pos (f : Formula) : 0 < f.size := by cases f <;> simp [size]

theorem sizes_append (fs gs : List Formula) : sizes (fs ++ gs) = sizes fs + sizes gs := by
  induction fs with
  | nil => simp [sizes]
  | cons f fs ih => simp [sizes, ih, Nat.add_assoc]

theorem size_eq_sizes_children (f : Formula) : f.size = sizes f.children + 1 := by
  cases f <;> simp [size, sizes, children, Nat.add_assoc]

/-! ## Equality -/

mutual

/-- Structural equality, as a truth value. -/
def same : Formula → Formula → Bool
  | literal a, literal b => a = b
  | top, top => true
  | bottom, bottom => true
  | hole, hole => true
  | neg f, neg g => f.same g
  | conj fs, conj gs => sameAll fs gs
  | disj fs, disj gs => sameAll fs gs
  | implies f f', implies g g' => f.same g && f'.same g'
  | _, _ => false

/-- Structural equality of lists of formulas. -/
def sameAll : List Formula → List Formula → Bool
  | [], [] => true
  | f :: fs, g :: gs => f.same g && sameAll fs gs
  | _, _ => false

end

mutual

theorem same_iff : ∀ f g : Formula, f.same g = true ↔ f = g
  | literal a, g => by cases g <;> simp [same]
  | top, g => by cases g <;> simp [same]
  | bottom, g => by cases g <;> simp [same]
  | hole, g => by cases g <;> simp [same]
  | neg f, g => by
    cases g with
    | neg g => simp [same, same_iff f g]
    | _ => simp [same]
  | conj fs, g => by
    cases g with
    | conj gs => simp [same, sameAll_iff fs gs]
    | _ => simp [same]
  | disj fs, g => by
    cases g with
    | disj gs => simp [same, sameAll_iff fs gs]
    | _ => simp [same]
  | implies f f', g => by
    cases g with
    | implies g g' => simp [same, same_iff f g, same_iff f' g']
    | _ => simp [same]

theorem sameAll_iff : ∀ fs gs : List Formula, sameAll fs gs = true ↔ fs = gs
  | [], gs => by cases gs <;> simp [sameAll]
  | f :: fs, gs => by
    cases gs with
    | nil => simp [sameAll]
    | cons g gs => simp [sameAll, same_iff f g, sameAll_iff fs gs]

end

instance : DecidableEq Formula := fun f g => decidable_of_iff _ (same_iff f g)

end Formula

end Variability
