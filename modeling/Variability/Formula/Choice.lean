import Variability.Formula.Basic

/-!
The formula that every choice of `k` elements contains one that holds, as a
conjunction of one disjunction for each choice.

It holds iff fewer than `k` of the elements fail. The choices are the `k`-element
combinations of the positions `0, …, n - 1` in ascending order, found by
backtracking. A search state is the list of the positions to be tried next, one
for each open level and the innermost level first; a level that is not the
innermost one has chosen the position before the one it tries next.
-/

namespace Variability.Combination

/-- The positions chosen on the levels of a state, from the outermost level on. -/
def chosen (levels : List Nat) : List Nat := (levels.map (fun next => next - 1)).reverse

/-- The part of the bound on the search that one level contributes. -/
def levelWeight (n k next level : Nat) : Nat :=
  (n + 1 - next) * Nat.pow (n + 2) (k - level)

/-- A bound on the steps of the search from a state. -/
def weight (n k : Nat) : List Nat → Nat
  | [] => 0
  | next :: outer => levelWeight n k next outer.length + 1 + weight n k outer

theorem levelWeight_of_lt {n next : Nat} (h : next < n) (k level : Nat) :
    levelWeight n k next level =
      levelWeight n k (next + 1) level + Nat.pow (n + 2) (k - level) := by
  unfold levelWeight
  obtain ⟨d, rfl⟩ : ∃ d, n = next + d := ⟨n - next, by omega⟩
  have h₁ : next + d + 1 - next = d + 1 := by omega
  have h₂ : next + d + 1 - (next + 1) = d := by omega
  rw [h₁, h₂, Nat.succ_mul]

theorem levelWeight_succ_lt {n k next level : Nat} (h : next < n) (hk : level < k) :
    levelWeight n k (next + 1) (level + 1) + 1 < Nat.pow (n + 2) (k - level) := by
  unfold levelWeight
  obtain ⟨r, hr⟩ : ∃ r, k - level = r + 1 := ⟨k - level - 1, by omega⟩
  have hr' : k - (level + 1) = r := by omega
  have hp : 1 ≤ Nat.pow (n + 2) r := Nat.one_le_pow _ _ (by omega)
  have hpow : Nat.pow (n + 2) (r + 1) = (n + 2) * Nat.pow (n + 2) r := Nat.mul_comm _ (n + 2)
  rw [hr, hr', hpow]
  have hn : (n + 1 - (next + 1)) * Nat.pow (n + 2) r ≤ n * Nat.pow (n + 2) r :=
    Nat.mul_le_mul_right _ (by omega)
  have hs : (n + 2) * Nat.pow (n + 2) r =
      n * Nat.pow (n + 2) r + Nat.pow (n + 2) r + Nat.pow (n + 2) r := by
    rw [Nat.succ_mul, Nat.succ_mul]
  omega

/-- The combinations that are found from a state on. -/
def search (n k : Nat) : List Nat → List (List Nat)
  | [] => []
  | next :: outer =>
    if h : outer.length < k ∧ next + (k - outer.length) ≤ n then
      if outer.length + 1 = k then
        (chosen outer ++ [next]) :: search n k ((next + 1) :: outer)
      else search n k ((next + 1) :: (next + 1) :: outer)
    else search n k outer
termination_by levels => weight n k levels
decreasing_by
  · have hw := levelWeight_of_lt (show next < n by omega) k outer.length
    have hp : 1 ≤ Nat.pow (n + 2) (k - outer.length) := Nat.one_le_pow _ _ (by omega)
    simp only [weight]
    omega
  · have hw := levelWeight_of_lt (show next < n by omega) k outer.length
    have hs := levelWeight_succ_lt (show next < n by omega) h.1
    simp only [weight, List.length_cons]
    omega
  · simp only [weight]
    omega

/-- The ascending `k`-element lists of positions below `n`, in lexicographic order, for a
positive `k`. -/
def positions (n k : Nat) : List (List Nat) := search n k [0]

end Variability.Combination

namespace Variability.Formula

/-- The elements at the given positions. -/
def atPositions (elements : List Formula) (ps : List Nat) : List Formula :=
  ps.filterMap (fun p => elements[p]?)

/-- One disjunction for each choice of `k` elements. -/
def choiceClauses (elements : List Formula) (k : Nat) : List Formula :=
  (Combination.positions elements.length k).map (fun ps => disj (atPositions elements ps))

/-- Every choice of `k` of the elements, or of their negations, contains one that
holds. There is nothing to satisfy for no element or for one more than there
are, and no way to satisfy it for a negative number or for more than that. -/
def everyChoice (elements : List Formula) (k : Int) (negated : Bool := false) : Formula :=
  let n : Int := elements.length
  if k = 0 ∨ k = n + 1 then top
  else if k < 0 ∨ n + 1 < k then bottom
  else conj (choiceClauses (if negated then elements.map neg else elements) k.toNat)

end Variability.Formula
