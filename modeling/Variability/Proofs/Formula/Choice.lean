import Mathlib.Data.List.Basic
import Variability.Formula.Choice
import Variability.Proofs.Combination
import Variability.Proofs.Formula.Semantics

/-!
The truth of the formula that every choice of `k` elements contains one that
holds.

Its operands are the selections of `k` elements (`choiceClauses_eq`), so it is
true iff fewer than `k` elements are false (`everyChoice_eval_iff`).
-/

namespace Variability.Formula

open Combination (selections selections_map selections_one positions_eq forall_selections_iff)

variable {fs : List Formula} {k : Nat}

/-! ## The operands -/

theorem map_getD_range (fs : List Formula) :
    (List.range fs.length).map (fun p => (fs[p]?).getD top) = fs := by
  refine List.ext_getElem (by simp) (fun p hp hp' => ?_)
  simp [hp']

theorem atPositions_eq {ps : List Nat} (h : ∀ p ∈ ps, p < fs.length) :
    atPositions fs ps = ps.map (fun p => (fs[p]?).getD top) := by
  rw [atPositions, ← List.filterMap_eq_map]
  refine List.filterMap_congr (fun p hp => ?_)
  rw [Function.comp, List.getElem?_eq_getElem (h p hp), Option.getD_some]

/-- One disjunction for each selection of `k` elements, in lexicographic order of their places. -/
theorem choiceClauses_eq (hk : 0 < k) : choiceClauses fs k = (selections k fs).map disj := by
  have hpositions : ∀ ps ∈ selections k (List.range fs.length),
      disj (atPositions fs ps) = disj (ps.map (fun p => (fs[p]?).getD top)) := by
    intro ps hps
    refine congrArg disj (atPositions_eq (fun p hp => ?_))
    exact List.mem_range.mp ((Combination.mem_selections.mp hps).1.subset hp)
  rw [choiceClauses, positions_eq hk, List.map_congr_left hpositions]
  conv_rhs => rw [← map_getD_range fs, selections_map, List.map_map]
  rfl

theorem everyChoice_eq (hk : 0 < k) (hle : k ≤ fs.length) :
    everyChoice fs k = conj ((selections k fs).map disj) := by
  rw [everyChoice, if_neg (by omega), if_neg (by omega)]
  exact congrArg conj (choiceClauses_eq hk)

/-- Of every single element one holds iff all of them do. -/
theorem everyChoice_one (h : fs ≠ []) : everyChoice fs 1 = conj (fs.map (fun f => disj [f])) := by
  have hpos : 0 < fs.length := List.length_pos_iff.mpr h
  have hclauses : choiceClauses fs 1 = fs.map (fun f => disj [f]) := by
    rw [choiceClauses_eq Nat.one_pos, selections_one, List.map_map]
    rfl
  unfold everyChoice
  rw [if_neg (by omega), if_neg (by omega)]
  exact congrArg conj hclauses

/-! ## Truth -/

theorem everyChoice_negated (fs : List Formula) (k : Int) :
    everyChoice fs k true = everyChoice (fs.map neg) k := by
  simp [everyChoice]

/-- The formula is true iff fewer than `k` elements are false. -/
theorem eval_everyChoice (hk : 1 ≤ k) (hle : k ≤ fs.length + 1) (v : String → Bool) :
    (everyChoice fs k).eval v = true ↔ fs.countP (fun f => !f.eval v) < k := by
  rcases Nat.lt_or_ge fs.length k with hgt | hge
  · -- There are not as many as `k` elements, so nothing is asked.
    have hcount := List.countP_le_length (p := fun f : Formula => !f.eval v) (l := fs)
    rw [everyChoice, if_pos (by omega)]
    exact ⟨fun _ => by omega, fun _ => rfl⟩
  · rw [everyChoice, if_neg (by omega), if_neg (by omega)]
    show (conj (choiceClauses fs k)).eval v = true ↔ _
    rw [choiceClauses_eq (by omega), ← forall_selections_iff, eval, evalAll_eq, List.all_map,
      List.all_eq_true]
    refine forall₂_congr (fun gs _ => ?_)
    rw [Function.comp, eval, evalAny_eq, List.any_eq_true]

/-- For all elements, also with repetitions, and every number `k` from 1 to one more than there are:
the formula is true iff fewer than `k` places hold a false element, that is, at least as many hold a
true one as the others are; and the formula of the negations is true iff fewer than `k` places hold
a true element. -/
theorem everyChoice_eval_iff (fs : List Formula) (k : Nat) (hk : 1 ≤ k) (hle : k ≤ fs.length + 1)
    (v : String → Bool) :
    ((everyChoice fs k).eval v = true ↔ fs.countP (fun f => !f.eval v) < k) ∧
    ((everyChoice fs k).eval v = true ↔ fs.length + 1 - k ≤ fs.countP (fun f => f.eval v)) ∧
    ((everyChoice fs k true).eval v = true ↔ fs.countP (fun f => f.eval v) < k) := by
  have htrue := eval_everyChoice hk hle v
  have hsplit : fs.length = fs.countP (fun f => f.eval v) + fs.countP (fun f => !f.eval v) := by
    simpa using List.length_eq_countP_add_countP (fun f : Formula => f.eval v) (l := fs)
  refine ⟨htrue, htrue.trans ⟨fun h => by omega, fun h => by omega⟩, ?_⟩
  have hle' : k ≤ (fs.map neg).length + 1 := by rwa [List.length_map]
  have hnegations : (fs.map neg).countP (fun f : Formula => !f.eval v) =
      fs.countP (fun f => f.eval v) := by
    rw [List.countP_map]
    refine List.countP_congr (fun f _ => ?_)
    rw [Function.comp, eval, Bool.not_not]
  rw [everyChoice_negated, eval_everyChoice hk hle' v, hnegations]

/-- Two of three places hold the same element, which is true: of every two places one holds a true
element, but not of every two negations. -/
theorem everyChoice_eval_iff_repeated :
    (everyChoice [.literal "A", .literal "A", .literal "B"] 2).eval (fun x => x = "A") = true ∧
    (everyChoice [.literal "A", .literal "A", .literal "B"] 2 true).eval (fun x => x = "A") =
      false := by
  obtain ⟨htrue, -, hnegated⟩ := everyChoice_eval_iff [.literal "A", .literal "A", .literal "B"] 2
    (by decide) (by decide) (fun x => x = "A")
  refine ⟨htrue.mpr (by decide), ?_⟩
  rw [← Bool.not_eq_true]
  exact fun h => absurd (hnegated.mp h) (by decide)

end Variability.Formula
