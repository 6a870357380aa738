import Mathlib.Data.List.Sort
import Mathlib.Data.Nat.Choose.Basic
import Mathlib.Tactic.ByContra
import Variability.Formula.Choice

/-!
The search for combinations as a recursion over a list.

The selections of `k` elements that take the first element of a list come before
those that leave it out (`selections`), and they are all sublists of `k` elements
(`mem_selections`). So each of them has an element with a property iff fewer than
`k` elements of the list lack it (`forall_selections_iff`). There are as many of
them as combinations (`length_selections`), and those from an ascending list are
in lexicographic order (`pairwise_selections`).

A search state stands for the selections that it still leads to, level by level,
the innermost level first (`selectionsFrom`), and every step of the search keeps
them (`search_eq`). So the positions that are found are the selections from all
positions (`positions_eq`).
-/

namespace Variability.Combination

universe u v

variable {α : Type u} {β : Type v}

/-! ## Selections from a list -/

/-- The selections of `k` elements of a list, in lexicographic order of their places. -/
def selections : Nat → List α → List (List α)
  | 0, _ => [[]]
  | _ + 1, [] => []
  | k + 1, x :: xs => (selections k xs).map (x :: ·) ++ selections (k + 1) xs

theorem mem_selections {k : Nat} {xs ys : List α} :
    ys ∈ selections k xs ↔ ys.Sublist xs ∧ ys.length = k := by
  induction xs generalizing k ys with
  | nil =>
    cases k with
    | zero => simp [selections]
    | succ k =>
      rw [selections, List.sublist_nil]
      constructor
      · intro h
        cases h
      · rintro ⟨rfl, hlen⟩
        cases hlen
  | cons x xs ih =>
    cases k with
    | zero =>
      rw [selections, List.mem_singleton, List.length_eq_zero_iff]
      refine ⟨?_, And.right⟩
      rintro rfl
      exact ⟨List.nil_sublist _, rfl⟩
    | succ k =>
      rw [selections, List.mem_append, List.mem_map, ih, List.sublist_cons_iff]
      constructor
      · rintro (⟨zs, hzs, rfl⟩ | ⟨hsub, hlen⟩)
        · obtain ⟨hsub, hlen⟩ := ih.mp hzs
          exact ⟨Or.inr ⟨zs, rfl, hsub⟩, congrArg Nat.succ hlen⟩
        · exact ⟨Or.inl hsub, hlen⟩
      · rintro ⟨hsub | ⟨zs, rfl, hsub⟩, hlen⟩
        · exact Or.inr ⟨hsub, hlen⟩
        · exact Or.inl ⟨zs, ih.mpr ⟨hsub, Nat.succ.inj hlen⟩, rfl⟩

theorem selections_map (f : α → β) (k : Nat) (xs : List α) :
    selections k (xs.map f) = (selections k xs).map (List.map f) := by
  induction xs generalizing k with
  | nil => cases k <;> rfl
  | cons x xs ih =>
    cases k with
    | zero => rfl
    | succ k =>
      rw [List.map_cons, selections, selections, ih, ih, List.map_append, List.map_map,
        List.map_map]
      rfl

theorem selections_one (xs : List α) : selections 1 xs = xs.map (fun x => [x]) := by
  induction xs with
  | nil => rfl
  | cons x xs ih => rw [selections, ih, selections, List.map_singleton, List.map_cons,
      List.singleton_append]

theorem selections_of_length_lt {k : Nat} {xs : List α} (h : xs.length < k) :
    selections k xs = [] := by
  refine List.eq_nil_iff_forall_not_mem.mpr (fun ys hys => ?_)
  obtain ⟨hsub, hlen⟩ := mem_selections.mp hys
  have hle := hsub.length_le
  omega

/-- Every selection of `k` elements has one with a property iff fewer than `k` elements lack it. -/
theorem forall_selections_iff {k : Nat} {xs : List α} {p : α → Bool} :
    (∀ ys ∈ selections k xs, ∃ y ∈ ys, p y = true) ↔ xs.countP (fun x => !p x) < k := by
  constructor
  · intro h
    refine Nat.lt_of_not_le (fun hle => ?_)
    -- Of the elements that lack the property, the first `k` are a selection.
    let lacking := xs.filter (fun x => !p x)
    have hsub : (lacking.take k).Sublist xs := (List.take_sublist k _).trans List.filter_sublist
    have hlen : (lacking.take k).length = k := by
      rw [List.length_take, ← List.countP_eq_length_filter, Nat.min_eq_left hle]
    obtain ⟨y, hy, hp⟩ := h _ (mem_selections.mpr ⟨hsub, hlen⟩)
    have hlacks := (List.mem_filter.mp (List.mem_of_mem_take hy)).2
    rw [hp] at hlacks
    cases hlacks
  · intro h ys hys
    obtain ⟨hsub, rfl⟩ := mem_selections.mp hys
    by_contra hnone
    have hall : ∀ y ∈ ys, (!p y) = true := by
      intro y hy
      rw [Bool.not_eq_true', ← Bool.not_eq_true]
      exact fun hp => hnone ⟨y, hy, hp⟩
    have hcount := hsub.countP_le (p := fun x => !p x)
    rw [List.countP_eq_length.mpr hall] at hcount
    omega

/-! ## Order and number of the selections -/

theorem length_selections (k : Nat) (xs : List α) :
    (selections k xs).length = xs.length.choose k := by
  induction xs generalizing k with
  | nil => cases k <;> rfl
  | cons x xs ih =>
    cases k with
    | zero => rw [selections, Nat.choose_zero_right]; rfl
    | succ k =>
      rw [selections, List.length_append, List.length_map, ih, ih, List.length_cons,
        Nat.choose_succ_succ]

theorem pairwise_selections [LinearOrder α] {k : Nat} {xs : List α} (h : xs.Pairwise (· < ·)) :
    (selections k xs).Pairwise (· < ·) := by
  induction xs generalizing k with
  | nil => cases k <;> simp [selections]
  | cons x xs ih =>
    cases k with
    | zero => exact List.pairwise_singleton _ _
    | succ k =>
      obtain ⟨hx, hxs⟩ := List.pairwise_cons.mp h
      rw [selections, List.pairwise_append, List.pairwise_map]
      refine ⟨(ih hxs).imp List.Lex.cons, ih hxs, fun ys hys zs hzs => ?_⟩
      obtain ⟨ys, -, rfl⟩ := List.mem_map.mp hys
      obtain ⟨hsub, hlen⟩ := mem_selections.mp hzs
      cases zs with
      | nil => cases hlen
      | cons z zs => exact List.Lex.rel (hx z (hsub.subset List.mem_cons_self))

theorem mem_selections_finRange {n k : Nat} {ps : List (Fin n)} :
    ps ∈ selections k (List.finRange n) ↔ ps.Pairwise (· < ·) ∧ ps.length = k := by
  rw [mem_selections]
  refine and_congr_left fun _ => ⟨fun h => ?_, fun h => ?_⟩
  · exact (List.sortedLT_finRange n).pairwise.sublist h
  · have hnodup : ps.Nodup := h.imp fun hlt => ne_of_lt hlt
    have hsub : ps.Subperm (List.finRange n) :=
      List.subperm_of_subset hnodup (fun p _ => List.mem_finRange p)
    exact List.sublist_of_subperm_of_sortedLE hsub (h.imp le_of_lt).sortedLE
      (List.sortedLT_finRange n).sortedLE

/-! ## What a search state leads to -/

theorem chosen_cons (next : Nat) (outer : List Nat) :
    chosen ((next + 1) :: outer) = chosen outer ++ [next] := by
  rw [chosen, chosen, List.map_cons, List.reverse_cons, Nat.add_sub_cancel]

/-- The selections that a search state leads to: those with the positions chosen on the outer
levels, and what the innermost level can still add to them, come first. -/
def selectionsFrom (n k : Nat) : List Nat → List (List Nat)
  | [] => []
  | next :: outer =>
    (selections (k - outer.length) (List.range' next (n - next))).map (chosen outer ++ ·) ++
      selectionsFrom n k outer

theorem range'_of_lt {n next : Nat} (h : next < n) :
    List.range' next (n - next) = next :: List.range' (next + 1) (n - (next + 1)) := by
  rw [← List.range'_succ]
  congr 1
  omega

/-- A search finds the selections that its state leads to, in that order. -/
theorem search_eq {n k : Nat} {levels : List Nat} (h : levels.length ≤ k) :
    search n k levels = selectionsFrom n k levels := by
  fun_induction search n k levels with
  | case1 => rfl
  | case2 next outer hfits hlast ih =>
    -- The innermost level takes the position, and goes on with the next one.
    have hone : k - outer.length = 1 := by omega
    have hlt : next < n := by omega
    rw [ih h, selectionsFrom, selectionsFrom, hone, range'_of_lt hlt, selections_one,
      selections_one, List.map_cons, List.map_cons, List.cons_append]
  | case3 next outer hfits hlast ih =>
    -- The position is taken, and a new level opens for the positions after it.
    have hlt : next < n := by omega
    obtain ⟨r, hr⟩ : ∃ r, k - outer.length = r + 1 := ⟨k - outer.length - 1, by omega⟩
    have hr' : k - ((next + 1) :: outer).length = r := by
      rw [List.length_cons]
      omega
    have hlevels : ((next + 1) :: (next + 1) :: outer).length ≤ k := by
      rw [List.length_cons, List.length_cons]
      omega
    rw [ih hlevels, selectionsFrom, selectionsFrom, selectionsFrom, hr, hr',
      range'_of_lt hlt, selections, List.map_append, List.map_map, List.append_assoc, chosen_cons]
    congr 1
    exact List.map_congr_left (fun ys _ => List.append_assoc ..)
  | case4 next outer hfits ih =>
    -- There are not enough positions left for the open levels.
    rw [List.length_cons] at h
    have hshort : (List.range' next (n - next)).length < k - outer.length := by
      rw [List.length_range']
      omega
    rw [ih (Nat.le_of_succ_le h), selectionsFrom, selections_of_length_lt hshort, List.map_nil,
      List.nil_append]

/-- The search finds the selections of `k` positions, in lexicographic order. -/
theorem positions_eq {n k : Nat} (hk : 0 < k) : positions n k = selections k (List.range n) := by
  have hlevels : [0].length ≤ k := hk
  rw [positions, search_eq hlevels, selectionsFrom, selectionsFrom, List.append_nil,
    List.range_eq_range']
  exact List.map_id' _

end Variability.Combination
