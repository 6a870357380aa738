import Variability.Table

/-!
Tables as functions: what a key holds, and which keys hold something. A table
made of pairs with different keys has just these pairs for its entries. Where
pairs share a key, its place is that of the first one, and its value that of the
last one (`entries_ofList_eq_map`).

Before that, lists whose repetitions are left out: what remains are the first
appearances (`firstAppearances_eraseDups`).
-/

namespace Variability

universe u v

/-! ## Lists without repetitions -/

/-- Appending what is new leaves out what was there before, and later repetitions. -/
theorem foldl_appendNew {α : Type u} [DecidableEq α] (found xs : List α) :
    xs.foldl appendNew found = found ++ (xs.filter (fun x => x ∉ found)).eraseDups := by
  induction xs generalizing found with
  | nil => simp
  | cons x xs ih =>
    rw [List.foldl_cons, ih, appendNew]
    by_cases hx : x ∈ found
    · rw [if_pos hx, List.filter_cons_of_neg (by simpa using hx)]
    · rw [if_neg hx, List.filter_cons_of_pos (by simpa using hx), List.eraseDups_cons,
        List.filter_filter, List.append_assoc, List.singleton_append]
      congr 3
      apply List.filter_congr
      intro y _
      by_cases hy : y = x <;> simp [hy]

theorem mem_foldl_appendNew {α : Type u} [DecidableEq α] {found xs : List α} {x : α} :
    x ∈ xs.foldl appendNew found ↔ x ∈ found ∨ x ∈ xs := by
  rw [foldl_appendNew, List.mem_append, List.mem_eraseDups, List.mem_filter]
  by_cases hx : x ∈ found <;> simp [hx]

theorem foldl_appendNew_of_subset {α : Type u} [DecidableEq α] {found xs : List α}
    (h : ∀ x ∈ xs, x ∈ found) : xs.foldl appendNew found = found := by
  have hnone : xs.filter (fun x => x ∉ found) = [] :=
    List.filter_eq_nil_iff.mpr (fun x hx => by simpa using h x hx)
  rw [foldl_appendNew, hnone, List.eraseDups_nil, List.append_nil]

theorem eraseDups_eq_foldl {α : Type u} [DecidableEq α] (xs : List α) :
    xs.eraseDups = xs.foldl appendNew [] := by
  rw [foldl_appendNew, List.nil_append, List.filter_eq_self.mpr (by simp)]

/-- Where what `g` gives is appended, a repetition of its argument changes nothing. -/
theorem foldl_appendNew_flatMap {α : Type u} {β : Type v} [DecidableEq α] [DecidableEq β]
    (g : α → List β) (found : List β) (xs : List α) :
    (xs.eraseDups.flatMap g).foldl appendNew found = (xs.flatMap g).foldl appendNew found := by
  -- `acc` holds the elements that were not left out so far.
  have hacc : ∀ (xs acc : List α), ((xs.foldl appendNew acc).flatMap g).foldl appendNew found =
      (xs.flatMap g).foldl appendNew ((acc.flatMap g).foldl appendNew found) := by
    intro xs
    induction xs with
    | nil => exact fun acc => rfl
    | cons x xs ih =>
      intro acc
      rw [List.foldl_cons, ih, List.flatMap_cons, List.foldl_append]
      congr 1
      rw [appendNew]
      split
      · next hx =>
        have hsub : ∀ y ∈ g x, y ∈ (acc.flatMap g).foldl appendNew found :=
          fun y hy => mem_foldl_appendNew.mpr (Or.inr (List.mem_flatMap.mpr ⟨x, hx, hy⟩))
        exact (foldl_appendNew_of_subset hsub).symm
      · rw [List.flatMap_append, List.foldl_append, List.flatMap_singleton]
  rw [eraseDups_eq_foldl, hacc, List.flatMap_nil, List.foldl_nil]

theorem foldl_appendNew_eraseDups {α : Type u} [DecidableEq α] (found xs : List α) :
    xs.eraseDups.foldl appendNew found = xs.foldl appendNew found := by
  simpa only [List.flatMap_singleton'] using foldl_appendNew_flatMap (fun x => [x]) found xs

/-- Where what `g` gives is joined, repetitions within it change nothing. -/
theorem eraseDups_flatMap_eraseDups {α : Type u} {β : Type v} [DecidableEq β] (g : α → List β)
    (xs : List α) :
    (xs.flatMap (fun x => (g x).eraseDups)).eraseDups = (xs.flatMap g).eraseDups := by
  have hfound : ∀ (xs : List α) (found : List β),
      (xs.flatMap (fun x => (g x).eraseDups)).foldl appendNew found =
        (xs.flatMap g).foldl appendNew found := by
    intro xs
    induction xs with
    | nil => exact fun found => rfl
    | cons x xs ih =>
      intro found
      rw [List.flatMap_cons, List.flatMap_cons, List.foldl_append, List.foldl_append,
        foldl_appendNew_eraseDups, ih]
  rw [eraseDups_eq_foldl, hfound, eraseDups_eq_foldl]

/-- `ys` holds the elements of `xs` with the property, in the order in which they appear first in
`xs`; as no element appears first before itself, each is there once. -/
structure FirstAppearances {α : Type u} [DecidableEq α] (p : α → Prop) (xs ys : List α) : Prop where
  mem_iff : ∀ x, x ∈ ys ↔ x ∈ xs ∧ p x
  ordered : ys.Pairwise (fun x y => xs.idxOf x < xs.idxOf y)

namespace FirstAppearances

variable {α : Type u} [DecidableEq α] {p : α → Prop} {xs ys : List α}

theorem nodup (h : FirstAppearances p xs ys) : ys.Nodup := by
  refine h.ordered.imp ?_
  rintro x _ hlt rfl
  exact Nat.lt_irrefl _ hlt

/-- One more element appears for the first time if it is new. -/
theorem appendNew (h : FirstAppearances (fun _ => True) xs ys) (x : α) :
    FirstAppearances (fun _ => True) (xs ++ [x]) (appendNew ys x) where
  mem_iff y := by rw [mem_appendNew, h.mem_iff]; simp
  ordered := by
    have hmem : ∀ {y}, y ∈ ys → y ∈ xs := fun hy => ((h.mem_iff _).mp hy).1
    have hold : ys.Pairwise (fun y z => (xs ++ [x]).idxOf y < (xs ++ [x]).idxOf z) :=
      h.ordered.imp_of_mem (fun hy hz hlt => by
        rwa [List.idxOf_append, if_pos (hmem hy), List.idxOf_append, if_pos (hmem hz)])
    rw [Variability.appendNew]
    split
    · exact hold
    · next hx =>
      have hnew : x ∉ xs := fun hm => hx ((h.mem_iff x).mpr ⟨hm, trivial⟩)
      refine List.pairwise_append.mpr ⟨hold, List.pairwise_singleton .., fun y hy z hz => ?_⟩
      rw [List.mem_singleton.mp hz, List.idxOf_append, if_pos (hmem hy), List.idxOf_append,
        if_neg hnew]
      exact Nat.lt_of_lt_of_le (List.idxOf_lt_length_of_mem (hmem hy)) (Nat.le_add_left ..)

theorem foldl (h : FirstAppearances (fun _ => True) xs ys) (zs : List α) :
    FirstAppearances (fun _ => True) (xs ++ zs) (zs.foldl Variability.appendNew ys) := by
  induction zs generalizing xs ys with
  | nil => rwa [List.append_nil]
  | cons z zs ih =>
    rw [List.append_cons, List.foldl_cons]
    exact ih (h.appendNew z)

theorem filter (h : FirstAppearances (fun _ => True) xs ys) (q : α → Bool) :
    FirstAppearances (fun x => q x = true) xs (ys.filter q) where
  mem_iff x := by rw [List.mem_filter, h.mem_iff, and_true]
  ordered := h.ordered.filter q

end FirstAppearances

theorem firstAppearances_eraseDups {α : Type u} [DecidableEq α] (xs : List α) :
    FirstAppearances (fun _ => True) xs xs.eraseDups := by
  have hnil : FirstAppearances (fun _ => True) ([] : List α) [] := ⟨by simp, List.Pairwise.nil⟩
  rw [eraseDups_eq_foldl]
  exact hnil.foldl xs

theorem eraseDups_map {α : Type u} {β : Type v} [BEq α] [LawfulBEq α] [BEq β] [LawfulBEq β]
    {f : α → β} (hf : ∀ x y, f x = f y → x = y) :
    ∀ xs : List α, (xs.map f).eraseDups = xs.eraseDups.map f
  | [] => by simp
  | x :: xs => by
    have hrest : (xs.map f).filter (fun y => !y == f x) = (xs.filter (fun y => !y == x)).map f := by
      rw [List.filter_map]
      congr 1
      apply List.filter_congr
      intro y _
      have hiff : f y = f x ↔ y = x := ⟨hf y x, fun h => h ▸ rfl⟩
      rw [Bool.eq_iff_iff]
      simp [hiff]
    rw [List.map_cons, List.eraseDups_cons, hrest, eraseDups_map hf, List.eraseDups_cons,
      List.map_cons]
termination_by xs => xs.length
decreasing_by
  rw [List.length_cons]
  exact Nat.lt_succ_of_le (List.length_filter_le _ _)

namespace Table

variable {κ : Type u} {α : Type v} [DecidableEq κ]

theorem contains_iff {t : Table κ α} {k : κ} : t.contains k = true ↔ k ∈ t.keys := by
  simp [contains]

/-- Different keys: a key holds the value of its only entry. -/
theorem find?_eq_some_iff {t : Table κ α} {k : κ} {a : α} :
    t.find? k = some a ↔ (k, a) ∈ t.entries := by
  have hd : ∀ {es : List (κ × α)}, (es.map Prod.fst).Nodup →
      ((es.find? (fun e => e.1 = k)).map Prod.snd = some a ↔ (k, a) ∈ es) := by
    intro es hn
    induction es with
    | nil => simp
    | cons e es ih =>
      obtain ⟨hne, hn⟩ := List.nodup_cons.mp hn
      by_cases he : e.1 = k
      · subst he
        have : (e.1, a) ∉ es := fun h => hne (List.mem_map.mpr ⟨_, h, rfl⟩)
        simp [this, Prod.ext_iff, eq_comm]
      · have : (k, a) ≠ e := fun h => he (by rw [← h])
        simp [he, ih hn, this]
  exact hd t.nodup

theorem contains_iff_find? {t : Table κ α} {k : κ} :
    t.contains k = true ↔ ∃ a, t.find? k = some a := by
  simp only [contains_iff, find?_eq_some_iff, keys, List.mem_map, Prod.exists, exists_and_right,
    exists_eq_right]

theorem insertEntry_of_not_mem {k : κ} {a : α} {es : List (κ × α)} (h : k ∉ es.map Prod.fst) :
    insertEntry k a es = es ++ [(k, a)] := by
  induction es with
  | nil => rfl
  | cons e es ih =>
    rw [List.map_cons, List.mem_cons, not_or] at h
    rw [insertEntry, if_neg (fun he => h.1 he.symm), ih h.2, List.cons_append]

theorem entries_foldl_insert {t : Table κ α} {pairs : List (κ × α)}
    (h : ((t.entries ++ pairs).map Prod.fst).Nodup) :
    (pairs.foldl (fun t e => t.insert e.1 e.2) t).entries = t.entries ++ pairs := by
  induction pairs generalizing t with
  | nil => simp
  | cons e pairs ih =>
    have hk : e.1 ∉ t.entries.map Prod.fst := by
      intro hm
      rw [List.map_append, List.nodup_append] at h
      exact h.2.2 _ hm _ (List.mem_map.mpr ⟨e, List.mem_cons_self, rfl⟩) rfl
    have he : (t.insert e.1 e.2).entries = t.entries ++ [e] := insertEntry_of_not_mem hk
    rw [List.foldl_cons, ih (by rw [he, List.append_assoc]; exact h), he, List.append_assoc]
    rfl

/-- A table made of pairs with different keys has these pairs for its entries. -/
theorem entries_ofList {pairs : List (κ × α)} (h : (pairs.map Prod.fst).Nodup) :
    (ofList pairs).entries = pairs := by
  rw [ofList, entries_foldl_insert (by simpa [empty] using h)]
  rfl

/-! ## Pairs with the same key -/

theorem keys_foldl_insert (t : Table κ α) (pairs : List (κ × α)) :
    (pairs.foldl (fun t e => t.insert e.1 e.2) t).keys =
      (pairs.map Prod.fst).foldl appendNew t.keys := by
  induction pairs generalizing t with
  | nil => rfl
  | cons e pairs ih => rw [List.foldl_cons, ih, keys_insert, List.map_cons, List.foldl_cons]

/-- Of several pairs with one key the last one counts. -/
theorem find?_foldl_insert (t : Table κ α) (pairs : List (κ × α)) (k : κ) :
    (pairs.foldl (fun t e => t.insert e.1 e.2) t).find? k =
      ((pairs.filter (fun e => e.1 = k)).getLast?.map Prod.snd).or (t.find? k) := by
  induction pairs generalizing t with
  | nil => rfl
  | cons e pairs ih =>
    rw [List.foldl_cons, ih, find?_insert]
    by_cases he : e.1 = k
    · rw [List.filter_cons_of_pos (by simpa using he), if_pos he.symm, List.getLast?_cons]
      cases (pairs.filter (fun e => e.1 = k)).getLast? <;> rfl
    · rw [List.filter_cons_of_neg (by simpa using he), if_neg (Ne.symm he)]

/-- A table made of pairs has the keys in the order of their first pairs, each of them with the
value of its last pair. -/
theorem entries_ofList_eq_map {pairs : List (κ × α)} {value : κ → α}
    (h : ∀ k ∈ pairs.map Prod.fst,
      (pairs.filter (fun e => e.1 = k)).getLast?.map Prod.snd = some (value k)) :
    (ofList pairs).entries = (pairs.map Prod.fst).eraseDups.map (fun k => (k, value k)) := by
  have hkeys : (ofList pairs).keys = (pairs.map Prod.fst).eraseDups := by
    rw [ofList, keys_foldl_insert, foldl_appendNew, keys_empty, List.nil_append,
      List.filter_eq_self.mpr (fun k _ => decide_eq_true List.not_mem_nil)]
  have hentry : ∀ e ∈ (ofList pairs).entries, e = (e.1, value e.1) := by
    intro e he
    have hkey : e.1 ∈ pairs.map Prod.fst := by
      rw [← List.mem_eraseDups, ← hkeys]
      exact List.mem_map_of_mem he
    have hfind : (ofList pairs).find? e.1 = some e.2 := find?_eq_some_iff.mpr he
    rw [ofList, find?_foldl_insert, h e.1 hkey] at hfind
    exact Prod.ext rfl (Option.some.inj hfind).symm
  calc (ofList pairs).entries
      = (ofList pairs).entries.map (fun e => (e.1, value e.1)) :=
        (List.map_id _).symm.trans (List.map_congr_left hentry)
    _ = (ofList pairs).keys.map (fun k => (k, value k)) := by rw [keys, List.map_map]; rfl
    _ = (pairs.map Prod.fst).eraseDups.map (fun k => (k, value k)) := by rw [hkeys]

end Table

end Variability
