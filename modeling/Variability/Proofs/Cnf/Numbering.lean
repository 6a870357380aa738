import Variability.Proofs.Cnf.Clauses

/-!
Numbering different names from 1 on, in their order: which number a name has,
what is said about the variables, and how many there are. A formula over the
names has clauses over just these variables (`Formula.exists_clauses_ofNames`).
-/

namespace Variability

namespace Numbering

variable {names : List String}

theorem entries_ofNames (h : names.Nodup) :
    (ofNames names).entries = names.zipIdx.map (fun p => (p.1, (p.2 : Int) + 1)) := by
  rw [ofNames, Table.entries_ofList]
  rw [List.map_map]
  have hfst : (Prod.fst ∘ fun p : String × Nat => (p.1, (p.2 : Int) + 1)) = Prod.fst := rfl
  rw [hfst, List.zipIdx_map_fst]
  exact h

/-- The name at a place has the number of the place, counted from 1. -/
theorem find?_ofNames (h : names.Nodup) {name : String} {i : Int} :
    (ofNames names).find? name = some i ↔ ∃ k : Nat, names[k]? = some name ∧ i = (k : Int) + 1 := by
  rw [Table.find?_eq_some_iff, entries_ofNames h, List.mem_map]
  constructor
  · rintro ⟨⟨x, k⟩, hp, he⟩
    obtain ⟨rfl, rfl⟩ := Prod.ext_iff.mp he
    exact ⟨k, List.mem_zipIdx_iff_getElem?.mp hp, rfl⟩
  · rintro ⟨k, hk, rfl⟩
    exact ⟨(name, k), List.mem_zipIdx_iff_getElem?.mpr hk, rfl⟩

theorem contains_ofNames (h : names.Nodup) {name : String} :
    (ofNames names).contains name = true ↔ name ∈ names := by
  rw [Table.contains_iff_find?]
  constructor
  · rintro ⟨i, hi⟩
    obtain ⟨k, hk, -⟩ := (find?_ofNames h).mp hi
    exact List.mem_of_getElem? hk
  · intro hn
    obtain ⟨k, hk, rfl⟩ := List.mem_iff_getElem.mp hn
    exact ⟨(k : Int) + 1, (find?_ofNames h).mpr ⟨k, List.getElem?_eq_getElem hk, rfl⟩⟩

theorem covers_ofNames (h : names.Nodup) {f : Formula} (hf : ∀ name ∈ f.literals, name ∈ names) :
    (ofNames names).Covers f := by
  intro name hn
  obtain ⟨k, hk, rfl⟩ := List.mem_iff_getElem.mp (hf name hn)
  refine ⟨(k : Int) + 1, (find?_ofNames h).mpr ⟨k, List.getElem?_eq_getElem hk, rfl⟩, ?_⟩
  omega

/-- A name's number and its opposite are between the number of names and its opposite. -/
theorem natAbs_le_of_ofNames (h : names.Nodup) {name : String} {i l : Int}
    (hi : (ofNames names).find? name = some i) (hl : l = i ∨ l = -i) :
    l ≠ 0 ∧ l.natAbs ≤ names.length := by
  obtain ⟨k, hk, rfl⟩ := (find?_ofNames h).mp hi
  have hlt : k < names.length := (List.getElem?_eq_some_iff.mp hk).1
  rcases hl with rfl | rfl <;> omega

/-- The truth value of a name is that of its variable. -/
theorem value_ofNames (h : names.Nodup) (ν : Nat → Bool) {k : Nat} (hk : k < names.length) :
    (ofNames names).value ν names[k] = ν (k + 1) := by
  have hfind : (ofNames names).find? names[k] = some ((k : Int) + 1) :=
    (find?_ofNames h).mpr ⟨k, List.getElem?_eq_getElem hk, rfl⟩
  rw [value, hfind, Option.getD_some, Cnf.literalValue, if_pos (by omega)]
  congr 1

end Numbering

namespace Cnf

theorem foldl_max_le_iff {α : Type} {g : α → Nat} {xs : List α} {b k : Nat} :
    xs.foldl (fun n x => max n (g x)) b ≤ k ↔ b ≤ k ∧ ∀ x ∈ xs, g x ≤ k := by
  induction xs generalizing b with
  | nil => simp
  | cons x xs ih =>
    rw [List.foldl_cons, ih, Nat.max_le, and_assoc]
    simp only [List.mem_cons, forall_eq_or_imp]

theorem le_foldl_max {α : Type} {g : α → Nat} {xs : List α} {b : Nat} {x : α} (hx : x ∈ xs) :
    g x ≤ xs.foldl (fun n x => max n (g x)) b :=
  (foldl_max_le_iff.mp (Nat.le_refl _)).2 x hx

variable {names : List String} {cs : List (List Int)}

theorem values_ofNames (h : names.Nodup) :
    (Numbering.ofNames names).values =
      (List.range names.length).map (fun k : Nat => (k : Int) + 1) := by
  rw [Table.values, Numbering.entries_ofNames h, List.map_map]
  have hsnd : (Prod.snd ∘ fun p : String × Nat => (p.1, (p.2 : Int) + 1)) =
      (fun k : Nat => (k : Int) + 1) ∘ Prod.snd := rfl
  rw [hsnd, ← List.map_map, List.zipIdx_map_snd, List.range_eq_range']

/-- There are as many variables as names. -/
theorem variableCount_ofNames (h : names.Nodup)
    (hl : ∀ c ∈ cs, ∀ l ∈ c, l.natAbs ≤ names.length) :
    (Cnf.mk cs (Numbering.ofNames names)).variableCount = names.length := by
  have hused : cs.flatten.foldl (fun n l => max n l.natAbs) 0 ≤ names.length := by
    refine foldl_max_le_iff.mpr ⟨Nat.zero_le _, fun l hm => ?_⟩
    obtain ⟨c, hc, hlc⟩ := List.mem_flatten.mp hm
    exact hl c hc l hlc
  rw [variableCount, values_ofNames h]
  refine Nat.le_antisymm ?_ ?_
  · refine foldl_max_le_iff.mpr ⟨hused, fun i hi => ?_⟩
    obtain ⟨k, hk, rfl⟩ := List.mem_map.mp hi
    have := List.mem_range.mp hk
    omega
  · -- The last name has the greatest number.
    rcases Nat.eq_zero_or_pos names.length with hz | hpos
    · rw [hz]
      exact Nat.zero_le _
    · have hlast : ((names.length - 1 : Nat) : Int) + 1 ∈
          (List.range names.length).map (fun k : Nat => (k : Int) + 1) :=
        List.mem_map.mpr ⟨names.length - 1, List.mem_range.mpr (by omega), rfl⟩
      calc names.length = (((names.length - 1 : Nat) : Int) + 1).toNat := by omega
        _ ≤ _ := le_foldl_max hlast

/-- One comment for each name, with its number. -/
theorem comments_ofNames (h : names.Nodup) :
    (Cnf.mk cs (Numbering.ofNames names)).comments =
      names.zipIdx.map (fun p => "c " ++ toString (p.2 + 1) ++ " " ++ p.1) := by
  rw [comments, Numbering.entries_ofNames h, List.map_map]
  rfl

end Cnf

/-- A formula over different names has clauses over their numbers, and the variables are the
names. -/
theorem Formula.exists_clauses_ofNames {names : List String} (h : names.Nodup) {f : Formula}
    (hplain : f.isPlain) (hf : ∀ name ∈ f.names, name ∈ names) (strategy : BoolExpr.Strategy) :
    ∃ cs, f.clauses (Numbering.ofNames names) strategy = .ok cs ∧
      (∀ ν, Cnf.satisfies ν cs = f.eval ((Numbering.ofNames names).value ν)) ∧
      (∀ clause ∈ cs, ∀ l ∈ clause, l ≠ 0 ∧ l.natAbs ≤ names.length) ∧
      (Cnf.mk cs (Numbering.ofNames names)).variableCount = names.length := by
  have hcovers : (Numbering.ofNames names).Covers f :=
    Numbering.covers_ofNames h (fun name hn => hf name (mem_literals.mp hn))
  obtain ⟨cs, hcs, heval, hliterals⟩ := clauses_spec hplain hcovers strategy
  have hrange : ∀ clause ∈ cs, ∀ l ∈ clause, l ≠ 0 ∧ l.natAbs ≤ names.length := by
    intro clause hclause l hl
    obtain ⟨name, -, i, hi, hli⟩ := hliterals clause hclause l hl
    exact Numbering.natAbs_le_of_ofNames h hi hli
  exact ⟨cs, hcs, heval, hrange,
    Cnf.variableCount_ofNames h (fun clause hc l hl => (hrange clause hc l hl).2)⟩

end Variability
