import Variability.Cnf
import Variability.Proofs.BoolExpr.NormalForm
import Variability.Proofs.BoolExpr.OfFormula
import Variability.Proofs.Table

/-!
The clauses of a formula: they are satisfied by the assignments under which the
formula is true (`clauses_satisfied_iff`), for any numbers of the variables
other than zero and any order of distribution.

A number is read as a signed literal: a negative one stands for the opposite of
the variable, also where it is the number that a name was given.
-/

namespace Variability

namespace Cnf

/-- The truth value of a signed variable number. -/
def literalValue (ν : Nat → Bool) (l : Int) : Bool :=
  if 0 < l then ν l.natAbs else !ν l.natAbs

/-- Whether every clause has a literal that is true. -/
def satisfies (ν : Nat → Bool) (cs : List (List Int)) : Bool :=
  cs.all (fun c => c.any (literalValue ν))

theorem satisfies_iff {ν : Nat → Bool} {cs : List (List Int)} :
    satisfies ν cs = true ↔ ∀ c ∈ cs, ∃ l ∈ c, literalValue ν l = true := by
  simp [satisfies]

theorem literalValue_neg (ν : Nat → Bool) {l : Int} (h : l ≠ 0) :
    literalValue ν (-l) = !literalValue ν l := by
  unfold literalValue
  rw [Int.natAbs_neg]
  by_cases hl : 0 < l
  · rw [if_neg (by omega), if_pos hl]
  · rw [if_pos (by omega), if_neg hl, Bool.not_not]

end Cnf

namespace Numbering

/-- The truth value of a name: that of its number, read as a signed literal. -/
def value (n : Numbering) (ν : Nat → Bool) (name : String) : Bool :=
  Cnf.literalValue ν ((n.find? name).getD 0)

/-- Whether every name of a formula has a number, and none of them is zero. -/
def Covers (n : Numbering) (f : Formula) : Prop :=
  ∀ name ∈ f.literals, ∃ i, n.find? name = some i ∧ i ≠ 0

end Numbering

namespace Cnf

open BoolExpr (IsClause IsConjunctive isLiteral)

section
variable {number : String → Int}

theorem literalOf?_of_isLiteral (number : String → Int) {e : BoolExpr} (h : isLiteral e) :
    ∃ x ∈ e.vars, literalOf? number e = some (number x) ∧ e = .var x ∨
      literalOf? number e = some (-number x) ∧ e = .neg (.var x) := by
  cases e with
  | var x => exact ⟨x, by simp [BoolExpr.vars], Or.inl ⟨rfl, rfl⟩⟩
  | neg e =>
    cases e with
    | var x => exact ⟨x, by simp [BoolExpr.vars], Or.inr ⟨rfl, rfl⟩⟩
    | _ => simp [isLiteral] at h
  | _ => simp [isLiteral] at h

/-- The number of a literal has the truth value of the literal. -/
theorem exists_literalOf? {e : BoolExpr} (h : isLiteral e) (hz : ∀ x ∈ e.vars, number x ≠ 0) :
    ∃ l, literalOf? number e = some l ∧
      ∀ ν, literalValue ν l = e.eval (fun x => literalValue ν (number x)) := by
  obtain ⟨x, hx, ⟨hl, rfl⟩ | ⟨hl, rfl⟩⟩ := literalOf?_of_isLiteral number h
  · exact ⟨number x, hl, fun ν => rfl⟩
  · exact ⟨-number x, hl, fun ν => literalValue_neg ν (hz x hx)⟩

theorem any_filterMap_literalOf? {es : List BoolExpr} (h : ∀ e ∈ es, isLiteral e)
    (hz : ∀ e ∈ es, ∀ x ∈ e.vars, number x ≠ 0) (ν : Nat → Bool) :
    (es.filterMap (literalOf? number)).any (literalValue ν) =
      es.any (BoolExpr.eval (fun x => literalValue ν (number x))) := by
  induction es with
  | nil => rfl
  | cons e es ih =>
    obtain ⟨l, hl, hv⟩ := exists_literalOf? (h e List.mem_cons_self) (hz e List.mem_cons_self)
    rw [List.filterMap_cons_some hl, List.any_cons, List.any_cons, hv,
      ih (fun e' he' => h e' (List.mem_cons_of_mem e he'))
        (fun e' he' => hz e' (List.mem_cons_of_mem e he'))]

theorem any_clauseOf {e : BoolExpr} (h : IsClause e) (hz : ∀ x ∈ e.vars, number x ≠ 0)
    (ν : Nat → Bool) : (clauseOf number e).any (literalValue ν) =
      e.eval (fun x => literalValue ν (number x)) := by
  rcases h with h | ⟨es, rfl, h⟩
  · obtain ⟨l, hl, hv⟩ := exists_literalOf? h hz
    have hc : clauseOf number e = [l] := by
      cases e <;> simp_all [isLiteral, clauseOf]
    rw [hc, List.any_cons, List.any_nil, Bool.or_false, hv]
  · rw [clauseOf, BoolExpr.eval_junction]
    exact any_filterMap_literalOf? h
      (fun e he x hx => hz x (BoolExpr.mem_vars_junction.mpr ⟨e, he, hx⟩)) ν

theorem clausesOf_of_isClause {e : BoolExpr} (h : IsClause e) :
    clausesOf number e = [clauseOf number e] := by
  rcases h with h | ⟨es, rfl, -⟩
  · cases e <;> simp_all [isLiteral, clausesOf]
  · rfl

/-- The clauses of an expression in conjunctive form say what the expression says. -/
theorem satisfies_clausesOf {e : BoolExpr} (h : IsConjunctive e)
    (hz : ∀ x ∈ e.vars, number x ≠ 0) (ν : Nat → Bool) :
    satisfies ν (clausesOf number e) = e.eval (fun x => literalValue ν (number x)) := by
  rcases h with ⟨b, rfl⟩ | h | ⟨es, rfl, h⟩
  · cases b <;> rfl
  · rw [clausesOf_of_isClause h, satisfies, List.all_cons, List.all_nil, Bool.and_true,
      any_clauseOf h hz]
  · have hc : ∀ e ∈ es, (clauseOf number e).any (literalValue ν) =
        e.eval (fun x => literalValue ν (number x)) :=
      fun e he => any_clauseOf (h e he)
        (fun x hx => hz x (BoolExpr.mem_vars_junction.mpr ⟨e, he, hx⟩)) ν
    rw [clausesOf, BoolExpr.eval_junction, satisfies, List.all_map]
    exact @Junctor.holds_congr _ .all _ _ _ hc

theorem mem_clauseOf {e : BoolExpr} (h : IsClause e) {l : Int} (hl : l ∈ clauseOf number e) :
    ∃ x ∈ e.vars, l = number x ∨ l = -number x := by
  have literal : ∀ {e : BoolExpr}, isLiteral e → literalOf? number e = some l →
      ∃ x ∈ e.vars, l = number x ∨ l = -number x := by
    intro e he hl
    obtain ⟨x, hx, ⟨h, -⟩ | ⟨h, -⟩⟩ := literalOf?_of_isLiteral number he
    · exact ⟨x, hx, Or.inl (Option.some.inj (hl.symm.trans h))⟩
    · exact ⟨x, hx, Or.inr (Option.some.inj (hl.symm.trans h))⟩
  rcases h with h | ⟨es, rfl, h⟩
  · refine literal h ?_
    cases e <;> simp_all [isLiteral, clauseOf]
  · obtain ⟨e, he, hl⟩ := List.mem_filterMap.mp hl
    obtain ⟨x, hx, hl⟩ := literal (h e he) hl
    exact ⟨x, BoolExpr.mem_vars_junction.mpr ⟨e, he, hx⟩, hl⟩

/-- The literals in the clauses are the variables of the expression, as they are or negated. -/
theorem mem_clausesOf {e : BoolExpr} (h : IsConjunctive e) {c : List Int}
    (hc : c ∈ clausesOf number e) {l : Int} (hl : l ∈ c) :
    ∃ x ∈ e.vars, l = number x ∨ l = -number x := by
  rcases h with ⟨b, rfl⟩ | h | ⟨es, rfl, h⟩
  · cases b <;> simp_all [clausesOf]
  · rw [clausesOf_of_isClause h, List.mem_singleton] at hc
    exact mem_clauseOf h (hc ▸ hl)
  · obtain ⟨e, he, rfl⟩ := List.mem_map.mp hc
    obtain ⟨x, hx, hl⟩ := mem_clauseOf (h e he) hl
    exact ⟨x, BoolExpr.mem_vars_junction.mpr ⟨e, he, hx⟩, hl⟩

end

/-! ## Numbered names -/

theorem unnumbered_eq_nil {f : Formula} {n : Numbering}
    (h : ∀ name ∈ f.names, n.contains name = true) : unnumbered f n = [] := by
  refine List.eq_nil_iff_forall_not_mem.mpr (fun name hm => ?_)
  obtain ⟨hl, hc⟩ := List.mem_filter.mp hm
  rw [h name (Formula.mem_literals.mp hl)] at hc
  exact Bool.noConfusion hc

theorem unnumbered_of_covers {f : Formula} {n : Numbering} (h : n.Covers f) :
    unnumbered f n = [] := by
  refine unnumbered_eq_nil (fun name hname => ?_)
  obtain ⟨i, hi, -⟩ := h name (Formula.mem_literals.mpr hname)
  exact Table.contains_iff_find?.mpr ⟨i, hi⟩

end Cnf

namespace Formula

variable {f : Formula} {n : Numbering}

/-- The clauses of a formula are those of an expression that stands for it. -/
theorem exists_clauses (hf : f.isPlain) (hn : n.Covers f) (strategy : BoolExpr.Strategy) :
    ∃ e, BoolExpr.Denotes f e ∧ f.clauses n strategy =
      .ok (Cnf.clausesOf (fun x => (n.find? x).getD 0) (e.conjunctive strategy)) := by
  obtain ⟨e, he, hd⟩ := BoolExpr.ofFormula?_denotes hf
  refine ⟨e, hd, ?_⟩
  rw [clauses, Cnf.unnumbered_of_covers hn, he]

theorem number_ne_zero (hn : n.Covers f) {name : String} (h : name ∈ f.names) :
    (n.find? name).getD 0 ≠ 0 := by
  obtain ⟨i, hi, hz⟩ := hn name (mem_literals.mpr h)
  rw [hi]
  exact hz

/-- A formula over numbered names has clauses. They are satisfied by an assignment iff the formula
is true when every name takes the truth value of its number, and their literals are the numbers of
the names of the formula, as they are or negated. -/
theorem clauses_spec (hf : f.isPlain) (hn : n.Covers f) (strategy : BoolExpr.Strategy) :
    ∃ cs, f.clauses n strategy = .ok cs ∧
      (∀ ν, Cnf.satisfies ν cs = f.eval (n.value ν)) ∧
      ∀ c ∈ cs, ∀ l ∈ c, ∃ name ∈ f.literals, ∃ i, n.find? name = some i ∧ (l = i ∨ l = -i) := by
  obtain ⟨e, hd, hc⟩ := exists_clauses hf hn strategy
  have vars : ∀ x ∈ (e.conjunctive strategy).vars, x ∈ f.names :=
    fun x hx => hd.vars_subset x (BoolExpr.vars_conjunctive hx)
  refine ⟨_, hc, fun ν => ?_, fun c hc l hl => ?_⟩
  · rw [Cnf.satisfies_clausesOf (BoolExpr.isConjunctive_conjunctive strategy e)
      (fun x hx => number_ne_zero hn (vars x hx)), BoolExpr.eval_conjunctive, hd.eval_eq]
    rfl
  · obtain ⟨x, hx, hl⟩ :=
      Cnf.mem_clausesOf (BoolExpr.isConjunctive_conjunctive strategy e) hc hl
    obtain ⟨i, hi, -⟩ := hn x (mem_literals.mpr (vars x hx))
    exact ⟨x, mem_literals.mpr (vars x hx), i, hi, by simpa [hi] using hl⟩

/-- The clauses of a formula are satisfied by exactly the assignments under which the formula is
true when every name takes the truth value of its number read as a signed literal. -/
theorem clauses_satisfied_iff (hf : f.isPlain) (hn : n.Covers f) (strategy : BoolExpr.Strategy) :
    ∃ cs, f.clauses n strategy = .ok cs ∧
      ∀ ν : Nat → Bool, (∀ c ∈ cs, ∃ l ∈ c, Cnf.literalValue ν l = true) ↔
        f.eval (n.value ν) = true := by
  obtain ⟨cs, hcs, heval, -⟩ := clauses_spec hf hn strategy
  refine ⟨cs, hcs, fun ν => ?_⟩
  rw [← heval, Cnf.satisfies_iff]

/-- Two names share a number, and one of the numbers is negative. -/
theorem clauses_satisfied_iff_shared :
    (disj [conj [.literal "A", .literal "B"], neg (.literal "C")]).isPlain ∧
    Numbering.Covers (Table.ofList [("A", 1), ("B", -2), ("C", 1)])
      (disj [conj [.literal "A", .literal "B"], neg (.literal "C")]) ∧
    ∃ cs, (disj [conj [.literal "A", .literal "B"], neg (.literal "C")]).clauses
        (Table.ofList [("A", 1), ("B", -2), ("C", 1)]) .first = .ok cs ∧
      ∀ ν : Nat → Bool, (∀ c ∈ cs, ∃ l ∈ c, Cnf.literalValue ν l = true) ↔
        (disj [conj [.literal "A", .literal "B"], neg (.literal "C")]).eval
          (Numbering.value (Table.ofList [("A", 1), ("B", -2), ("C", 1)]) ν) = true := by
  have plain : (disj [conj [.literal "A", .literal "B"], neg (.literal "C")]).isPlain := by decide
  have covers : Numbering.Covers (Table.ofList [("A", 1), ("B", -2), ("C", 1)])
      (disj [conj [.literal "A", .literal "B"], neg (.literal "C")]) := by
    intro name h
    rw [mem_literals] at h
    simp only [names, namesAll_eq, List.flatMap_cons, List.flatMap_nil, List.append_nil,
      List.cons_append, List.nil_append, List.mem_cons, List.not_mem_nil, or_false] at h
    rcases h with rfl | rfl | rfl
    · exact ⟨1, by decide, by decide⟩
    · exact ⟨-2, by decide, by decide⟩
    · exact ⟨1, by decide, by decide⟩
  exact ⟨plain, covers, clauses_satisfied_iff plain covers .first⟩

/-- Which conjunction is distributed first shows in the clauses where names are repeated: by one
strategy there are four of them, by another one five. -/
example : [BoolExpr.Strategy.first, fun _ => 1].map (fun strategy =>
    (disj [conj [.literal "P", .literal "Q"],
      conj [.literal "B", disj [.literal "A", conj [.literal "P", .literal "Q"]]]]).clauses
        (Table.ofList [("P", 1), ("Q", 2), ("B", 3), ("A", 4)]) strategy) =
    [.ok [[4, 1], [4, 2], [3, 1], [3, 2]],
      .ok [[4, 1], [4, 1, 2], [4, 2], [3, 1], [3, 2]]] := by cbv

end Formula

end Variability
