import Mathlib.Logic.Relation
import Variability.Proofs.Formula.Semantics

/-!
The names of a formula are its support.

A name occurs in a formula if steps from formulas to their operands lead to a
literal with that name (`Occurs`). The search for names, in which operands wait
on one list, finds just these names, each once and in the order in which a
reader comes across them, and the truth value depends on no other name
(`literals_support`).
-/

namespace Variability.Formula

/-- A literal with the name is the formula itself, or is reached by going to operands. -/
def Occurs (name : String) (f : Formula) : Prop :=
  Relation.ReflTransGen (fun f g => g ∈ f.children) f (literal name)

variable {f : Formula} {name : String}

theorem occurs_literal {other : String} : Occurs name (literal other) ↔ name = other := by
  rw [Occurs, Relation.ReflTransGen.cases_head_iff]
  constructor
  · rintro (he | ⟨g, hg, -⟩)
    · exact (literal.inj he).symm
    · exact absurd hg List.not_mem_nil
  · rintro rfl
    exact Or.inl rfl

theorem occurs_of_ne_literal (h : ∀ other, f ≠ literal other) :
    Occurs name f ↔ ∃ g ∈ f.children, Occurs name g := by
  rw [Occurs, Relation.ReflTransGen.cases_head_iff, or_iff_right (h name)]
  exact Iff.rfl

theorem names_of_ne_literal (h : ∀ other, f ≠ literal other) :
    f.names = f.children.flatMap names := by
  cases f with
  | literal other => exact absurd rfl (h other)
  | top | bottom | hole => rfl
  | neg f => exact (List.flatMap_singleton ..).symm
  | conj fs | disj fs => exact namesAll_eq fs
  | implies f g => rw [names, children, List.flatMap_cons, List.flatMap_singleton]

/-- The names of a connective are those that occur, if those of its operands are. -/
theorem mem_names_iff_of_children (hne : ∀ other, f ≠ literal other)
    (h : ∀ g ∈ f.children, (name ∈ g.names ↔ Occurs name g)) :
    name ∈ f.names ↔ Occurs name f := by
  rw [names_of_ne_literal hne, occurs_of_ne_literal hne, List.mem_flatMap]
  exact exists_congr fun g => and_congr_right fun hg => h g hg

theorem mem_names_iff (f : Formula) : name ∈ f.names ↔ Occurs name f := by
  induction f with
  | literal other => rw [names, List.mem_singleton, occurs_literal]
  | top | bottom | hole => exact mem_names_iff_of_children (by simp) (by simp [children])
  | neg f ih => exact mem_names_iff_of_children (by simp) (List.forall_mem_singleton.mpr ih)
  | conj fs ih | disj fs ih => exact mem_names_iff_of_children (by simp) ih
  | implies f g ihf ihg =>
    exact mem_names_iff_of_children (by simp)
      (List.forall_mem_cons.mpr ⟨ihf, List.forall_mem_singleton.mpr ihg⟩)

/-- What the search finds in a connective is what it finds in the operands, from left to right,
without the names that were found before. -/
theorem literals_of_ne_literal (h : ∀ other, f ≠ literal other) :
    f.literals = (f.children.flatMap literals).eraseDups := by
  have hwithin : literals = fun g => (names g).eraseDups := funext literals_eq_eraseDups
  rw [literals_eq_eraseDups, names_of_ne_literal h, hwithin, eraseDups_flatMap_eraseDups]

/-- The search finds the names at the leaves from left to right, later repetitions left out. So each
name is found once, and it is found iff it occurs; for a connective, whatever the number of its
operands is, these are the names of the operands one after the other, again without repetitions; and
under two assignments that agree on them the formula has the same truth value. -/
theorem literals_support (f : Formula) :
    f.literals = f.names.eraseDups ∧ FirstAppearances (fun _ => True) f.names f.literals ∧
      f.literals.Nodup ∧ (∀ name, name ∈ f.literals ↔ Occurs name f) ∧
      ((∀ name, f ≠ literal name) → f.literals = (f.children.flatMap literals).eraseDups) ∧
      ∀ v w : String → Bool, (∀ name ∈ f.literals, v name = w name) → f.eval v = f.eval w := by
  have hfirst := firstAppearances_literals f
  refine ⟨literals_eq_eraseDups f, hfirst, hfirst.nodup, fun name => ?_, literals_of_ne_literal,
    fun v w h => ?_⟩
  · rw [mem_literals, mem_names_iff]
  · exact eval_congr f (fun name hname => h name (mem_literals.mpr hname))

/-- Two assignments that differ in a name that does not occur. -/
theorem literals_support_unused :
    let f := conj [.literal "B", disj [], implies (.literal "A") (.literal "B")]
    f.literals = ["B", "A"] ∧ f.literals = (f.children.flatMap literals).eraseDups ∧
      f.eval (fun name => name = "B") = f.eval (fun name => name = "B" ∨ name = "C") := by
  intro f
  obtain ⟨-, -, -, -, hchildren, heval⟩ := literals_support f
  have hliterals : f.literals = ["B", "A"] := by decide +kernel
  refine ⟨hliterals, hchildren (by simp [f]), heval _ _ (fun name hname => ?_)⟩
  rw [hliterals] at hname
  have hne : name ≠ "C" := by
    rintro rfl
    exact absurd hname (by decide)
  simp [hne]

end Variability.Formula
