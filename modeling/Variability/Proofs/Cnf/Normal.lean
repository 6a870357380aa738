import Variability.Proofs.BoolExpr.Simplified
import Variability.Proofs.Cnf.Clauses

/-!
The normal form of clauses.

A clause and the list of all clauses are made of sets of operands, so nothing is
repeated in them where different variables have different numbers, whatever the
signs (`isNormal_clausesOf`). An empty clause stands alone, as a simplified
junction has operands.

What is proved (`Formula.clauses_normal`): this is how the clauses of every formula
are. In particular a formula without names has no clauses or just the empty one.
-/

namespace Variability

namespace Cnf

/-- No clause repeats a literal, no two clauses have the same literals, and an empty clause stands
alone. -/
structure IsNormal (cs : List (List Int)) : Prop where
  nodup : ∀ c ∈ cs, c.Nodup
  distinct : cs.Pairwise (fun c c' => ¬∀ l, l ∈ c ↔ l ∈ c')
  empty : [] ∈ cs → cs = [[]]

/-- Without literals there is no clause or just the empty one. -/
theorem IsNormal.eq_of_no_literals {cs : List (List Int)} (h : IsNormal cs)
    (hnone : ∀ c ∈ cs, ∀ l, l ∉ c) : cs = [] ∨ cs = [[]] := by
  cases cs with
  | nil => exact Or.inl rfl
  | cons c rest =>
    obtain rfl := List.eq_nil_iff_forall_not_mem.mpr (hnone c List.mem_cons_self)
    exact Or.inr (h.empty List.mem_cons_self)

open BoolExpr (IsClause IsConjunctive IsSimplified Before isLiteral contributed ofOperands)

/-! ## Literals -/

/-- The numbers of these names are not zero, and different for different names even without their
signs. -/
structure Separated (number : String → Int) (names : List String) : Prop where
  ne_zero : ∀ x ∈ names, number x ≠ 0
  injective : ∀ x ∈ names, ∀ y ∈ names, (number x).natAbs = (number y).natAbs → x = y

section
variable {number : String → Int} {names : List String}

/-- The signed number of a literal. -/
def signed (number : String → Int) (e : BoolExpr) : Int := (literalOf? number e).getD 0

theorem literalOf?_eq_signed {e : BoolExpr} (h : isLiteral e) :
    literalOf? number e = some (signed number e) := by
  obtain ⟨x, -, ⟨hl, -⟩ | ⟨hl, -⟩⟩ := literalOf?_of_isLiteral number h <;> rw [signed, hl] <;> rfl

/-- Different literals have different signed numbers. -/
theorem Separated.signed_injective (h : Separated number names) {e e' : BoolExpr}
    (he : isLiteral e) (he' : isLiteral e') (hnames : ∀ x ∈ e.vars, x ∈ names)
    (hnames' : ∀ x ∈ e'.vars, x ∈ names) (hsame : signed number e = signed number e') :
    e = e' := by
  obtain ⟨x, hx, hl⟩ := literalOf?_of_isLiteral number he
  obtain ⟨y, hy, hl'⟩ := literalOf?_of_isLiteral number he'
  -- The variables are the same in any case, and then so are the signs.
  have hvar : (number x).natAbs = (number y).natAbs → x = y :=
    h.injective x (hnames x hx) y (hnames' y hy)
  have hzero := h.ne_zero x (hnames x hx)
  rw [signed, signed] at hsame
  rcases hl with ⟨hl, rfl⟩ | ⟨hl, rfl⟩ <;> rcases hl' with ⟨hl', rfl⟩ | ⟨hl', rfl⟩ <;>
    rw [hl, hl', Option.getD_some, Option.getD_some] at hsame
  · rw [hvar (by omega)]
  · obtain rfl := hvar (by omega)
    omega
  · obtain rfl := hvar (by omega)
    omega
  · rw [hvar (by omega)]

/-! ## Clauses -/

/-- The expression is the disjunction of these literals, which its clause consists of. -/
structure HasLiterals (number : String → Int) (e : BoolExpr) (ls : List BoolExpr) : Prop where
  literal : ∀ l ∈ ls, isLiteral l
  vars : ∀ l ∈ ls, ∀ x ∈ l.vars, x ∈ e.vars
  ascending : ls.Pairwise Before
  ne_nil : ls ≠ []
  eq : e = ofOperands .any ls
  clause : clauseOf number e = ls.map (signed number)

theorem exists_hasLiterals (number : String → Int) {e : BoolExpr} (h : IsSimplified e)
    (hc : IsClause e) : ∃ ls, HasLiterals number e ls := by
  rcases hc with hliteral | ⟨ls, rfl, hliterals⟩
  · refine ⟨[e], List.forall_mem_singleton.mpr hliteral, List.forall_mem_singleton.mpr
      (fun x hx => hx), List.pairwise_singleton _ e, List.cons_ne_nil e [], rfl, ?_⟩
    have hclause : clauseOf number e = (literalOf? number e).toList := by
      cases e with
      | var x | neg e => rfl
      | _ => cases hliteral
    rw [hclause, literalOf?_eq_signed hliteral]
    rfl
  · cases h with
    | junction _ _ ascending several =>
      refine ⟨ls, hliterals, fun l hl x hx => BoolExpr.mem_vars_junction.mpr ⟨l, hl, hx⟩,
        ascending, ?_, ?_, ?_⟩
      · rintro rfl
        cases several
      · match ls, several with
        | _ :: _ :: _, _ => rfl
      · rw [clauseOf, ← List.filterMap_eq_map]
        exact List.filterMap_congr (fun l hl => literalOf?_eq_signed (hliterals l hl))

variable {e e' : BoolExpr} {ls ls' : List BoolExpr}

theorem HasLiterals.nodup (hn : Separated number names) (h : HasLiterals number e ls)
    (hnames : ∀ x ∈ e.vars, x ∈ names) : (clauseOf number e).Nodup := by
  have hls : ls.Nodup := h.ascending.nodup
  rw [h.clause]
  refine hls.map_on (fun l hl l' hl' hsame => ?_)
  exact hn.signed_injective (h.literal l hl) (h.literal l' hl')
    (fun x hx => hnames x (h.vars l hl x hx)) (fun x hx => hnames x (h.vars l' hl' x hx)) hsame

theorem HasLiterals.clause_ne_nil (h : HasLiterals number e ls) : clauseOf number e ≠ [] := by
  rw [h.clause, Ne, List.map_eq_nil_iff]
  exact h.ne_nil

/-- The literals of a clause are among those of a clause with the same numbers. -/
theorem HasLiterals.subset (hn : Separated number names) (h : HasLiterals number e ls)
    (h' : HasLiterals number e' ls') (hnames : ∀ x ∈ e.vars, x ∈ names)
    (hnames' : ∀ x ∈ e'.vars, x ∈ names) (hsub : ∀ i ∈ clauseOf number e, i ∈ clauseOf number e') :
    ∀ l ∈ ls, l ∈ ls' := by
  intro l hl
  rw [h.clause, h'.clause] at hsub
  obtain ⟨l', hl', hsame⟩ := List.mem_map.mp (hsub _ (List.mem_map_of_mem hl))
  have heq := hn.signed_injective (h'.literal l' hl') (h.literal l hl)
    (fun x hx => hnames' x (h'.vars l' hl' x hx)) (fun x hx => hnames x (h.vars l hl x hx)) hsame
  exact heq ▸ hl'

/-- Different expressions have clauses with different literals. -/
theorem HasLiterals.unique (hn : Separated number names) (h : HasLiterals number e ls)
    (h' : HasLiterals number e' ls') (hnames : ∀ x ∈ e.vars, x ∈ names)
    (hnames' : ∀ x ∈ e'.vars, x ∈ names)
    (hsame : ∀ i, i ∈ clauseOf number e ↔ i ∈ clauseOf number e') : e = e' := by
  have hmem : ∀ l, l ∈ ls ↔ l ∈ ls' := fun l =>
    ⟨h.subset hn h' hnames hnames' (fun i => (hsame i).mp) l,
      h'.subset hn h hnames' hnames (fun i => (hsame i).mpr) l⟩
  rw [h.eq, h'.eq, h.ascending.eq_of_mem_iff h'.ascending hmem]

/-! ## All clauses -/

/-- The clauses of a simplified expression in conjunctive form are normal. -/
theorem isNormal_clausesOf (hn : Separated number names) (h : IsSimplified e)
    (hc : IsConjunctive e) (hnames : ∀ x ∈ e.vars, x ∈ names) :
    IsNormal (clausesOf number e) := by
  rcases hc with ⟨b, rfl⟩ | hc | ⟨es, rfl, hclauses⟩
  · cases b with
    | true => exact ⟨(fun c hc => nomatch hc), List.Pairwise.nil, (fun hc => nomatch hc)⟩
    | false =>
      exact ⟨List.forall_mem_singleton.mpr List.nodup_nil, List.pairwise_singleton _ _,
        fun _ => rfl⟩
  · obtain ⟨ls, hls⟩ := exists_hasLiterals number h hc
    rw [clausesOf_of_isClause hc]
    refine ⟨List.forall_mem_singleton.mpr (hls.nodup hn hnames), List.pairwise_singleton _ _,
      fun hempty => ?_⟩
    exact absurd (List.mem_singleton.mp hempty).symm hls.clause_ne_nil
  · cases h with
    | junction simplified _ ascending _ =>
      have hliterals : ∀ e ∈ es, ∃ ls, HasLiterals number e ls :=
        fun e he => exists_hasLiterals number (simplified e he) (hclauses e he)
      have hvars : ∀ e ∈ es, ∀ x ∈ e.vars, x ∈ names :=
        fun e he x hx => hnames x (BoolExpr.mem_vars_junction.mpr ⟨e, he, hx⟩)
      rw [clausesOf]
      refine { nodup := ?nodup, distinct := ?distinct, empty := ?empty }
      case nodup =>
        intro c hc
        obtain ⟨e, he, rfl⟩ := List.mem_map.mp hc
        obtain ⟨ls, hls⟩ := hliterals e he
        exact hls.nodup hn (hvars e he)
      case distinct =>
        rw [List.pairwise_map]
        refine ascending.imp_of_mem (fun {e e'} he he' hbefore hsame => ?_)
        obtain ⟨ls, hls⟩ := hliterals e he
        obtain ⟨ls', hls'⟩ := hliterals e' he'
        obtain rfl := hls.unique hn hls' (hvars e he) (hvars e' he') hsame
        exact Std.Irrefl.irrefl e hbefore
      case empty =>
        intro hempty
        obtain ⟨e, he, hnil⟩ := List.mem_map.mp hempty
        obtain ⟨ls, hls⟩ := hliterals e he
        exact absurd hnil hls.clause_ne_nil

end

end Cnf

/-- The names of a formula have numbers that are different even without their signs. -/
def Numbering.Separates (n : Numbering) (f : Formula) : Prop :=
  ∀ x ∈ f.literals, ∀ y ∈ f.literals, ∀ i j, n.find? x = some i → n.find? y = some j →
    i.natAbs = j.natAbs → x = y

namespace Formula

variable {f : Formula} {n : Numbering}

theorem separated (hn : n.Covers f) (hs : n.Separates f) :
    Cnf.Separated (fun x => (n.find? x).getD 0) f.names where
  ne_zero := fun x hx => number_ne_zero hn hx
  injective := by
    intro x hx y hy hsame
    obtain ⟨i, hi, -⟩ := hn x (mem_literals.mpr hx)
    obtain ⟨j, hj, -⟩ := hn y (mem_literals.mpr hy)
    rw [hi, hj] at hsame
    exact hs x (mem_literals.mpr hx) y (mem_literals.mpr hy) i j hi hj hsame

/-- A formula over numbered names has clauses iff no place holder occurs in it. -/
theorem exists_clauses_iff (hn : n.Covers f) (strategy : BoolExpr.Strategy) :
    (∃ cs, f.clauses n strategy = .ok cs) ↔ f.isPlain := by
  constructor
  · rintro ⟨cs, hcs⟩
    rw [clauses, Cnf.unnumbered_of_covers hn] at hcs
    rw [← BoolExpr.exists_direct?_iff, ← BoolExpr.ofFormula?_eq]
    cases he : BoolExpr.ofFormula? f with
    | none =>
      rw [he] at hcs
      cases hcs
    | some e => exact ⟨e, rfl⟩
  · intro hf
    obtain ⟨e, -, hcs⟩ := exists_clauses hf hn strategy
    exact ⟨_, hcs⟩

theorem isNormal_clauses (hn : n.Covers f) (hs : n.Separates f) {strategy : BoolExpr.Strategy}
    {cs : List (List Int)} (hcs : f.clauses n strategy = .ok cs) : Cnf.IsNormal cs := by
  have hf := (exists_clauses_iff hn strategy).mp ⟨cs, hcs⟩
  obtain ⟨e, hdenotes, hclauses⟩ := exists_clauses hf hn strategy
  obtain rfl := Except.ok.inj (hcs.symm.trans hclauses)
  exact Cnf.isNormal_clausesOf (separated hn hs) (BoolExpr.isSimplified_conjunctive strategy e)
    (BoolExpr.isConjunctive_conjunctive strategy e)
    (fun x hx => hdenotes.vars_subset x (BoolExpr.vars_conjunctive hx))

/-- A formula over names with separate numbers has clauses iff no place holder occurs in it. No
clause repeats a literal, no two clauses have the same literals, and an empty clause stands alone;
and their literals are the numbers of the names of the formula, as they are or negated. So there are
no clauses of a true formula without names, and just the empty one of a false one. -/
theorem clauses_normal (hn : n.Covers f) (hs : n.Separates f) (strategy : BoolExpr.Strategy) :
    ((∃ cs, f.clauses n strategy = .ok cs) ↔ f.isPlain) ∧
      ∀ cs, f.clauses n strategy = .ok cs →
        (∀ c ∈ cs, c.Nodup) ∧ cs.Pairwise (fun c c' => ¬∀ l, l ∈ c ↔ l ∈ c') ∧
        ([] ∈ cs → cs = [[]]) ∧
        (∀ c ∈ cs, ∀ l ∈ c, ∃ name ∈ f.literals, ∃ i, n.find? name = some i ∧ (l = i ∨ l = -i)) ∧
        (f.literals = [] → ∀ v, cs = if f.eval v then [] else [[]]) := by
  refine ⟨exists_clauses_iff hn strategy, fun cs hcs => ?_⟩
  have hf := (exists_clauses_iff hn strategy).mp ⟨cs, hcs⟩
  have hnormal := isNormal_clauses hn hs hcs
  obtain ⟨cs', hcs', hsatisfies, hliterals⟩ := clauses_spec hf hn strategy
  obtain rfl := Except.ok.inj (hcs.symm.trans hcs')
  refine ⟨hnormal.nodup, hnormal.distinct, hnormal.empty, hliterals, fun hnone v => ?_⟩
  have hno : ∀ c ∈ cs, ∀ l, l ∉ c := by
    intro c hc l hl
    obtain ⟨name, hname, -⟩ := hliterals c hc l hl
    rw [hnone] at hname
    cases hname
  -- Without names the value is the same under every assignment, so that of the clauses is it, too.
  have hvalue : f.eval v = Cnf.satisfies (fun _ => true) cs := by
    rw [hsatisfies]
    refine eval_congr f (fun x hx => ?_)
    rw [← mem_literals, hnone] at hx
    cases hx
  rcases hnormal.eq_of_no_literals hno with rfl | rfl
  · rw [hvalue]
    rfl
  · rw [hvalue]
    rfl

/-- Where two names have one number, a clause may repeat it. -/
example : (disj [.literal "A", .literal "B"]).clauses (Table.ofList [("A", 1), ("B", 1)]) .first =
    .ok [[1, 1]] := by cbv

/-- A formula in which operands are repeated, and a conjunction is repeated by a disjunction. -/
def repetitive : Formula :=
  conj [disj [.literal "A", conj [.literal "B", .literal "A"], .literal "A"], .literal "B",
    disj [.literal "B", .literal "B"], conj [top, neg bottom]]

/-- Numbers of both signs. -/
def signedNumbers : Numbering := Table.ofList [("A", 2), ("B", -1)]

theorem clauses_normal_repetitive :
    signedNumbers.Covers repetitive ∧ signedNumbers.Separates repetitive ∧
      ∃ cs, repetitive.clauses signedNumbers .first = .ok cs ∧ (∀ c ∈ cs, c.Nodup) ∧
        cs.Pairwise (fun c c' => ¬∀ l, l ∈ c ↔ l ∈ c') ∧ ([] ∈ cs → cs = [[]]) := by
  have hall : ∀ name ∈ repetitive.names, name = "A" ∨ name = "B" := by decide
  have names : ∀ name ∈ repetitive.literals, name = "A" ∨ name = "B" :=
    fun name h => hall name (mem_literals.mp h)
  have covers : signedNumbers.Covers repetitive := by
    intro name h
    rcases names name h with rfl | rfl
    · exact ⟨2, by decide, by decide⟩
    · exact ⟨-1, by decide, by decide⟩
  have separates : signedNumbers.Separates repetitive := by
    intro x hx y hy i j hi hj hsame
    have hinj : ∀ x ∈ ["A", "B"], ∀ y ∈ ["A", "B"],
        (signedNumbers.find? x).map Int.natAbs = (signedNumbers.find? y).map Int.natAbs →
          x = y := by
      decide
    refine hinj x (by simpa using names x hx) y (by simpa using names y hy) ?_
    rw [hi, hj, Option.map_some, Option.map_some, hsame]
  obtain ⟨hclauses, hnormal⟩ := clauses_normal covers separates .first
  obtain ⟨cs, hcs⟩ := hclauses.mpr (by decide)
  obtain ⟨hnodup, hdistinct, hempty, -⟩ := hnormal cs hcs
  exact ⟨covers, separates, cs, hcs, hnodup, hdistinct, hempty⟩

end Formula

end Variability
