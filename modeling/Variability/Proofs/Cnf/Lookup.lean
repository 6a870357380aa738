import Variability.Proofs.Cnf.Numbering

/-!
The names of a formula and the numbers that the conversion looks up.

Four parts of the conversion have a view of which names there are: the search for
literals, the symbols of the expression, the simplified expression and the
reader of its clauses. A formula is refused for the names without a number that
occur anywhere in it, also where simplification would remove them
(`clauses_eq_unnumbered_iff`). Where none is missing, the reader that fails at a
variable without a number never does, as what is left after simplification are
names of the formula (`exists_readClauses?`). So a formula whose own names are
numbered is never refused (`exists_toCnf`).
-/

namespace Variability

namespace Cnf

/-! ## Reading with look-ups that can fail -/

section
variable (n : Numbering)

/-- The signed number of a literal. Anything else is refused, as is a variable without a number. -/
def readLiteral? : BoolExpr → Option Int
  | .var x => n.find? x
  | .neg (.var x) => (n.find? x).map (-·)
  | _ => none

/-- The clause of a disjunction, or of a single literal, if all its literals can be read. -/
def readClause? : BoolExpr → Option (List Int)
  | .junction .any es => es.mapM (readLiteral? n)
  | e => (readLiteral? n e).map ([·])

/-- The clauses of an expression, if all of them can be read. -/
def readClauses? : BoolExpr → Option (List (List Int))
  | .const true => some []
  | .const false => some [[]]
  | .junction .all es => es.mapM (readClause? n)
  | e => (readClause? n e).map ([·])

end

theorem mapM_eq_filterMap {α β : Type} {f g : α → Option β} {xs : List α}
    (h : ∀ x ∈ xs, ∃ y, f x = some y ∧ g x = some y) : xs.mapM f = some (xs.filterMap g) := by
  induction xs with
  | nil => rfl
  | cons x xs ih =>
    obtain ⟨⟨y, hf, hg⟩, hxs⟩ := List.forall_mem_cons.mp h
    rw [List.mapM_cons, hf, ih hxs, List.filterMap_cons_some hg]
    rfl

theorem mapM_eq_map {α β : Type} {f : α → Option β} {g : α → β} {xs : List α}
    (h : ∀ x ∈ xs, f x = some (g x)) : xs.mapM f = some (xs.map g) := by
  rw [← List.filterMap_eq_map]
  exact mapM_eq_filterMap (fun x hx => ⟨g x, h x hx, rfl⟩)

section
variable {n : Numbering} {e : BoolExpr}

open BoolExpr (IsClause IsConjunctive isLiteral)

/-- The number of a variable as the clauses have it. -/
def numberOf (n : Numbering) (x : String) : Int := (n.find? x).getD 0

theorem find?_of_contains {x : String} (h : n.contains x = true) :
    n.find? x = some (numberOf n x) := by
  obtain ⟨i, hi⟩ := Table.contains_iff_find?.mp h
  rw [numberOf, hi, Option.getD_some]

theorem readLiteral?_eq (h : isLiteral e) (hn : ∀ x ∈ e.vars, n.contains x = true) :
    ∃ l, readLiteral? n e = some l ∧ literalOf? (numberOf n) e = some l := by
  obtain ⟨x, hx, ⟨hl, rfl⟩ | ⟨hl, rfl⟩⟩ := literalOf?_of_isLiteral (numberOf n) h
  · exact ⟨numberOf n x, find?_of_contains (hn x hx), hl⟩
  · exact ⟨-numberOf n x, by rw [readLiteral?, find?_of_contains (hn x hx), Option.map_some], hl⟩

theorem readClause?_eq (h : IsClause e) (hn : ∀ x ∈ e.vars, n.contains x = true) :
    readClause? n e = some (clauseOf (numberOf n) e) := by
  rcases h with h | ⟨es, rfl, h⟩
  · obtain ⟨l, hread, hl⟩ := readLiteral?_eq h hn
    cases e <;> simp_all [isLiteral, readClause?, clauseOf]
  · refine mapM_eq_filterMap (fun e he => readLiteral?_eq (h e he) (fun x hx => ?_))
    exact hn x (BoolExpr.mem_vars_junction.mpr ⟨e, he, hx⟩)

/-- If all variables have numbers, the clauses can be read. -/
theorem readClauses?_eq (h : IsConjunctive e) (hn : ∀ x ∈ e.vars, n.contains x = true) :
    readClauses? n e = some (clausesOf (numberOf n) e) := by
  rcases h with ⟨b, rfl⟩ | h | ⟨es, rfl, h⟩
  · cases b <;> rfl
  · have hread := readClause?_eq h hn
    have hone : readClauses? n e = (readClause? n e).map ([·]) := by
      rcases h with h | ⟨es, rfl, -⟩
      · cases e <;> simp_all [isLiteral, readClauses?]
      · rfl
    rw [hone, hread, Option.map_some, clausesOf_of_isClause h]
  · refine mapM_eq_map (fun e he => readClause?_eq (h e he) (fun x hx => ?_))
    exact hn x (BoolExpr.mem_vars_junction.mpr ⟨e, he, hx⟩)

end

end Cnf

namespace Formula

variable {f : Formula} {n : Numbering}

/-! ## Names without a number -/

/-- The names without a number are listed in the order in which they appear first. -/
theorem firstAppearances_unnumbered (f : Formula) (n : Numbering) :
    FirstAppearances (fun name => n.contains name = false) f.names (Cnf.unnumbered f n) := by
  have h := (firstAppearances_literals f).filter (fun name => !n.contains name)
  simpa only [Bool.not_eq_true', Cnf.unnumbered] using h

/-- A formula is refused for its names without a number, if it has any. -/
theorem clauses_eq_unnumbered_iff {strategy : BoolExpr.Strategy} {names : List String} :
    f.clauses n strategy = .error (.unnumbered names) ↔
      Cnf.unnumbered f n = names ∧ ∃ name ∈ f.names, n.contains name = false := by
  have hmem := (firstAppearances_unnumbered f n).mem_iff
  rw [clauses]
  cases hu : Cnf.unnumbered f n with
  | nil =>
    rw [hu] at hmem
    have hnone : ¬∃ name ∈ f.names, n.contains name = false := by
      rintro ⟨name, h⟩
      exact List.not_mem_nil ((hmem name).mpr h)
    cases BoolExpr.ofFormula? f <;> simp [hnone]
  | cons x xs =>
    rw [hu] at hmem
    have hsome : ∃ name ∈ f.names, n.contains name = false := ⟨x, (hmem x).mp List.mem_cons_self⟩
    simp only [Except.error.injEq, Cnf.Error.unnumbered.injEq, hsome, and_true]

/-! ## All names have numbers -/

/-- The conversion adds no variable to those that have numbers. -/
theorem variablesWith_keys (h : ∀ name ∈ f.names, n.contains name = true) :
    BoolExpr.variablesWith n.keys f = n.keys := by
  have hkeys : n.keys.foldl appendNew [] = n.keys := foldl_appendNew_of_nodup n.nodup
  rw [BoolExpr.variablesWith, hkeys]
  exact foldl_appendNew_of_subset
    (fun name hname => Table.contains_iff.mp (h name (mem_literals.mp hname)))

/-- If all names have numbers, the formula has an expression, and all its clauses can be read. -/
theorem exists_readClauses? (hf : f.isPlain) (h : ∀ name ∈ f.names, n.contains name = true)
    (strategy : BoolExpr.Strategy) :
    ∃ e cs, BoolExpr.ofFormula? f = some e ∧
      Cnf.readClauses? n (e.conjunctive strategy) = some cs ∧ f.clauses n strategy = .ok cs := by
  obtain ⟨e, he, hd⟩ := BoolExpr.ofFormula?_denotes hf
  have hvars : ∀ x ∈ (e.conjunctive strategy).vars, n.contains x = true :=
    fun x hx => h x (hd.vars_subset x (BoolExpr.vars_conjunctive hx))
  refine ⟨e, _, he, Cnf.readClauses?_eq (BoolExpr.isConjunctive_conjunctive strategy e) hvars, ?_⟩
  rw [clauses, Cnf.unnumbered_eq_nil h, he]
  rfl

theorem clauses_of_not_isPlain (hf : ¬f.isPlain) (h : ∀ name ∈ f.names, n.contains name = true)
    (strategy : BoolExpr.Strategy) : f.clauses n strategy = .error .placeHolder := by
  have hnone : BoolExpr.ofFormula? f = none := by
    rw [BoolExpr.ofFormula?_eq, Option.eq_none_iff_forall_ne_some]
    exact fun e he => hf ((BoolExpr.exists_direct?_iff f).mp ⟨e, he⟩)
  rw [clauses, Cnf.unnumbered_eq_nil h, hnone]

/-! ## Conjunctive normal forms -/

theorem toCnf_eq_error_iff {strategy : BoolExpr.Strategy} {e : Cnf.Error} :
    f.toCnf strategy (some n) = .error e ↔ f.clauses n strategy = .error e := by
  rw [toCnf, Option.getD_some]
  cases f.clauses n strategy with
  | error e' =>
    show (Except.error e' : Except Cnf.Error Cnf) = .error e ↔ _
    rw [Except.error.injEq, Except.error.injEq]
  | ok cs =>
    show (Except.ok ⟨cs, n⟩ : Except Cnf.Error Cnf) = .error e ↔ _
    simp

/-- The names have the numbers from 1 on. -/
theorem contains_ofNames_literals (f : Formula) :
    ∀ name ∈ f.names, (Numbering.ofNames f.literals).contains name = true :=
  fun _ hname =>
    (Numbering.contains_ofNames (firstAppearances_literals f).nodup).mpr (mem_literals.mpr hname)

/-- Without given numbers, a formula without place holders has a conjunctive normal form, whose
variables are the names in the order in which they appear first. -/
theorem exists_toCnf (hf : f.isPlain) (strategy : BoolExpr.Strategy) :
    ∃ cnf, f.toCnf strategy = .ok cnf ∧
      cnf.comments = f.literals.zipIdx.map (fun p => "c " ++ toString (p.2 + 1) ++ " " ++ p.1) ∧
      cnf.variableCount = f.literals.length ∧
      ∀ clause ∈ cnf.clauses, ∀ l ∈ clause, l ≠ 0 ∧ l.natAbs ≤ f.literals.length := by
  have hnodup := (firstAppearances_literals f).nodup
  obtain ⟨cs, hcs, -, hrange, hcount⟩ :=
    exists_clauses_ofNames hnodup hf (fun _ hname => mem_literals.mpr hname) strategy
  refine ⟨⟨cs, Numbering.ofNames f.literals⟩, ?_, Cnf.comments_ofNames hnodup, hcount, hrange⟩
  rw [toCnf, Option.getD_none, hcs]
  rfl

theorem toCnf_of_not_isPlain (hf : ¬f.isPlain) (strategy : BoolExpr.Strategy) :
    f.toCnf strategy = .error .placeHolder := by
  rw [toCnf, Option.getD_none, clauses_of_not_isPlain hf (contains_ofNames_literals f)]
  rfl

/-- Whichever conjunction is distributed next: over given numbers, a formula is refused for missing
ones iff a name that occurs in it has none; then the names without a number are listed, each once,
in the order in which they appear first. If no name is missing, no look-up of a number fails.
Without given numbers every formula has a conjunctive normal form, place holders apart, and its
variables are the names that occur in the formula, numbered from 1 on in the order in which they
appear first. -/
theorem toCnf_numbered (f : Formula) :
    (∀ (n : Numbering) (strategy : BoolExpr.Strategy),
      ((∃ names, f.clauses n strategy = .error (.unnumbered names)) ↔
        ∃ name ∈ f.names, n.contains name = false) ∧
      ∀ names, f.clauses n strategy = .error (.unnumbered names) →
        FirstAppearances (fun name => n.contains name = false) f.names names) ∧
    (∀ n strategy names, f.toCnf strategy (some n) = .error (.unnumbered names) ↔
      f.clauses n strategy = .error (.unnumbered names)) ∧
    (∀ names, (Cnf.Error.unnumbered names).message =
      "no variable id for: " ++ String.intercalate ", " names) ∧
    (∀ n strategy, f.isPlain → (∀ name ∈ f.names, n.contains name = true) →
      BoolExpr.variablesWith n.keys f = n.keys ∧
      ∃ e cs, BoolExpr.ofFormula? f = some e ∧
        Cnf.readClauses? n (e.conjunctive strategy) = some cs ∧ f.clauses n strategy = .ok cs) ∧
    FirstAppearances (fun _ => True) f.names f.literals ∧
    (f.isPlain → ∀ strategy, ∃ cnf, f.toCnf strategy = .ok cnf ∧
      cnf.comments = f.literals.zipIdx.map (fun p => "c " ++ toString (p.2 + 1) ++ " " ++ p.1) ∧
      cnf.variableCount = f.literals.length ∧
      ∀ clause ∈ cnf.clauses, ∀ l ∈ clause, l ≠ 0 ∧ l.natAbs ≤ f.literals.length) ∧
    (¬f.isPlain → ∀ strategy, f.toCnf strategy = .error .placeHolder) := by
  refine ⟨fun n strategy => ⟨⟨?_, ?_⟩, ?_⟩, fun n strategy names => toCnf_eq_error_iff,
    fun _ => rfl, fun n strategy hf h => ⟨variablesWith_keys h, exists_readClauses? hf h strategy⟩,
    firstAppearances_literals f, exists_toCnf, toCnf_of_not_isPlain⟩
  · rintro ⟨names, h⟩
    exact (clauses_eq_unnumbered_iff.mp h).2
  · intro h
    exact ⟨_, clauses_eq_unnumbered_iff.mpr ⟨rfl, h⟩⟩
  · intro names h
    rw [← (clauses_eq_unnumbered_iff.mp h).1]
    exact firstAppearances_unnumbered f n

/-- A true formula with two names that no clause mentions. -/
def erasing : Formula :=
  disj [.literal "B", neg (conj [.literal "A", bottom, .literal "B"])]

theorem toCnf_numbered_erasing :
    erasing.isPlain ∧ "B" ∈ erasing.names ∧
      (∃ names, erasing.clauses (Table.ofList [("A", -3)]) .first = .error (.unnumbered names)) ∧
      ∃ cnf, erasing.toCnf .first = .ok cnf ∧ cnf.variableCount = erasing.literals.length := by
  have plain : erasing.isPlain := by decide
  have mem : "B" ∈ erasing.names := by decide
  obtain ⟨hclauses, -, -, -, -, htoCnf, -⟩ := toCnf_numbered erasing
  obtain ⟨cnf, hcnf, -, hcount, -⟩ := htoCnf plain .first
  exact ⟨plain, mem, (hclauses _ .first).1.mpr ⟨"B", mem, by decide⟩, cnf, hcnf, hcount⟩

/-- Both names are numbered, though there are no clauses. -/
example : (erasing.toCnf .first).toOption.map (fun cnf => (cnf.clauses, cnf.comments)) =
    some ([], ["c 1 B", "c 2 A"]) := by cbv

end Formula

end Variability
