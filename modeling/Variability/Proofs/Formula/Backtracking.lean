import Variability.Proofs.Formula.Choice

/-!
The loop behind the formula that every choice of `k` elements contains one that
holds.

The loop fills the places of a clause one by one, goes a level down or up after
each, and clears neither of its two lists. It stands for the search for
combinations (`Represents`): only the front of each list counts, up to the level.
Each round is one step of the search (`round_left`, `round_complete`,
`round_open`), so it finds what the search finds (`exists_loop`), comes to its
end without an error (`exists_run`) and returns one disjunction for each
combination, in lexicographic order (`everyChoice_enumerates`).
-/

namespace Variability.Formula

open Combination (selections selections_map)

namespace Backtracking

/-! ## The loop -/

/-- Why the loop fails. -/
inductive Error where
  /-- A list has no such place. -/
  | outOfRange
  /-- A place of the clause has not been filled. -/
  | unfilled
  /-- There are not as many clauses as combinations of `k` of `n` elements. -/
  | countMismatch (found n k : Nat)
deriving DecidableEq, Repr

/-- The text of an error. -/
def Error.message : Error → String
  | outOfRange => "list index out of range"
  | unfilled => "a place of the clause is empty"
  | countMismatch found n k =>
    "generated " ++ toString found ++ " clauses, expected C(" ++ toString n ++ ", " ++ toString k ++
      ") = " ++ toString (n.choose k)

/-- The entry of a list at a place; places before the first one are refused, too. -/
def read {α : Type} (xs : List α) (place : Int) : Except Error α :=
  match place with
  | .ofNat p =>
    match xs[p]? with
    | some x => .ok x
    | none => .error .outOfRange
  | .negSucc _ => .error .outOfRange

/-- The list with another entry at a place. -/
def write {α : Type} (xs : List α) (place : Int) (x : α) : Except Error (List α) :=
  match place with
  | .ofNat p => if p < xs.length then .ok (xs.set p x) else .error .outOfRange
  | .negSucc _ => .error .outOfRange

/-- The disjunction of a clause, all places of which are filled. -/
def disjunction (clause : List (Option Formula)) : Except Error Formula :=
  if clause.all Option.isSome then .ok (.disj (clause.filterMap id)) else .error .unfilled

/-- The variables of the loop. Neither list is cleared when a level is left or a clause is
complete. -/
structure State where
  /-- The place of the clause that is filled next; the loop ends when there is none. -/
  level : Int
  /-- The position that was tried last, for each place. -/
  index : List Int
  clause : List (Option Formula)
  clauses : List Formula

/-- The variables before the first round. -/
def start (k : Nat) : Except Error State := do
  let index ← write (List.replicate k 0) 0 (-1)
  return ⟨0, index, List.replicate k none, []⟩

/-- One round: the next position is tried at the level. If too few are left after it, the level
above goes on; otherwise its element is put into the clause, and the clause is complete or the
level below starts behind the position. -/
def round (elements : List Formula) (k : Nat) (s : State) : Except Error State := do
  let last ← read s.index s.level
  let next := last + 1
  let index ← write s.index s.level next
  if (elements.length : Int) - (k - 1 - s.level) ≤ next then
    return { s with level := s.level - 1, index }
  else
    let element ← read elements next
    let clause ← write s.clause s.level (some element)
    if s.level = k - 1 then
      let complete ← disjunction clause
      return { s with index, clause, clauses := s.clauses ++ [complete] }
    else
      let above ← read index s.level
      let index ← write index (s.level + 1) above
      return { s with level := s.level + 1, index, clause }

/-- The rounds until no level is left; `none` if they are more than `rounds`. -/
def loop (elements : List Formula) (k : Nat) : Nat → State → Option (Except Error State)
  | 0, _ => none
  | rounds + 1, s =>
    if s.level < 0 then some (.ok s)
    else
      match round elements k s with
      | .ok s => loop elements k rounds s
      | .error e => some (.error e)

/-- The conjunction of the clauses, if there is one for each combination. -/
def conclude (elements : List Formula) (k : Nat) (s : State) : Except Error Formula :=
  if s.clauses.length = elements.length.choose k then .ok (.conj s.clauses)
  else .error (.countMismatch s.clauses.length elements.length k)

/-- What the loop makes of the elements, if so many rounds are enough. -/
def run (elements : List Formula) (k rounds : Nat) : Option (Except Error Formula) :=
  match start k with
  | .error e => some (.error e)
  | .ok s => (loop elements k rounds s).map (fun outcome => outcome.bind (conclude elements k))

/-! ## Levels -/

section
variable {α : Type} {front xs : List α} {x y : α} {place : Int}

theorem read_of_prefix (h : front ++ [x] <+: xs) (hplace : place = front.length) :
    read xs place = .ok x := by
  obtain ⟨stale, rfl⟩ := h
  subst hplace
  simp [read]

/-- Writing behind the front of a list makes the front longer. -/
theorem write_of_prefix (h : front <+: xs) (hlt : front.length < xs.length)
    (hplace : place = front.length) :
    ∃ ys, write xs place y = .ok ys ∧ front ++ [y] <+: ys ∧ ys.length = xs.length := by
  obtain ⟨_ | ⟨old, stale⟩, rfl⟩ := h
  · simp at hlt
  · subst hplace
    exact ⟨front ++ y :: stale, by simp [write], by simp, by simp⟩

end

/-- The positions that were tried last on the levels of a search, from the outermost level on. -/
def tried (levels : List Nat) : List Int :=
  (levels.map (fun next : Nat => (next : Int) - 1)).reverse

/-- The levels of a search beside the variables of the loop. The two lists start with the positions
that were tried on the open levels and with the elements that were chosen on the outer ones; what
stands behind them is left over. -/
structure Represents (elements : List Formula) (k : Nat) (levels : List Nat) (s : State) :
    Prop where
  level : s.level = (levels.length : Int) - 1
  length_le : levels.length ≤ k
  index : tried levels <+: s.index
  length_index : s.index.length = k
  clause : (Combination.chosen levels.tail).map (elements[·]?) <+: s.clause
  length_clause : s.clause.length = k
  chosen_lt : ∀ p ∈ Combination.chosen levels.tail, p < elements.length

variable {elements : List Formula} {k : Nat} {levels outer : List Nat} {next : Nat} {s : State}

theorem tried_cons (next : Nat) (outer : List Nat) :
    tried ((next + 1) :: outer) = tried outer ++ [(next : Int)] := by
  simp [tried]

theorem tried_prefix_cons (next : Nat) (outer : List Nat) :
    tried outer <+: tried (next :: outer) := by
  simp [tried]

theorem chosen_prefix_cons (next : Nat) (outer : List Nat) :
    Combination.chosen outer <+: Combination.chosen (next :: outer) := by
  simp [Combination.chosen]

theorem length_tried (levels : List Nat) : (tried levels).length = levels.length := by
  rw [tried, List.length_reverse, List.length_map]

theorem length_chosen (levels : List Nat) :
    (Combination.chosen levels).length = levels.length := by
  rw [Combination.chosen, List.length_reverse, List.length_map]

namespace Represents

theorem level_eq (h : Represents elements k (next :: outer) s) : s.level = outer.length := by
  rw [h.level, List.length_cons]
  omega

theorem level_lt (h : Represents elements k (next :: outer) s) : outer.length < k := h.length_le

theorem last (h : Represents elements k (next :: outer) s) :
    read s.index s.level = .ok ((next : Int) - 1) := by
  have hindex : tried outer ++ [(next : Int) - 1] <+: s.index := by
    have hindex := h.index
    rwa [tried, List.map_cons, List.reverse_cons] at hindex
  exact read_of_prefix hindex (by rw [h.level_eq, length_tried])

/-- The next position is tried at the innermost level. -/
theorem retry (h : Represents elements k (next :: outer) s) :
    ∃ index, write s.index s.level next = .ok index ∧
      tried ((next + 1) :: outer) <+: index ∧ index.length = k := by
  have hlt : (tried outer).length < s.index.length := by
    rw [length_tried, h.length_index]
    exact h.level_lt
  rw [tried_cons, ← h.length_index]
  refine write_of_prefix ((tried_prefix_cons next outer).trans h.index) hlt ?_
  rw [h.level_eq, length_tried]

/-- The element at the next position is put into the clause. -/
theorem fill (h : Represents elements k (next :: outer) s) (hnext : next < elements.length) :
    ∃ clause, write s.clause s.level (some elements[next]) = .ok clause ∧
      (Combination.chosen ((next + 1) :: outer)).map (elements[·]?) <+: clause ∧
      clause.length = k := by
  have hlt : ((Combination.chosen outer).map (elements[·]?)).length < s.clause.length := by
    rw [List.length_map, length_chosen, h.length_clause]
    exact h.level_lt
  rw [Combination.chosen_cons, List.map_append, List.map_singleton,
    List.getElem?_eq_getElem hnext, ← h.length_clause]
  refine write_of_prefix h.clause hlt ?_
  rw [h.level_eq, List.length_map, length_chosen]

theorem chosen_lt_cons (h : Represents elements k (next :: outer) s)
    (hnext : next < elements.length) :
    ∀ p ∈ Combination.chosen ((next + 1) :: outer), p < elements.length := by
  rw [Combination.chosen_cons]
  exact List.forall_mem_append.mpr ⟨h.chosen_lt, List.forall_mem_singleton.mpr hnext⟩

end Represents

/-! ## One round -/

/-- Too few positions are left, so the level above goes on. -/
theorem round_left (h : Represents elements k (next :: outer) s)
    (hfew : ¬next + (k - outer.length) ≤ elements.length) :
    ∃ s', round elements k s = .ok s' ∧ Represents elements k outer s' ∧
      s'.clauses = s.clauses := by
  have hlevel := h.level_eq
  have hlt := h.level_lt
  obtain ⟨index, hretry, hindex, hlength⟩ := h.retry
  have hn : (elements.length : Int) - (k - 1 - s.level) ≤ next := by omega
  refine ⟨{ s with level := s.level - 1, index }, ?_, ?_, rfl⟩
  · simp only [round, h.last, Int.sub_add_cancel, hretry, bind, Except.bind, if_pos hn]
    rfl
  · constructor
    case level => rw [hlevel]
    case length_le => exact Nat.le_of_lt hlt
    case index => exact (tried_prefix_cons _ outer).trans hindex
    case length_index => exact hlength
    case length_clause => exact h.length_clause
    case clause =>
      cases outer with
      | nil => exact h.clause
      | cons above outer => exact ((chosen_prefix_cons above outer).map _).trans h.clause
    case chosen_lt =>
      cases outer with
      | nil => exact h.chosen_lt
      | cons above outer =>
        exact fun p hp => h.chosen_lt p ((chosen_prefix_cons above outer).subset hp)

theorem disjunction_map {ps : List Nat} (h : ∀ p ∈ ps, p < elements.length) :
    disjunction (ps.map (elements[·]?)) = .ok (.disj (atPositions elements ps)) := by
  have hall : (ps.map (elements[·]?)).all Option.isSome := by
    rw [List.all_map, List.all_eq_true]
    intro p hp
    simpa using h p hp
  rw [disjunction, if_pos hall, List.filterMap_map]
  rfl

/-- The clause is complete at the last level, which goes on. -/
theorem round_complete (h : Represents elements k (next :: outer) s)
    (hfits : next + (k - outer.length) ≤ elements.length) (hlast : outer.length + 1 = k) :
    ∃ s', round elements k s = .ok s' ∧ Represents elements k ((next + 1) :: outer) s' ∧
      s'.clauses =
        s.clauses ++ [.disj (atPositions elements (Combination.chosen outer ++ [next]))] := by
  have hlevel := h.level_eq
  have hnext : next < elements.length := by omega
  obtain ⟨index, hretry, hindex, hlength⟩ := h.retry
  obtain ⟨clause, hfill, hclause, hlength'⟩ := h.fill hnext
  have helement : read elements next = .ok elements[next] := by simp [read, hnext]
  have hn : ¬(elements.length : Int) - (k - 1 - s.level) ≤ next := by omega
  have hk : s.level = (k : Int) - 1 := by omega
  -- All places are filled, nothing is left over.
  have hall : (Combination.chosen ((next + 1) :: outer)).map (elements[·]?) = clause := by
    refine hclause.eq_of_length ?_
    rw [List.length_map, length_chosen, hlength', List.length_cons, hlast]
  have hcomplete := disjunction_map (h.chosen_lt_cons hnext)
  rw [hall] at hcomplete
  rw [← Combination.chosen_cons]
  refine ⟨⟨s.level, index, clause, _⟩, ?_, ?_, rfl⟩
  · simp only [round, h.last, Int.sub_add_cancel, hretry, bind, Except.bind, if_neg hn, helement,
      hfill, if_pos hk, hcomplete]
    rfl
  · constructor
    case level => exact h.level
    case length_le => exact h.length_le
    case index => exact hindex
    case length_index => exact hlength
    case clause => exact ((chosen_prefix_cons (next + 1) outer).map _).trans hclause
    case length_clause => exact hlength'
    case chosen_lt => exact h.chosen_lt

/-- The clause has more places, so the level below starts behind the position. -/
theorem round_open (h : Represents elements k (next :: outer) s)
    (hfits : next + (k - outer.length) ≤ elements.length) (hmore : ¬outer.length + 1 = k) :
    ∃ s', round elements k s = .ok s' ∧
      Represents elements k ((next + 1) :: (next + 1) :: outer) s' ∧ s'.clauses = s.clauses := by
  have hlevel := h.level_eq
  have hlt := h.level_lt
  have hnext : next < elements.length := by omega
  obtain ⟨index, hretry, hindex, hlength⟩ := h.retry
  obtain ⟨clause, hfill, hclause, hlength'⟩ := h.fill hnext
  have helement : read elements next = .ok elements[next] := by simp [read, hnext]
  have hn : ¬(elements.length : Int) - (k - 1 - s.level) ≤ next := by omega
  have hk : ¬s.level = (k : Int) - 1 := by omega
  have habove : read index s.level = .ok (next : Int) := by
    rw [tried_cons] at hindex
    exact read_of_prefix hindex (by rw [hlevel, length_tried])
  obtain ⟨index', hwrite, hindex', hlength''⟩ : ∃ index',
      write index (s.level + 1) (next : Int) = .ok index' ∧
        tried ((next + 1) :: outer) ++ [(next : Int)] <+: index' ∧
        index'.length = index.length := by
    refine write_of_prefix hindex ?_ ?_
    · rw [length_tried, List.length_cons, hlength]
      omega
    · rw [hlevel, length_tried, List.length_cons]
      omega
  refine ⟨⟨s.level + 1, index', clause, s.clauses⟩, ?_, ?_, rfl⟩
  · simp only [round, h.last, Int.sub_add_cancel, hretry, bind, Except.bind, if_neg hn, helement,
      hfill, if_neg hk, habove, hwrite]
    rfl
  · constructor
    case level =>
      rw [List.length_cons, List.length_cons]
      show s.level + 1 = _
      omega
    case length_le => rw [List.length_cons, List.length_cons]; omega
    case index => rw [tried_cons]; exact hindex'
    case length_index => rw [hlength'', hlength]
    case clause => exact hclause
    case length_clause => exact hlength'
    case chosen_lt => exact h.chosen_lt_cons hnext

/-! ## All rounds -/

theorem loop_of_round {s₁ s' : State} {bound : Nat} (h : Represents elements k (next :: outer) s)
    (hround : round elements k s = .ok s₁)
    (hloop : ∀ rounds, bound ≤ rounds → loop elements k rounds s₁ = some (.ok s')) :
    ∀ rounds, bound + 1 ≤ rounds → loop elements k rounds s = some (.ok s') := by
  intro rounds hrounds
  obtain ⟨rounds, rfl⟩ : ∃ r, rounds = r + 1 := ⟨rounds - 1, by omega⟩
  have hlevel : ¬s.level < 0 := by
    rw [h.level_eq]
    omega
  rw [loop, if_neg hlevel, hround]
  exact hloop rounds (by omega)

/-- Over all rounds the loop finds what the search finds, and adds a clause for each. -/
theorem exists_loop (h : Represents elements k levels s) :
    ∃ s' bound, (∀ rounds, bound ≤ rounds → loop elements k rounds s = some (.ok s')) ∧
      s'.clauses = s.clauses ++
        (Combination.search elements.length k levels).map
          (fun ps => .disj (atPositions elements ps)) := by
  fun_induction Combination.search elements.length k levels generalizing s with
  | case1 =>
    refine ⟨s, 1, fun rounds hrounds => ?_, (List.append_nil _).symm⟩
    obtain ⟨rounds, rfl⟩ := Nat.exists_eq_add_of_le' hrounds
    have hlevel : s.level < 0 := by
      rw [h.level]
      decide
    rw [loop, if_pos hlevel]
  | case2 next outer hfits hlast ih =>
    obtain ⟨s₁, hround, h₁, hclauses₁⟩ := round_complete h hfits.2 hlast
    obtain ⟨s', bound, hloop, hclauses⟩ := ih h₁
    refine ⟨s', bound + 1, loop_of_round h hround hloop, ?_⟩
    rw [hclauses, hclauses₁, List.map_cons, List.append_assoc, List.singleton_append]
  | case3 next outer hfits hlast ih =>
    obtain ⟨s₁, hround, h₁, hclauses₁⟩ := round_open h hfits.2 hlast
    obtain ⟨s', bound, hloop, hclauses⟩ := ih h₁
    exact ⟨s', bound + 1, loop_of_round h hround hloop, hclauses₁ ▸ hclauses⟩
  | case4 next outer hfits ih =>
    obtain ⟨s₁, hround, h₁, hclauses₁⟩ := round_left h (fun hfew => hfits ⟨h.level_lt, hfew⟩)
    obtain ⟨s', bound, hloop, hclauses⟩ := ih h₁
    exact ⟨s', bound + 1, loop_of_round h hround hloop, hclauses₁ ▸ hclauses⟩

/-- Before the first round the outermost level is open and nothing is chosen. -/
theorem exists_start (elements : List Formula) (hk : 0 < k) :
    ∃ s, start k = .ok s ∧ Represents elements k [0] s ∧ s.clauses = [] := by
  obtain ⟨r, rfl⟩ : ∃ r, k = r + 1 := ⟨k - 1, by omega⟩
  refine ⟨⟨0, -1 :: List.replicate r 0, List.replicate (r + 1) none, []⟩, rfl, ?_, rfl⟩
  constructor
  case level => rfl
  case length_le => exact hk
  case index => exact ⟨List.replicate r 0, rfl⟩
  case length_index => rw [List.length_cons, List.length_replicate]
  case clause => exact List.nil_prefix
  case length_clause => exact List.length_replicate
  case chosen_lt => exact fun p hp => absurd hp List.not_mem_nil

/-- The loop comes to its end without an error, with one clause for each selection. -/
theorem exists_run (elements : List Formula) (hk : 0 < k) :
    ∃ bound, ∀ rounds, bound ≤ rounds →
      run elements k rounds = some (.ok (.conj ((selections k elements).map disj))) := by
  obtain ⟨s, hstart, h, hempty⟩ := exists_start elements hk
  obtain ⟨s', bound, hloop, hclauses⟩ := exists_loop h
  have hfound : s'.clauses = (selections k elements).map disj := by
    rw [hclauses, hempty, List.nil_append, ← choiceClauses_eq hk]
    rfl
  have hcount : s'.clauses.length = elements.length.choose k := by
    rw [hfound, List.length_map, Combination.length_selections]
  refine ⟨bound, fun rounds hrounds => ?_⟩
  rw [run, hstart, ← hfound]
  show (loop elements k rounds s).map _ = _
  rw [hloop rounds hrounds, Option.map_some]
  show some (conclude elements k s') = _
  rw [conclude, if_pos hcount]

end Backtracking

/-! ## What is returned -/

/-- For all elements and every `k` from 1 to the number of elements, there is the list of all
strictly ascending `k`-tuples of their places, each once, in lexicographic order, as many as there
are combinations; and the formula is the conjunction that has for each of them the disjunction of
the elements at its places, or of their negations. The loop that fills a clause level by level ends
with this formula: it needs boundedly many rounds, reads and writes no list out of its range, and
finds as many clauses as it expects. -/
theorem everyChoice_enumerates (fs : List Formula) (k : Nat) (negated : Bool) (hk : 1 ≤ k)
    (hle : k ≤ fs.length) :
    ∃ tuples : List (List (Fin fs.length)),
      (∀ ps, ps ∈ tuples ↔ ps.Pairwise (· < ·) ∧ ps.length = k) ∧
      tuples.Pairwise (· < ·) ∧
      tuples.length = fs.length.choose k ∧
      everyChoice fs k negated =
        conj (tuples.map (fun ps =>
          disj (ps.map (fun p => if negated then neg (fs.get p) else fs.get p)))) ∧
      ∃ bound, ∀ rounds, bound ≤ rounds →
        Backtracking.run (if negated then fs.map neg else fs) k rounds =
          some (.ok (everyChoice fs k negated)) := by
  have helements : (if negated then fs.map neg else fs) =
      (List.finRange fs.length).map (fun p => if negated then neg (fs.get p) else fs.get p) := by
    cases negated with
    | true =>
      rw [if_pos rfl]
      conv_lhs => rw [← List.map_get_finRange fs, List.map_map]
      rfl
    | false => exact (List.map_get_finRange fs).symm
  have hlength : (if negated then fs.map neg else fs).length = fs.length := by
    rw [helements, List.length_map, List.length_finRange]
  have hformula : everyChoice fs k negated =
      conj ((selections k (if negated then fs.map neg else fs)).map disj) := by
    rw [← everyChoice_eq hk (hlength ▸ hle)]
    cases negated with
    | true => exact everyChoice_negated fs k
    | false => rfl
  refine ⟨selections k (List.finRange fs.length), fun ps => Combination.mem_selections_finRange,
    Combination.pairwise_selections (List.sortedLT_finRange _).pairwise, ?_, ?_, ?_⟩
  · rw [Combination.length_selections, List.length_finRange]
  · rw [hformula, helements, selections_map, List.map_map]
    rfl
  · rw [hformula]
    exact Backtracking.exists_run _ hk

/-- Two of three elements, two of which are equal: the three pairs of places in order. -/
theorem everyChoice_enumerates_repeated :
    ∃ bound, ∀ rounds, bound ≤ rounds →
      Backtracking.run [.literal "A", .literal "A", .literal "B"] 2 rounds =
        some (.ok (.conj
          [.disj [.literal "A", .literal "A"], .disj [.literal "A", .literal "B"],
            .disj [.literal "A", .literal "B"]])) := by
  obtain ⟨_, -, -, -, -, hrun⟩ := everyChoice_enumerates
    [.literal "A", .literal "A", .literal "B"] 2 false (by decide) (by decide)
  rw [everyChoice_eq (by decide) (by decide)] at hrun
  exact hrun

end Variability.Formula
