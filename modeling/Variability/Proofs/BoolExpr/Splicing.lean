import Mathlib.Data.List.Forall2
import Mathlib.Logic.Relation
import Variability.BoolExpr.OfFormula
import Variability.Proofs.BoolExpr.Simplified
import Variability.Proofs.Formula.Semantics

/-!
The conversion of formulas beside a plain recursion.

The recursion converts the children of a node and then applies the connective of
the node (`direct?`). The conversion takes the operands of nested junctions for
those of the outer one instead, so that the inner ones are never simplified, and
keeps the nodes on a list of tasks and their expressions on a stack.

What is proved (`ofFormula?_spec`):
  1. Splicing changes nothing, as a simplified junction has no other set of operands
     than one that is simplified inside as well (`join_directs?_spliced`); hence the
     conversion of a formula gives the expression of the recursion, whatever tasks
     and expressions there are besides (`run_visit`).
  2. When a node is put together, the latest expressions are those of its own
     operands: whatever happens to the other tasks, they find what they expect
     (`Supplied`), and each step keeps that (`Supplied.step`).
-/

namespace Variability.BoolExpr

/-! ## The plain recursion -/

mutual

/-- The expression of a node over those of its children; a place holder has none. -/
def direct? : Formula → Option BoolExpr
  | .literal name => some (var name)
  | .top => some (const true)
  | .bottom => some (const false)
  | .hole => none
  | .neg f => (direct? f).map negate
  | .conj fs => (directs? fs).map (join .all)
  | .disj fs => (directs? fs).map (join .any)
  | .implies f g => (direct? f).bind (fun a => (direct? g).map (imply a))

/-- The expressions of all formulas of a list. -/
def directs? : List Formula → Option (List BoolExpr)
  | [] => some []
  | f :: fs => (direct? f).bind (fun e => (directs? fs).map (e :: ·))

end

theorem directs?_append (fs gs : List Formula) :
    directs? (fs ++ gs) = (directs? fs).bind (fun es => (directs? gs).map (es ++ ·)) := by
  induction fs with
  | nil =>
    rw [List.nil_append, directs?, Option.bind_some]
    exact (Option.map_id' ..).symm
  | cons f fs ih =>
    rw [List.cons_append, directs?, directs?, ih]
    cases direct? f with
    | none => rfl
    | some e =>
      cases directs? fs with
      | none => rfl
      | some es => cases directs? gs <;> rfl

theorem directs?_eq_some_iff {fs : List Formula} {es : List BoolExpr} :
    directs? fs = some es ↔ List.Forall₂ (fun f e => direct? f = some e) fs es := by
  induction fs generalizing es with
  | nil => rw [directs?, Option.some.injEq, List.forall₂_nil_left_iff, eq_comm]
  | cons f fs ih =>
    rw [directs?, Option.bind_eq_some_iff, List.forall₂_cons_left_iff]
    refine exists_congr fun e => ?_
    rw [Option.map_eq_some_iff]
    constructor
    · rintro ⟨he, es, hes, rfl⟩
      exact ⟨es, he, ih.mp hes, rfl⟩
    · rintro ⟨es, he, hes, rfl⟩
      exact ⟨he, es, ih.mpr hes, rfl⟩

/-- Formulas without place holders have expressions, and no others. -/
theorem exists_direct?_iff (f : Formula) : (∃ e, direct? f = some e) ↔ f.isPlain := by
  have hall {fs : List Formula} (h : ∀ f ∈ fs, (∃ e, direct? f = some e) ↔ f.isPlain) :
      (∃ es, directs? fs = some es) ↔ ∀ f ∈ fs, f.isPlain := by
    induction fs with
    | nil => simp [directs?]
    | cons f fs ih =>
      obtain ⟨hf, hfs⟩ := List.forall_mem_cons.mp h
      rw [List.forall_mem_cons, ← ih hfs, ← hf]
      simp [directs?, Option.bind_eq_some_iff]
  induction f with
  | literal name | top | bottom | hole => simp [direct?, Formula.isPlain]
  | neg f ih => simpa [direct?, Formula.isPlain] using ih
  | conj fs ih | disj fs ih => simpa [direct?, Formula.isPlain] using hall ih
  | implies f g ihf ihg =>
    simp [direct?, Formula.isPlain, ← ihf, ← ihg, Option.bind_eq_some_iff]

theorem exists_of_mem_directs? {fs : List Formula} {es : List BoolExpr}
    (h : directs? fs = some es) {e : BoolExpr} (he : e ∈ es) : ∃ f ∈ fs, direct? f = some e := by
  induction fs generalizing es with
  | nil =>
    obtain rfl := Option.some.inj h
    cases he
  | cons f fs ih =>
    obtain ⟨e₀, he₀, hrest⟩ := Option.bind_eq_some_iff.mp h
    obtain ⟨es, hes, rfl⟩ := Option.map_eq_some_iff.mp hrest
    rcases List.mem_cons.mp he with rfl | he
    · exact ⟨f, List.mem_cons_self, he₀⟩
    · obtain ⟨g, hg, hdirect⟩ := ih hes he
      exact ⟨g, List.mem_cons_of_mem f hg, hdirect⟩

/-- The recursion simplifies at every node. -/
theorem isSimplified_of_direct? {f : Formula} {e : BoolExpr} (h : direct? f = some e) :
    IsSimplified e := by
  have hjoin {op : Junctor} {fs : List Formula} {e : BoolExpr}
      (ih : ∀ f ∈ fs, ∀ {e}, direct? f = some e → IsSimplified e)
      (h : (directs? fs).map (join op) = some e) : IsSimplified e := by
    obtain ⟨es, hes, rfl⟩ := Option.map_eq_some_iff.mp h
    refine isSimplified_join (fun e he => ?_)
    obtain ⟨f, hf, hdirect⟩ := exists_of_mem_directs? hes he
    exact ih f hf hdirect
  induction f generalizing e with
  | literal name =>
    obtain rfl := Option.some.inj h
    exact .var name
  | top | bottom =>
    obtain rfl := Option.some.inj h
    exact .const _
  | hole => cases h
  | neg f ih =>
    obtain ⟨a, ha, rfl⟩ := Option.map_eq_some_iff.mp h
    exact isSimplified_negate (ih ha)
  | conj fs ih | disj fs ih => exact hjoin ih h
  | implies f g ihf ihg =>
    obtain ⟨a, ha, h⟩ := Option.bind_eq_some_iff.mp h
    obtain ⟨b, hb, rfl⟩ := Option.map_eq_some_iff.mp h
    exact isSimplified_imply (ihf ha) (ihg hb)

/-! ## Splicing -/

/-- A formula whose expression is the junction of others may be replaced by these among the operands
of a junction of the same kind. -/
theorem join_directs?_cons {op : Junctor} {f : Formula} {fs : List Formula}
    (hf : direct? f = (directs? fs).map (join op)) (front : List BoolExpr)
    (pending : List Formula) :
    (directs? (f :: pending)).map (fun es => join op (front ++ es)) =
      (directs? (fs ++ pending)).map (fun es => join op (front ++ es)) := by
  rw [directs?, hf, directs?_append]
  cases hes : directs? fs with
  | none => rfl
  | some es =>
    have hsimplified : ∀ e ∈ es, IsSimplified e := by
      intro e he
      obtain ⟨g, -, hg⟩ := exists_of_mem_directs? hes he
      exact isSimplified_of_direct? hg
    cases directs? pending with
    | none => rfl
    | some rest => exact congrArg some (join_splice hsimplified front rest)

/-- The junction of the spliced operands is that of the operands themselves. -/
theorem join_directs?_spliced (op : Junctor) (fs : List Formula) (front : List BoolExpr) :
    (directs? (spliced op fs)).map (fun es => join op (front ++ es)) =
      (directs? fs).map (fun es => join op (front ++ es)) := by
  have hcons {f : Formula} {pending : List Formula}
      (ih : ∀ front, (directs? (spliced op pending)).map (fun es => join op (front ++ es)) =
        (directs? pending).map (fun es => join op (front ++ es))) (front : List BoolExpr) :
      (directs? (f :: spliced op pending)).map (fun es => join op (front ++ es)) =
        (directs? (f :: pending)).map (fun es => join op (front ++ es)) := by
    rw [directs?, directs?]
    cases direct? f with
    | none => rfl
    | some e =>
      have hfront := ih (front ++ [e])
      simp only [List.append_assoc, List.singleton_append] at hfront
      simpa only [Option.bind_some, Option.map_map, Function.comp_def] using hfront
  fun_induction spliced op fs generalizing front with
  | case1 => rfl
  | case2 fs pending hop ih | case5 fs pending hop ih =>
    subst hop
    exact (ih front).trans (join_directs?_cons rfl front pending).symm
  | case3 fs pending hop ih | case4 fs pending hop ih =>
    subst hop
    exact hcons ih front
  | case6 f pending _ _ ih => exact hcons ih front

/-- The recursion may go to the operands that a node is converted with. -/
theorem direct?_eq_operandsOf (f : Formula) :
    direct? f = (directs? (operandsOf f)).bind (ofNode? f) := by
  have hspliced (op : Junctor) (fs : List Formula) :
      (directs? (spliced op fs)).map (join op) = (directs? fs).map (join op) :=
    join_directs?_spliced op fs []
  cases f with
  | literal name | top | bottom | hole => rfl
  | neg f =>
    show (direct? f).map negate = (directs? [f]).bind _
    rw [directs?, directs?]
    cases direct? f <;> rfl
  | conj fs =>
    show (directs? fs).map (join .all) = (directs? (spliced .all fs)).bind (some ∘ join .all)
    rw [← hspliced, Option.map_eq_bind]
  | disj fs =>
    show (directs? fs).map (join .any) = (directs? (spliced .any fs)).bind (some ∘ join .any)
    rw [← hspliced, Option.map_eq_bind]
  | implies f g =>
    show (direct? f).bind _ = (directs? [f, g]).bind _
    rw [directs?, directs?, directs?]
    cases direct? f with
    | none => rfl
    | some a => cases direct? g <;> rfl

/-! ## The whole conversion -/

open Conversion

/-- A node is put together over the latest expressions. -/
theorem run_close (f : Formula) (es done : List BoolExpr) (tasks : List Task) :
    run (es.reverse ++ done) (.close f es.length :: tasks) =
      (ofNode? f es).bind (fun e => run (e :: done) tasks) := by
  rw [run, ← List.length_reverse, List.take_left, List.drop_left, List.reverse_reverse]
  cases ofNode? f es <;> rfl

theorem run_visits {fs : List Formula}
    (h : ∀ f ∈ fs, ∀ done tasks, run done (.visit f :: tasks) =
      (direct? f).bind (fun e => run (e :: done) tasks))
    (done : List BoolExpr) (tasks : List Task) :
    run done (fs.map .visit ++ tasks) =
      (directs? fs).bind (fun es => run (es.reverse ++ done) tasks) := by
  induction fs generalizing done with
  | nil => rfl
  | cons f fs ih =>
    obtain ⟨hf, hfs⟩ := List.forall_mem_cons.mp h
    rw [List.map_cons, List.cons_append, hf, directs?]
    cases direct? f with
    | none => rfl
    | some e =>
      rw [Option.bind_some, Option.bind_some, ih hfs]
      cases directs? fs with
      | none => rfl
      | some es =>
        rw [Option.bind_some, Option.map_some, Option.bind_some, List.reverse_cons,
          List.append_assoc, List.singleton_append]

/-- Visiting a formula puts its expression on top of the others, or ends the run. -/
theorem run_visit (f : Formula) (done : List BoolExpr) (tasks : List Task) :
    run done (.visit f :: tasks) = (direct? f).bind (fun e => run (e :: done) tasks) := by
  -- The operands of a node are not its children where an operand was spliced in, so the
  -- recursion is on the size.
  have operands : ∀ g ∈ operandsOf f, ∀ done tasks, run done (.visit g :: tasks) =
      (direct? g).bind (fun e => run (e :: done) tasks) :=
    fun g hg => run_visit g
  rw [run, direct?_eq_operandsOf]
  split
  · next hempty =>
    rw [List.isEmpty_iff.mp hempty]
    show _ = (ofNode? f []).bind _
    cases ofNode? f [] <;> rfl
  · rw [run_visits operands]
    cases hes : directs? (operandsOf f) with
    | none => rfl
    | some es =>
      rw [Option.bind_some, Option.bind_some, (directs?_eq_some_iff.mp hes).length_eq, run_close]
termination_by f.size
decreasing_by exact Nat.lt_of_le_of_lt (Formula.size_le_sizes hg) (sizes_operandsOf_lt f)

theorem ofFormula?_eq (f : Formula) : ofFormula? f = direct? f := by
  rw [ofFormula?, run_visit]
  cases direct? f with
  | none => rfl
  | some e =>
    rw [Option.bind_some, run]
    rfl

/-! ## The stack of expressions -/

/-- What carrying out a task leaves, the expressions and the tasks. -/
def step? (done : List BoolExpr) (tasks : List Task) : Task → Option (List BoolExpr × List Task)
  | .visit f =>
    let operands := operandsOf f
    if operands.isEmpty then (ofNode? f []).map (fun e => (e :: done, tasks))
    else some (done, operands.map .visit ++ .close f operands.length :: tasks)
  | .close f count =>
    (ofNode? f (done.take count).reverse).map (fun e => (e :: done.drop count, tasks))

/-- A run carries out one task after the other. -/
theorem run_cons (done : List BoolExpr) (task : Task) (tasks : List Task) :
    run done (task :: tasks) = (step? done tasks task).bind (fun s => run s.1 s.2) := by
  cases task with
  | visit f =>
    rw [run, step?]
    split
    · cases ofNode? f [] <;> rfl
    · rfl
  | close f count =>
    rw [run, step?]
    cases ofNode? f (done.take count).reverse <;> rfl

/-- The first task leads from the first expressions and tasks to the second ones. -/
def Steps (s s' : List BoolExpr × List Task) : Prop :=
  ∃ task tasks, s.2 = task :: tasks ∧ step? s.1 tasks task = some s'

/-- The conversion of the formula gets to these expressions and tasks. -/
def Reaches (f : Formula) (done : List BoolExpr) (tasks : List Task) : Prop :=
  Relation.ReflTransGen Steps ([], [.visit f]) (done, tasks)

/-- What the conversion gets to leads to the result of the whole run. -/
theorem run_of_reaches {f : Formula} {done : List BoolExpr} {tasks : List Task}
    (h : Reaches f done tasks) : run done tasks = run [] [.visit f] := by
  have hall : ∀ s, Relation.ReflTransGen Steps ([], [.visit f]) s →
      run s.1 s.2 = run [] [.visit f] := by
    intro s hs
    induction hs with
    | refl => rfl
    | tail _ hstep ih =>
      obtain ⟨task, tasks, htasks, hstep⟩ := hstep
      rw [← ih, htasks, run_cons, hstep, Option.bind_some]
  exact hall _ h

/-- Each node that is put together finds the expressions of its operands on top of the others, if
every formula that is visited until then is replaced by its expression. -/
inductive Supplied : List BoolExpr → List Task → Prop
  | nil {done : List BoolExpr} : Supplied done []
  | visit {f : Formula} {done : List BoolExpr} {tasks : List Task}
      (rest : ∀ e, direct? f = some e → Supplied (e :: done) tasks) :
      Supplied done (.visit f :: tasks)
  | close {f : Formula} {es done : List BoolExpr} {tasks : List Task}
      (operands : directs? (operandsOf f) = some es)
      (rest : ∀ e, direct? f = some e → Supplied (e :: done) tasks) :
      Supplied (es.reverse ++ done) (.close f es.length :: tasks)

/-- While the operands of a node are visited, their expressions come on top of each other. -/
theorem supplied_operands {f : Formula} {fs gs : List Formula} (hf : operandsOf f = fs ++ gs)
    {es : List BoolExpr} (hes : directs? fs = some es) {done : List BoolExpr} {tasks : List Task}
    (rest : ∀ e, direct? f = some e → Supplied (e :: done) tasks) :
    Supplied (es.reverse ++ done)
      (gs.map .visit ++ .close f (operandsOf f).length :: tasks) := by
  induction gs generalizing fs es with
  | nil =>
    rw [List.append_nil] at hf
    rw [hf, (directs?_eq_some_iff.mp hes).length_eq]
    exact .close (hf ▸ hes) rest
  | cons g gs ih =>
    refine .visit (fun e he => ?_)
    have hnext : directs? (fs ++ [g]) = some (es ++ [e]) := by
      rw [directs?_append, hes, directs?, directs?, he]
      rfl
    have hsupplied := ih (by rw [hf, List.append_assoc, List.singleton_append]) hnext
    rwa [List.reverse_append] at hsupplied

theorem Supplied.step {done done' : List BoolExpr} {task : Task} {tasks tasks' : List Task}
    (h : Supplied done (task :: tasks)) (hstep : step? done tasks task = some (done', tasks')) :
    Supplied done' tasks' := by
  cases h with
  | @visit f _ _ rest =>
    rw [step?] at hstep
    split at hstep
    · next hempty =>
      obtain ⟨e, he, hs⟩ := Option.map_eq_some_iff.mp hstep
      obtain ⟨rfl, rfl⟩ := Prod.mk.inj hs
      apply rest
      rw [direct?_eq_operandsOf, List.isEmpty_iff.mp hempty]
      exact he
    · obtain ⟨rfl, rfl⟩ := Prod.mk.inj (Option.some.inj hstep)
      exact supplied_operands (List.nil_append _).symm rfl rest
  | @close f es done _ operands rest =>
    rw [step?, ← List.length_reverse, List.take_left, List.drop_left, List.reverse_reverse]
      at hstep
    obtain ⟨e, he, hs⟩ := Option.map_eq_some_iff.mp hstep
    obtain ⟨rfl, rfl⟩ := Prod.mk.inj hs
    apply rest
    rw [direct?_eq_operandsOf, operands]
    exact he

theorem supplied_of_reaches {f : Formula} {done : List BoolExpr} {tasks : List Task}
    (h : Reaches f done tasks) : Supplied done tasks := by
  have hall : ∀ s, Relation.ReflTransGen Steps ([], [.visit f]) s → Supplied s.1 s.2 := by
    intro s hs
    induction hs with
    | refl => exact .visit (fun e _ => .nil)
    | tail _ hstep ih =>
      obtain ⟨task, tasks, htasks, hstep⟩ := hstep
      rw [htasks] at ih
      exact ih.step hstep
  exact hall _ h

/-- The conversion of a formula gives the expression of the plain recursion, and one for every
formula without place holders. Whenever it puts a node together, it takes the expressions of just
the operands of that node from the stack. -/
theorem ofFormula?_spec (f : Formula) :
    ofFormula? f = direct? f ∧ ((∃ e, direct? f = some e) ↔ f.isPlain) ∧
      ∀ done tasks, Reaches f done tasks → run done tasks = run [] [.visit f] ∧
        ∀ g count rest, tasks = .close g count :: rest →
          ∃ es before, done = es.reverse ++ before ∧ count = es.length ∧
            List.Forall₂ (fun h e => direct? h = some e) (operandsOf g) es := by
  refine ⟨ofFormula?_eq f, exists_direct?_iff f, fun done tasks hreaches => ?_⟩
  refine ⟨run_of_reaches hreaches, ?_⟩
  rintro g count rest rfl
  cases supplied_of_reaches hreaches with
  | @close _ es before _ operands _ =>
    exact ⟨es, before, rfl, rfl, directs?_eq_some_iff.mp operands⟩

/-- A disjunction of one conjunction is no disjunction, so it is joined to the conjunction around
it, though it is not spliced in. -/
example : ofFormula? (.conj [.disj [.conj [.literal "B", .literal "A"]], .disj [.literal "B"]]) =
    some (.junction .all [.var "A", .var "B"]) := by cbv

end Variability.BoolExpr
