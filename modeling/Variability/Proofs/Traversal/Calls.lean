import Variability.Proofs.FeatureModel.Children
import Variability.Proofs.FeatureModel.Reachable

/-!
The calls that a traversal makes.

Labels may repeat in a tree, so a node is told by its position: the places of
its ancestors and its own among their siblings, from the root downwards. The
recursion over the tree makes its calls at positions (`calls`); a visitor with a
record shows the calls that the list of steps makes.

What is proved (`traverse_calls`), for every tree and every visitor:
  1. The calls of the steps are those of the recursion, with the same paths and
     the same answers, and recording them changes nothing (`visit_recorded`).
  2. An action that ends the traversal is the answer to the last call
     (`stops_visit`).
  3. The path of a call is the chain of labels from the node at its position to
     the root (`chain_of_mem_calls`).
  4. If every call goes on, every node is entered once and left once, and there
     are no other calls (`visitCount_calls`).
  5. The trees of feature models have the children of each node group by group.
-/

namespace Variability

universe u v

variable {α : Type u} {σ : Type v}

/-- The labels from the node at a position up to the root, if the position leads to a node. -/
def Tree.chain? (t : Tree α) : List Nat → Option (List α)
  | [] => some [t.label]
  | k :: position => (t.children[k]?.bind (fun s => s.chain? position)).map (· ++ [t.label])

namespace Traversal

/-! ## Calls -/

/-- When a node is visited. -/
inductive Moment where
  | entering
  | leaving
deriving DecidableEq, Repr

/-- A call of a visitor, with the action that it answers. -/
structure Call (α : Type u) where
  moment : Moment
  path : List α
  action : Action
deriving DecidableEq, Repr

/-- What the visitor does at a moment. -/
def Visitor.visitAt (v : Visitor α σ) : Moment → List α → σ → Action × σ
  | .entering => v.enter
  | .leaving => v.leave

/-- The call that the visitor gets at a moment. -/
def Visitor.callAt (v : Visitor α σ) (moment : Moment) (path : List α) (state : σ) : Call α :=
  ⟨moment, path, (v.visitAt moment path state).1⟩

/-- What the visitor does at a moment, with the call added to a record. -/
def Visitor.recordAt (v : Visitor α σ) (moment : Moment) (path : List α)
    (s : List (Call α) × σ) : Action × List (Call α) × σ :=
  ((v.visitAt moment path s.2).1, s.1 ++ [v.callAt moment path s.2],
    (v.visitAt moment path s.2).2)

/-- The visitor with a record of its calls, the earliest first. -/
def Visitor.recorded (v : Visitor α σ) : Visitor α (List (Call α) × σ) where
  reset s := (s.1, v.reset s.2)
  enter := v.recordAt .entering
  leave := v.recordAt .leaving

/-- A call at a position of the tree below the `k`-th child. -/
def below (k : Nat) (c : List Nat × Call α) : List Nat × Call α := (k :: c.1, c.2)

mutual

/-- The calls of a visit of a tree below the nodes of a path, with their positions. A node is
entered. If the visitor proceeds, the children are visited from left to right, and the node is left
after them, unless one of these visits ends the traversal; if the children are skipped, the node is
left at once; otherwise there is no further call. -/
def calls (v : Visitor α σ) (path : List α) (state : σ) : Tree α → List (List Nat × Call α)
  | .node a ts =>
    ([], v.callAt .entering (a :: path) state) ::
      match v.enter (a :: path) state with
      | (.proceed, state) =>
        callsBelow v (a :: path) state 0 ts ++
          match visits v (a :: path) state ts with
          | .ok state => [([], v.callAt .leaving (a :: path) state)]
          | .error _ => []
      | (.skipChildren, state) => [([], v.callAt .leaving (a :: path) state)]
      | (_, _) => []

/-- The calls of visits of the children from the `k`-th on, until one ends the traversal. -/
def callsBelow (v : Visitor α σ) (path : List α) (state : σ) (k : Nat) :
    List (Tree α) → List (List Nat × Call α)
  | [] => []
  | t :: ts =>
    (calls v path state t).map (below k) ++
      match visit v path state t with
      | .ok state => callsBelow v path state (k + 1) ts
      | .error _ => []

end

variable (v : Visitor α σ)

/-- A call of a child is one of a visit of that child. -/
theorem exists_of_mem_callsBelow {path : List α} {state : σ} {k : Nat} {ts : List (Tree α)}
    {c : List Nat × Call α} (h : c ∈ callsBelow v path state k ts) :
    ∃ j t s, ts[j]? = some t ∧ ∃ c' ∈ calls v path s t, c = below (k + j) c' := by
  induction ts generalizing state k with
  | nil => cases h
  | cons t ts ih =>
    rw [callsBelow] at h
    rcases List.mem_append.mp h with h | h
    · obtain ⟨c', hc', rfl⟩ := List.mem_map.mp h
      exact ⟨0, t, state, rfl, c', hc', rfl⟩
    · cases hv : visit v path state t with
      | error s => simp [hv] at h
      | ok s =>
        rw [hv] at h
        obtain ⟨j, t', s', ht', c', hc', rfl⟩ := ih h
        refine ⟨j + 1, t', s', ht', c', hc', ?_⟩
        rw [Nat.add_right_comm, Nat.add_assoc]

/-- A call is one of the node itself, or of one of its children. -/
theorem mem_calls_cases {path : List α} {state : σ} {a : α} {ts : List (Tree α)}
    {c : List Nat × Call α} (h : c ∈ calls v path state (.node a ts)) :
    (c.1 = [] ∧ c.2.path = a :: path) ∨ ∃ s, c ∈ callsBelow v (a :: path) s 0 ts := by
  rw [calls] at h
  rcases List.mem_cons.mp h with rfl | h
  · exact Or.inl ⟨rfl, rfl⟩
  · rcases he : v.enter (a :: path) state with ⟨action, s⟩
    rw [he] at h
    cases action with
    | proceed =>
      rcases List.mem_append.mp h with h | h
      · exact Or.inr ⟨s, h⟩
      · cases hv : visits v (a :: path) s ts with
        | error s' => simp [hv] at h
        | ok s' =>
          rw [hv] at h
          rw [List.mem_singleton.mp h]
          exact Or.inl ⟨rfl, rfl⟩
    | skipChildren =>
      rw [List.mem_singleton.mp h]
      exact Or.inl ⟨rfl, rfl⟩
    | skipAll | fail => cases h

/-! ## The record of the steps -/

/-- The end of a recursion, with a record. -/
def withRecord (log : List (Call α)) :
    Except σ σ → Except (List (Call α) × σ) (List (Call α) × σ)
  | .ok state => .ok (log, state)
  | .error state => .error (log, state)

theorem finish_recorded (path : List α) (log : List (Call α)) (state : σ) :
    v.recorded.finish path (log, state) =
      withRecord (log ++ [v.callAt .leaving path state]) (v.finish path state) := by
  have hleave : v.recorded.leave path (log, state) =
      ((v.leave path state).1, log ++ [v.callAt .leaving path state], (v.leave path state).2) := rfl
  rw [Visitor.finish, Visitor.finish, hleave]
  rcases v.leave path state with ⟨action, s⟩
  cases action <;> rfl

/-- The children are recorded, if each of them is. -/
theorem visits_recorded_of {ts : List (Tree α)}
    (h : ∀ t ∈ ts, ∀ path log state, visit v.recorded path (log, state) t =
      withRecord (log ++ (calls v path state t).map Prod.snd) (visit v path state t))
    (path : List α) (log : List (Call α)) (state : σ) (k : Nat) :
    visits v.recorded path (log, state) ts =
      withRecord (log ++ (callsBelow v path state k ts).map Prod.snd)
        (visits v path state ts) := by
  induction ts generalizing log state k with
  | nil =>
    rw [visits, visits, callsBelow, List.map_nil, List.append_nil]
    rfl
  | cons t ts ih =>
    obtain ⟨ht, hts⟩ := List.forall_mem_cons.mp h
    -- The record does not show positions.
    have hbelow : Prod.snd ∘ below k = (Prod.snd : List Nat × Call α → Call α) := rfl
    rw [visits, ht, visits, callsBelow, List.map_append, List.map_map, hbelow]
    cases visit v path state t with
    | error s =>
      rw [List.map_nil, List.append_nil]
      rfl
    | ok s =>
      rw [← List.append_assoc]
      exact ih hts _ s (k + 1)

/-- The recursion with a record makes the calls of the recursion, and ends as that does. -/
theorem visit_recorded (t : Tree α) : ∀ path log state,
    visit v.recorded path (log, state) t =
      withRecord (log ++ (calls v path state t).map Prod.snd) (visit v path state t) := by
  induction t with
  | node a ts ih =>
    intro path log state
    have henter : v.recorded.enter (a :: path) (log, state) =
        ((v.enter (a :: path) state).1, log ++ [v.callAt .entering (a :: path) state],
          (v.enter (a :: path) state).2) := rfl
    rw [visit, visit, calls, henter]
    rcases v.enter (a :: path) state with ⟨action, s⟩
    cases action with
    | proceed =>
      simp only [visits_recorded_of v ih (a :: path) _ s 0]
      cases visits v (a :: path) s ts with
      | error s' =>
        simp only [withRecord, List.map_cons, List.append_nil, List.append_assoc,
          List.singleton_append]
      | ok s' =>
        refine (finish_recorded v (a :: path) _ s').trans (congrArg (withRecord · _) ?_)
        simp only [List.map_cons, List.map_append, List.map_nil, List.append_assoc,
          List.cons_append, List.nil_append]
    | skipChildren =>
      refine (finish_recorded v (a :: path) _ s).trans (congrArg (withRecord · _) ?_)
      rw [List.append_assoc]
      rfl
    | skipAll | fail => rfl

/-! ## The last call -/

/-- None of the calls ends the traversal if it goes on after them; otherwise just the last does. -/
def Stops (cs : List (List Nat × Call α)) : Except σ σ → Prop
  | .ok _ => ∀ c ∈ cs, c.2.action.ends = false
  | .error _ => ∃ before last, cs = before ++ [last] ∧ last.2.action.ends = true ∧
      ∀ c ∈ before, c.2.action.ends = false

namespace Stops

variable {cs cs' : List (List Nat × Call α)} {outcome : Except σ σ}

theorem prepend (h : ∀ c ∈ cs, c.2.action.ends = false) (h' : Stops cs' outcome) :
    Stops (cs ++ cs') outcome := by
  cases outcome with
  | ok s => exact List.forall_mem_append.mpr ⟨h, h'⟩
  | error s =>
    obtain ⟨before, last, rfl, hlast, hbefore⟩ := h'
    refine ⟨cs ++ before, last, (List.append_assoc ..).symm, hlast, ?_⟩
    exact List.forall_mem_append.mpr ⟨h, hbefore⟩

theorem map_below (h : Stops cs outcome) (k : Nat) : Stops (cs.map (below k)) outcome := by
  cases outcome with
  | ok s => exact List.forall_mem_map.mpr h
  | error s =>
    obtain ⟨before, last, rfl, hlast, hbefore⟩ := h
    exact ⟨before.map (below k), below k last, List.map_append, hlast,
      List.forall_mem_map.mpr hbefore⟩

theorem dropLast (h : Stops cs outcome) : ∀ c ∈ cs.dropLast, c.2.action.ends = false := by
  cases outcome with
  | ok s => exact fun c hc => h c (List.dropLast_subset cs hc)
  | error s =>
    obtain ⟨before, last, rfl, -, hbefore⟩ := h
    rwa [List.dropLast_concat]

end Stops

theorem stops_leaving (path : List α) (state : σ) :
    Stops [([], v.callAt .leaving path state)] (v.finish path state) := by
  have haction : (v.callAt .leaving path state).action = (v.leave path state).1 := rfl
  rw [Visitor.finish]
  rcases hl : v.leave path state with ⟨action, s⟩
  rw [hl] at haction
  cases action with
  | proceed | skipChildren => exact List.forall_mem_singleton.mpr (by rw [haction]; rfl)
  | skipAll | fail =>
    exact ⟨[], _, rfl, by rw [haction]; rfl, List.forall_mem_nil _⟩

theorem stops_visits_of {ts : List (Tree α)}
    (h : ∀ t ∈ ts, ∀ path state, Stops (calls v path state t) (visit v path state t))
    (path : List α) (state : σ) (k : Nat) :
    Stops (callsBelow v path state k ts) (visits v path state ts) := by
  induction ts generalizing state k with
  | nil => exact List.forall_mem_nil _
  | cons t ts ih =>
    obtain ⟨ht, hts⟩ := List.forall_mem_cons.mp h
    have hstops := (ht path state).map_below k
    rw [callsBelow, visits]
    cases hv : visit v path state t with
    | error s =>
      rw [hv] at hstops
      rwa [List.append_nil]
    | ok s =>
      rw [hv] at hstops
      exact Stops.prepend hstops (ih hts s (k + 1))

/-- The recursion ends the traversal iff the action of its last call does. -/
theorem stops_visit (t : Tree α) : ∀ path state,
    Stops (calls v path state t) (visit v path state t) := by
  induction t with
  | node a ts ih =>
    intro path state
    have haction : (v.callAt .entering (a :: path) state).action =
        (v.enter (a :: path) state).1 := rfl
    rw [calls, visit, ← List.singleton_append]
    rcases he : v.enter (a :: path) state with ⟨action, s⟩
    rw [he] at haction
    have hentered (h : action.ends = false) :
        ∀ c ∈ [(([] : List Nat), v.callAt .entering (a :: path) state)],
          c.2.action.ends = false :=
      List.forall_mem_singleton.mpr (by rw [haction, h])
    cases action with
    | proceed =>
      refine Stops.prepend (hentered rfl) ?_
      have hstops := stops_visits_of v ih (a :: path) s 0
      cases hv : visits v (a :: path) s ts with
      | error s' =>
        rw [hv] at hstops
        simpa only [hv, List.append_nil] using hstops
      | ok s' =>
        rw [hv] at hstops
        simpa only [hv] using Stops.prepend hstops (stops_leaving v (a :: path) s')
    | skipChildren => exact Stops.prepend (hentered rfl) (stops_leaving v (a :: path) s)
    | skipAll | fail =>
      exact ⟨[], _, rfl, by rw [haction]; rfl, List.forall_mem_nil _⟩

/-! ## Paths -/

/-- The path of a call is the chain of its node, in front of the path of the visit. -/
theorem chain_of_mem_calls (t : Tree α) : ∀ path state, ∀ c ∈ calls v path state t,
    (t.chain? c.1).map (· ++ path) = some c.2.path := by
  induction t with
  | node a ts ih =>
    intro path state c hc
    rcases mem_calls_cases v hc with ⟨hposition, hpath⟩ | ⟨s, hc⟩
    · rw [hposition, hpath]
      rfl
    · obtain ⟨j, t, s', ht, c', hc', rfl⟩ := exists_of_mem_callsBelow v hc
      have hchain := ih t (List.mem_of_getElem? ht) (a :: path) s' c' hc'
      obtain ⟨labels, hlabels, hpath⟩ := Option.map_eq_some_iff.mp hchain
      -- The label of the node comes between the chain below it and the path.
      have hnode : (Tree.node a ts).chain? (j :: c'.1) = some (labels ++ [a]) := by
        rw [Tree.chain?, Tree.children, ht, Option.bind_some, hlabels]
        rfl
      rw [below, Nat.zero_add, hnode, Option.map_some, List.append_assoc, ← hpath]
      rfl

/-! ## Visitors that always go on -/

/-- How often the node at a position is visited at a moment. -/
def visitCount (moment : Moment) (position : List Nat) (cs : List (List Nat × Call α)) : Nat :=
  cs.countP (fun c => c.1 = position ∧ c.2.moment = moment)

theorem visitCount_append (moment : Moment) (position : List Nat)
    (cs cs' : List (List Nat × Call α)) :
    visitCount moment position (cs ++ cs') =
      visitCount moment position cs + visitCount moment position cs' := List.countP_append

theorem visitCount_below (moment : Moment) (k : Nat) (position : List Nat)
    (cs : List (List Nat × Call α)) :
    visitCount moment (k :: position) (cs.map (below k)) = visitCount moment position cs := by
  rw [visitCount, List.countP_map, visitCount]
  refine List.countP_congr (fun c _ => ?_)
  simp only [Function.comp_apply, below, List.cons.injEq, true_and]

theorem visitCount_eq_zero {moment : Moment} {position : List Nat}
    {cs : List (List Nat × Call α)} (h : ∀ c ∈ cs, c.1 ≠ position) :
    visitCount moment position cs = 0 := by
  rw [visitCount, List.countP_eq_zero]
  intro c hc
  simp [h c hc]

/-- Whatever the path and the state, the visitor goes on. -/
def Visitor.GoesOn (v : Visitor α σ) : Prop :=
  ∀ path state, (v.enter path state).1 = .proceed ∧ (v.leave path state).1.ends = false

variable {v}

/-- The visit of a node whose children let the traversal go on. -/
theorem exists_visit_node (h : v.GoesOn) {a : α} {ts : List (Tree α)}
    (hts : ∀ path state, ∃ s, visits v path state ts = .ok s) (path : List α) (state : σ) :
    (∃ s, visit v path state (.node a ts) = .ok s) ∧
      ∃ s s', calls v path state (.node a ts) =
        ([], v.callAt .entering (a :: path) state) ::
          (callsBelow v (a :: path) s 0 ts ++ [([], v.callAt .leaving (a :: path) s')]) := by
  have hproceed := (h (a :: path) state).1
  rw [visit, calls]
  rcases he : v.enter (a :: path) state with ⟨action, s⟩
  rw [he] at hproceed
  obtain rfl : action = .proceed := hproceed
  obtain ⟨s', hs'⟩ := hts (a :: path) s
  simp only [hs', Visitor.finish, (h (a :: path) s').2]
  exact ⟨⟨_, rfl⟩, s, s', rfl⟩

theorem exists_visits_of {ts : List (Tree α)}
    (h : ∀ t ∈ ts, ∀ path state, ∃ s, visit v path state t = .ok s) (path : List α)
    (state : σ) : ∃ s, visits v path state ts = .ok s := by
  induction ts generalizing state with
  | nil => exact ⟨state, rfl⟩
  | cons t ts ih =>
    obtain ⟨ht, hts⟩ := List.forall_mem_cons.mp h
    obtain ⟨s, hs⟩ := ht path state
    rw [visits, hs]
    exact ih hts s

theorem exists_visit (h : v.GoesOn) (t : Tree α) : ∀ path state,
    ∃ s, visit v path state t = .ok s := by
  induction t with
  | node a ts ih =>
    exact fun path state => (exists_visit_node h (exists_visits_of ih) path state).1

/-- The `j`-th of the children is visited as often as on its own. -/
theorem visitCount_callsBelow (h : v.GoesOn) {ts : List (Tree α)} {moment : Moment}
    (hts : ∀ t ∈ ts, ∀ path state position,
      visitCount moment position (calls v path state t) =
        if (t.chain? position).isSome then 1 else 0)
    (path : List α) (state : σ) (k j : Nat) (position : List Nat) :
    visitCount moment ((k + j) :: position) (callsBelow v path state k ts) =
      if (ts[j]?.bind (fun t => t.chain? position)).isSome then 1 else 0 := by
  induction ts generalizing state k j with
  | nil => rfl
  | cons t ts ih =>
    obtain ⟨ht, hts⟩ := List.forall_mem_cons.mp hts
    obtain ⟨s, hs⟩ := exists_visit h t path state
    rw [callsBelow, hs, visitCount_append]
    cases j with
    | zero =>
      -- The children after the first one have greater places.
      have hothers : visitCount moment (k :: position) (callsBelow v path s (k + 1) ts) = 0 := by
        refine visitCount_eq_zero (fun c hc => ?_)
        obtain ⟨j, t', s', -, c', -, rfl⟩ := exists_of_mem_callsBelow v hc
        intro he
        have hhead : k + 1 + j = k := (List.cons.inj he).1
        omega
      rw [Nat.add_zero, visitCount_below, ht, hothers, Nat.add_zero]
      rfl
    | succ j =>
      have hfirst : visitCount moment ((k + (j + 1)) :: position)
          ((calls v path state t).map (below k)) = 0 := by
        refine visitCount_eq_zero (fun c hc => ?_)
        obtain ⟨c', -, rfl⟩ := List.mem_map.mp hc
        intro he
        have hhead : k = k + (j + 1) := (List.cons.inj he).1
        omega
      have hplace : k + (j + 1) = k + 1 + j := by omega
      rw [hfirst, Nat.zero_add, hplace, ih hts, List.getElem?_cons_succ]

/-- Every node is entered once and left once, and nothing else is visited. -/
theorem visitCount_calls (h : v.GoesOn) (moment : Moment) (t : Tree α) : ∀ path state position,
    visitCount moment position (calls v path state t) =
      if (t.chain? position).isSome then 1 else 0 := by
  induction t with
  | node a ts ih =>
    intro path state position
    obtain ⟨-, s, s', hcalls⟩ :=
      exists_visit_node (a := a) h (exists_visits_of (fun t _ => exists_visit h t)) path state
    rw [hcalls, ← List.singleton_append, visitCount_append, visitCount_append]
    cases position with
    | nil =>
      have hchildren : visitCount moment [] (callsBelow v (a :: path) s 0 ts) = 0 := by
        refine visitCount_eq_zero (fun c hc => ?_)
        obtain ⟨j, t', s', -, c', -, rfl⟩ := exists_of_mem_callsBelow v hc
        exact List.cons_ne_nil _ _
      rw [hchildren]
      cases moment <;> rfl
    | cons k position =>
      have hnode : ∀ (moment' : Moment) (state : σ), visitCount moment (k :: position)
          [(([] : List Nat), v.callAt moment' (a :: path) state)] = 0 :=
        fun moment' state => visitCount_eq_zero
          (List.forall_mem_singleton.mpr (List.cons_ne_nil _ _).symm)
      have hchildren := visitCount_callsBelow h ih (a :: path) s 0 k position
      rw [Nat.zero_add] at hchildren
      rw [hnode, hnode, hchildren, Nat.zero_add, Nat.add_zero, Tree.chain?, Option.isSome_map]
      rfl

end Traversal

open Traversal

/-- The calls of the recursion over a whole tree. -/
def Tree.calls (t : Tree α) (v : Visitor α σ) (state : σ) : List (List Nat × Call α) :=
  Traversal.calls v [] (v.reset state) t

/-- A traversal makes the calls of the recursion, in its order, with the same paths and answers, and
comes to the same state whether the calls are recorded or not. Only the last call may end the
traversal. The path of every call is the chain of labels from the node that is visited to the root.
If the visitor always goes on, every node is entered once and left once, and there are no other
calls. The children of a node of a feature model are visited group by group. -/
theorem Tree.traverse_calls (t : Tree α) (v : Visitor α σ) (log : List (Call α)) (state : σ) :
    t.traverse v.recorded (log, state) =
        (log ++ (t.calls v state).map Prod.snd, t.traverse v state) ∧
      (∀ c ∈ (t.calls v state).dropLast, c.2.action.ends = false) ∧
      (∀ c ∈ t.calls v state, t.chain? c.1 = some c.2.path) ∧
      (v.GoesOn → ∀ moment position, visitCount moment position (t.calls v state) =
        if (t.chain? position).isSome then 1 else 0) ∧
      ∀ m : FeatureModel, m.Reachable → ∀ i, m.subtree i =
        .node i (((m.groupsOf i).flatMap Group.children).map m.subtree) := by
  refine ⟨?_, (stops_visit v t [] (v.reset state)).dropLast, fun c hc => ?_,
    fun h moment position => visitCount_calls h moment t [] (v.reset state) position,
    fun m hm i => ?_⟩
  · have hreset : v.recorded.reset (log, state) = (log, v.reset state) := rfl
    rw [Tree.traverse_eq, Tree.traverse_eq, hreset, visit_recorded, Tree.calls]
    cases visit v [] (v.reset state) t <;> rfl
  · have hchain := chain_of_mem_calls v t [] (v.reset state) c hc
    simpa only [List.append_nil, Option.map_id'] using hchain
  · rw [hm.wellFormed.subtree_eq, FeatureModel.childrenOf_eq_flatMap]

/-- Two children with the same label are told apart, and a third one that does not exist is not
visited. -/
theorem Tree.traverse_calls_sameLabel :
    ∃ (v : Visitor String Nat) (t : Tree String) (m : FeatureModel),
      v.GoesOn ∧ m.Reachable ∧ t.chain? [0] = t.chain? [1] ∧
      visitCount .leaving [0] (t.calls v 0) = 1 ∧ visitCount .leaving [1] (t.calls v 0) = 1 ∧
      visitCount .leaving [2] (t.calls v 0) = 0 ∧ m.subtree 0 = .node 0 [m.subtree 1] := by
  let v : Visitor String Nat :=
    { enter := fun _ n => (.proceed, n + 1), leave := fun _ n => (.skipChildren, n + 1) }
  let t : Tree String := .node "A" [.node "B" [], .node "B" []]
  let m := FeatureModel.run {} [.addRoot (.registered (some "A")),
    .addBelow 0 (.registered (some "B")) 0]
  have hv : v.GoesOn := fun _ _ => ⟨rfl, rfl⟩
  have hm : m.Reachable := ⟨_, rfl⟩
  have hzero : (m.groupsOf 0).flatMap Group.children = [1] := by decide
  obtain ⟨-, -, -, hcount, hgroups⟩ := Tree.traverse_calls t v [] 0
  refine ⟨v, t, m, hv, hm, rfl, hcount hv .leaving [0], hcount hv .leaving [1],
    hcount hv .leaving [2], ?_⟩
  rw [hgroups m hm, hzero, List.map_singleton]

/-- The children of the first child are skipped, and leaving the second one ends the traversal. -/
example :
    let v : Visitor Nat Unit :=
      { enter := fun path s => (if path.head? = some 1 then .skipChildren else .proceed, s)
        leave := fun path s => (if path.head? = some 3 then .skipAll else .proceed, s) }
    ((Tree.node 0 [.node 1 [.node 2 []], .node 3 [], .node 4 []]).calls v ()).map
        (fun c => (c.2.moment, c.2.path)) =
      [(.entering, [0]), (.entering, [1, 0]), (.leaving, [1, 0]), (.entering, [3, 0]),
        (.leaving, [3, 0])] := by decide

end Variability
