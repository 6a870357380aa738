import Mathlib.Data.Fintype.Card
import Mathlib.Data.List.Nodup
import Variability.Document
import Variability.Proofs.Traversal

/-!
The tree of features below a feature of a document.

Features may be members of several groups or lie below themselves, so there
may be several paths to a feature, or infinitely many. A tree unfolds a feature
if its nodes have the children that the features have (`Unfolds`).

What is proved, for any names of the features:
  1. If different paths from a feature lead to different names, there is a tree
     that unfolds the feature (`exists_unfolds`).
  2. The names in a tree are all different iff different paths lead to
     different names (`nodup_order_iff`), and the features in it are those at
     the ends of paths (`mem_order_iff`).
-/

namespace Variability

universe u v

namespace Tree

variable {α : Type u}

mutual

/-- The labels below the topmost node in the order in which a stack meets them: first those of its
children, then what is below the last child, and what is below the first child at the end. -/
def expand : Tree α → List α
  | node _ ts => ts.map label ++ expandBackwards ts

/-- What is below the topmost nodes of a list of trees, the last tree first. -/
def expandBackwards : List (Tree α) → List α
  | [] => []
  | t :: ts => expandBackwards ts ++ t.expand

end

theorem expandBackwards_eq (ts : List (Tree α)) :
    expandBackwards ts = ts.reverse.flatMap expand := by
  induction ts with
  | nil => rfl
  | cons t ts ih =>
    rw [expandBackwards, ih, List.reverse_cons, List.flatMap_append, List.flatMap_singleton]

theorem expand_node (a : α) (ts : List (Tree α)) :
    (node a ts).expand = ts.map label ++ ts.reverse.flatMap expand := by
  rw [expand, expandBackwards_eq]

/-- A stack goes on with the trees below a node, the last one first. -/
theorem flatMap_expand_cons (a : α) (ts us : List (Tree α)) :
    (node a ts :: us).flatMap expand = ts.map label ++ (ts.reverse ++ us).flatMap expand := by
  rw [List.flatMap_cons, expand_node, List.flatMap_append, List.append_assoc]

/-- The labels of a tree, that of the topmost node first. -/
def order (t : Tree α) : List α := t.label :: t.expand

theorem append_expand_singleton (t : Tree α) : [t.label] ++ [t].flatMap expand = t.order := by
  rw [List.flatMap_singleton, order, List.singleton_append]

/-- The labels of a tree are that of its topmost node and those of the trees below it. -/
theorem order_perm (a : α) (ts : List (Tree α)) :
    (node a ts).order.Perm (a :: ts.flatMap order) := by
  have hchildren : ∀ ts : List (Tree α),
      (ts.map label ++ ts.flatMap expand).Perm (ts.flatMap order) := by
    intro ts
    induction ts with
    | nil => exact .refl _
    | cons t ts ih =>
      rw [List.map_cons, List.flatMap_cons, List.flatMap_cons, order, List.cons_append,
        List.cons_append]
      refine .cons _ ?_
      calc (ts.map label ++ (t.expand ++ ts.flatMap expand)).Perm
            (t.expand ++ (ts.map label ++ ts.flatMap expand)) := List.perm_append_comm_assoc ..
        _ |>.Perm (t.expand ++ ts.flatMap order) := ih.append_left _
  rw [order, expand_node]
  refine .cons a (.trans ?_ (hchildren ts))
  exact .append_left _ ((List.reverse_perm ts).flatMap_right expand)

theorem mem_order_node {a b : α} {ts : List (Tree α)} :
    b ∈ (node a ts).order ↔ b = a ∨ ∃ t ∈ ts, b ∈ t.order := by
  rw [(order_perm a ts).mem_iff, List.mem_cons, List.mem_flatMap]

end Tree

namespace Document

variable (d : Document)

/-- The name of a feature in the whole document. -/
def nameOf (i : Fin d.count) : Option String := (d.feature i).fullName

/-- The members of the groups of a feature, group by group. -/
def childrenOf (i : Fin d.count) : List (Fin d.count) := (d.feature i).groups.flatMap Group.members

/-- The feature at the end of a path from a feature; a path names the place of each next feature
among the children of the one before it. -/
def walk? (i : Fin d.count) : List Nat → Option (Fin d.count)
  | [] => some i
  | k :: ks => (d.childrenOf i)[k]?.bind (fun j => walk? j ks)

/-- A path leads from the root to the feature. -/
def Reached (i : Fin d.count) : Prop := ∃ path, d.walk? d.root path = some i

/-- The children of each node are those of its feature. -/
inductive Unfolds : Tree (Fin d.count) → Prop
  | node {i : Fin d.count} {ts : List (Tree (Fin d.count))}
      (children : ts.map Tree.label = d.childrenOf i) (below : ∀ t ∈ ts, Unfolds t) :
      Unfolds (.node i ts)

variable {d}

theorem walk?_append (i : Fin d.count) (p q : List Nat) :
    d.walk? i (p ++ q) = (d.walk? i p).bind (fun j => d.walk? j q) := by
  induction p generalizing i with
  | nil => rfl
  | cons k p ih =>
    rw [List.cons_append, walk?, walk?, Option.bind_assoc]
    exact congrArg _ (funext fun j => ih j)

theorem walk?_concat {i j : Fin d.count} {p : List Nat} (hp : d.walk? i p = some j) (k : Nat) :
    d.walk? i (p ++ [k]) = (d.childrenOf j)[k]? := by
  rw [walk?_append, hp, Option.bind_some, walk?]
  simp [walk?]

theorem reached_root : d.Reached d.root := ⟨[], rfl⟩

theorem Reached.child {i j : Fin d.count} (h : d.Reached i) (hj : j ∈ d.childrenOf i) :
    d.Reached j := by
  obtain ⟨p, hp⟩ := h
  obtain ⟨k, hk⟩ := List.mem_iff_getElem?.mp hj
  exact ⟨p ++ [k], (walk?_concat hp k).trans hk⟩

/-- What holds of the root, and of the children of every feature that it holds of, holds of all
features that are reached. -/
theorem Reached.induction {motive : Fin d.count → Prop} (root : motive d.root)
    (step : ∀ i j, d.Reached i → motive i → j ∈ d.childrenOf i → motive j) {i : Fin d.count}
    (h : d.Reached i) : motive i := by
  obtain ⟨p, hp⟩ := h
  -- A path is longer by its last step, so the induction is from the end of the path.
  induction p using List.reverseRecOn generalizing i with
  | nil => exact Option.some.inj hp ▸ root
  | append_singleton p k ih =>
    rw [walk?_append] at hp
    obtain ⟨j, hj, hk⟩ := Option.bind_eq_some_iff.mp hp
    rw [walk?, Option.bind_eq_some_iff] at hk
    obtain ⟨i', hi', hend⟩ := hk
    obtain rfl := Option.some.inj hend
    exact step j i' ⟨p, hj⟩ (ih hj) (List.mem_of_getElem? hi')

/-! ## Paths in a tree -/

/-- A step of a path goes to one of the trees below the topmost node. -/
theorem exists_below {i : Fin d.count} {ts : List (Tree (Fin d.count))}
    (hchildren : ts.map Tree.label = d.childrenOf i) {k : Nat} {p : List Nat} {j : Fin d.count}
    (h : d.walk? i (k :: p) = some j) : ∃ t, ts[k]? = some t ∧ d.walk? t.label p = some j := by
  obtain ⟨i', hi', hp⟩ := Option.bind_eq_some_iff.mp h
  rw [← hchildren, List.getElem?_map, Option.map_eq_some_iff] at hi'
  obtain ⟨t, ht, rfl⟩ := hi'
  exact ⟨t, ht, hp⟩

/-- The features of a tree are those at the ends of the paths. -/
theorem mem_order_iff {t : Tree (Fin d.count)} (h : d.Unfolds t) {j : Fin d.count} :
    j ∈ t.order ↔ ∃ p, d.walk? t.label p = some j := by
  induction h with
  | @node i ts hchildren _ ih =>
    rw [Tree.mem_order_node]
    constructor
    · rintro (rfl | ⟨t, ht, hj⟩)
      · exact ⟨[], rfl⟩
      · obtain ⟨p, hp⟩ := (ih t ht).mp hj
        obtain ⟨k, hk⟩ := List.mem_iff_getElem?.mp ht
        refine ⟨k :: p, ?_⟩
        rw [Tree.label, walk?, ← hchildren, List.getElem?_map, hk]
        exact hp
    · rintro ⟨p, hp⟩
      cases p with
      | nil => exact Or.inl (Option.some.inj hp).symm
      | cons k p =>
        obtain ⟨t, ht, hp⟩ := exists_below hchildren hp
        have hmem := List.mem_of_getElem? ht
        exact Or.inr ⟨t, hmem, (ih t hmem).mpr ⟨p, hp⟩⟩

section
variable {β : Type v} (name : Fin d.count → β)

/-- Different paths from the feature lead to different names. -/
def DistinctFrom (i : Fin d.count) : Prop :=
  ∀ p q j j', d.walk? i p = some j → d.walk? i q = some j' → name j = name j' → p = q

variable {name}

theorem DistinctFrom.child {i : Fin d.count} (h : DistinctFrom name i) {k : Nat}
    {j : Fin d.count} (hk : (d.childrenOf i)[k]? = some j) : DistinctFrom name j := by
  intro p q i₁ i₂ hp hq hname
  have hstep (r : List Nat) : d.walk? i (k :: r) = d.walk? j r := by
    rw [walk?, hk, Option.bind_some]
  have hpaths := h (k :: p) (k :: q) i₁ i₂ (by rw [hstep, hp]) (by rw [hstep, hq]) hname
  exact List.tail_eq_of_cons_eq hpaths

theorem distinctFrom_of_nodup {t : Tree (Fin d.count)} (h : d.Unfolds t)
    (hnodup : (t.order.map name).Nodup) : DistinctFrom name t.label := by
  induction h with
  | @node i ts hchildren hbelow ih =>
    rw [((Tree.order_perm i ts).map name).nodup_iff, List.map_cons, List.nodup_cons,
      List.map_flatMap, List.nodup_flatMap, List.pairwise_iff_getElem] at hnodup
    obtain ⟨htop, heach, hpairs⟩ := hnodup
    have hends {t : Tree (Fin d.count)} (ht : t ∈ ts) {p : List Nat} {j : Fin d.count}
        (hp : d.walk? t.label p = some j) : name j ∈ t.order.map name :=
      List.mem_map_of_mem ((mem_order_iff (hbelow t ht)).mpr ⟨p, hp⟩)
    -- The end of a path with a step has another name than the feature itself.
    have hlater {k : Nat} {p : List Nat} {j : Fin d.count}
        (hp : d.walk? i (k :: p) = some j) : name j ≠ name i := by
      intro hname
      obtain ⟨t, ht, hp⟩ := exists_below hchildren hp
      have hmem := List.mem_of_getElem? ht
      exact htop (List.mem_flatMap.mpr ⟨t, hmem, hname ▸ hends hmem hp⟩)
    intro p q j j' hp hq hname
    match p, q with
    | [], [] => rfl
    | [], l :: q =>
      obtain rfl := Option.some.inj hp
      exact absurd hname.symm (hlater hq)
    | k :: p, [] =>
      obtain rfl := Option.some.inj hq
      exact absurd hname (hlater hp)
    | k :: p, l :: q =>
      obtain ⟨t, ht, hp⟩ := exists_below hchildren hp
      obtain ⟨t', ht', hq⟩ := exists_below hchildren hq
      obtain ⟨hk, rfl⟩ := List.getElem?_eq_some_iff.mp ht
      obtain ⟨hl, rfl⟩ := List.getElem?_eq_some_iff.mp ht'
      have hj := hends (List.getElem_mem hk) hp
      have hj' := hends (List.getElem_mem hl) hq
      rw [← hname] at hj'
      rcases Nat.lt_trichotomy k l with hlt | rfl | hlt
      · exact (hpairs k l hk hl hlt hj hj').elim
      · have hmem := List.getElem_mem hk
        rw [ih _ hmem (heach _ hmem) p q j j' hp hq hname]
      · exact (hpairs l k hl hk hlt hj' hj).elim

theorem nodup_of_distinctFrom {t : Tree (Fin d.count)} (h : d.Unfolds t)
    (hdistinct : DistinctFrom name t.label) : (t.order.map name).Nodup := by
  induction h with
  | @node i ts hchildren hbelow ih =>
    have hchild {k : Nat} (hk : k < ts.length) : (d.childrenOf i)[k]? = some ts[k].label := by
      rw [← hchildren, List.getElem?_map, List.getElem?_eq_getElem hk, Option.map_some]
    -- What is in the tree of a child is at the end of a path through the child.
    have hpath {k : Nat} (hk : k < ts.length) {x : β} (hx : x ∈ ts[k].order.map name) :
        ∃ p j, d.walk? i (k :: p) = some j ∧ name j = x := by
      obtain ⟨j, hj, hname⟩ := List.mem_map.mp hx
      obtain ⟨p, hp⟩ := (mem_order_iff (hbelow _ (List.getElem_mem hk))).mp hj
      refine ⟨p, j, ?_, hname⟩
      rw [walk?, hchild hk, Option.bind_some, hp]
    rw [((Tree.order_perm i ts).map name).nodup_iff, List.map_cons, List.nodup_cons,
      List.map_flatMap, List.nodup_flatMap, List.pairwise_iff_getElem]
    refine ⟨?_, ?_, ?_⟩
    · intro hmem
      obtain ⟨t, ht, hx⟩ := List.mem_flatMap.mp hmem
      obtain ⟨k, hk, rfl⟩ := List.mem_iff_getElem.mp ht
      obtain ⟨p, j, hp, hname⟩ := hpath hk hx
      cases hdistinct (k :: p) [] j i hp rfl hname
    · intro t ht
      obtain ⟨k, hk, rfl⟩ := List.mem_iff_getElem.mp ht
      exact ih _ ht (hdistinct.child (hchild hk))
    · intro k l hk hl hlt x hx hx'
      obtain ⟨p, j, hp, hname⟩ := hpath hk hx
      obtain ⟨q, j', hq, hname'⟩ := hpath hl hx'
      have hpaths := hdistinct (k :: p) (l :: q) j j' hp hq (hname.trans hname'.symm)
      exact Nat.ne_of_lt hlt (List.head_eq_of_cons_eq hpaths)

/-- The names in a tree are all different iff different paths lead to different names. -/
theorem nodup_order_iff {t : Tree (Fin d.count)} (h : d.Unfolds t) :
    (t.order.map name).Nodup ↔ DistinctFrom name t.label :=
  ⟨distinctFrom_of_nodup h, nodup_of_distinctFrom h⟩

end

/-! ## Where there is a tree -/

theorem exists_forest {cs : List (Fin d.count)} (h : ∀ c ∈ cs, ∃ t, t.label = c ∧ d.Unfolds t) :
    ∃ ts : List (Tree (Fin d.count)), ts.map Tree.label = cs ∧ ∀ t ∈ ts, d.Unfolds t := by
  induction cs with
  | nil => exact ⟨[], rfl, fun t ht => nomatch ht⟩
  | cons c cs ih =>
    obtain ⟨hc, hcs⟩ := List.forall_mem_cons.mp h
    obtain ⟨t, rfl, ht⟩ := hc
    obtain ⟨ts, rfl, hts⟩ := ih hcs
    exact ⟨t :: ts, rfl, List.forall_mem_cons.mpr ⟨ht, hts⟩⟩

/-- The trees of the children of a feature, the last one first, are put together to the tree of the
feature. What follows them stays as it is. -/
theorem exists_forest_cons {i : Fin d.count} {is : List (Fin d.count)}
    {ts : List (Tree (Fin d.count))}
    (hlabels : ts.map Tree.label = (d.childrenOf i).reverse ++ is)
    (hunfolds : ∀ t ∈ ts, d.Unfolds t) :
    ∃ us : List (Tree (Fin d.count)), us.map Tree.label = i :: is ∧ (∀ u ∈ us, d.Unfolds u) ∧
      us.flatMap Tree.expand = d.childrenOf i ++ ts.flatMap Tree.expand := by
  obtain ⟨cs, vs, rfl, hcs, rfl⟩ := List.map_eq_append_iff.mp hlabels
  obtain ⟨hbelow, hothers⟩ := List.forall_mem_append.mp hunfolds
  have hchildren : cs.reverse.map Tree.label = d.childrenOf i := by
    rw [List.map_reverse, hcs, List.reverse_reverse]
  have hnode : d.Unfolds (.node i cs.reverse) :=
    .node hchildren (fun t ht => hbelow t (List.mem_reverse.mp ht))
  refine ⟨.node i cs.reverse :: vs, rfl, List.forall_mem_cons.mpr ⟨hnode, hothers⟩, ?_⟩
  rw [Tree.flatMap_expand_cons, hchildren, List.reverse_reverse]

section
variable {i : Fin d.count} (hdistinct : DistinctFrom id i)
include hdistinct

/-- A feature is different from the ones at the ends of shorter paths. -/
theorem nodup_cons_of_shorter {p : List Nat} {j : Fin d.count} (hp : d.walk? i p = some j)
    {seen : List (Fin d.count)} (hnodup : seen.Nodup)
    (hseen : ∀ j' ∈ seen, ∃ q, q.length < p.length ∧ d.walk? i q = some j') :
    (j :: seen).Nodup := by
  refine List.nodup_cons.mpr ⟨fun hj => ?_, hnodup⟩
  obtain ⟨q, hlt, hq⟩ := hseen j hj
  rw [hdistinct p q j j hp hq rfl] at hlt
  exact Nat.lt_irrefl _ hlt

/-- A path passes different features, and there are finitely many of them. -/
theorem exists_unfolds_below {fuel : Nat} {p : List Nat} {j : Fin d.count}
    (hp : d.walk? i p = some j) {seen : List (Fin d.count)} (hnodup : seen.Nodup)
    (hseen : ∀ j' ∈ seen, ∃ q, q.length < p.length ∧ d.walk? i q = some j')
    (hfuel : d.count ≤ seen.length + fuel) : ∃ t, t.label = j ∧ d.Unfolds t := by
  induction fuel generalizing p j seen with
  | zero =>
    have hle := (nodup_cons_of_shorter hdistinct hp hnodup hseen).length_le_card
    rw [Fintype.card_fin, List.length_cons] at hle
    omega
  | succ fuel ih =>
    have hchildren : ∀ c ∈ d.childrenOf j, ∃ t, t.label = c ∧ d.Unfolds t := by
      intro c hc
      obtain ⟨k, hk⟩ := List.mem_iff_getElem?.mp hc
      refine ih ((walk?_concat hp k).trans hk)
        (nodup_cons_of_shorter hdistinct hp hnodup hseen) ?_ ?_
      · intro j' hj'
        rw [List.length_append, List.length_singleton]
        rcases List.mem_cons.mp hj' with rfl | hj'
        · exact ⟨p, Nat.lt_succ_self _, hp⟩
        · obtain ⟨q, hlt, hq⟩ := hseen j' hj'
          exact ⟨q, Nat.lt_succ_of_lt hlt, hq⟩
      · rw [List.length_cons]
        omega
    obtain ⟨ts, hlabels, hts⟩ := exists_forest hchildren
    exact ⟨.node j ts, rfl, .node hlabels hts⟩

end

/-- Where different paths lead to different names, the paths form a tree. -/
theorem exists_unfolds {β : Type v} {name : Fin d.count → β} {i : Fin d.count}
    (h : DistinctFrom name i) : ∃ t, t.label = i ∧ d.Unfolds t := by
  have hdistinct : DistinctFrom id i := fun p q j j' hp hq he => h p q j j' hp hq (congrArg name he)
  have hstart : d.walk? i [] = some i := rfl
  have hfuel : d.count ≤ ([] : List (Fin d.count)).length + d.count := by
    rw [List.length_nil, Nat.zero_add]
  exact exists_unfolds_below hdistinct hstart List.nodup_nil (fun j hj => nomatch hj) hfuel

end Document

end Variability
