import Variability.Constraint.Report
import Variability.Proofs.Formula.Semantics

/-!
No constraint contains a place holder: neither a formula that was read from a
text nor one whose references were resolved.

The reader makes formulas of literals and connectives only, which is an
invariant of its frames and operands (`Reading.Plain`). A substitution by plain
formulas keeps plain formulas plain, whatever its tasks are
(`Formula.isPlain_substitute`).
-/

namespace Variability

/-! ## Substitution -/

namespace Formula

theorem isPlain_children {f : Formula} (h : f.isPlain) {g : Formula} (hg : g ∈ f.children) :
    g.isPlain := by
  cases f with
  | literal | top | bottom | hole => cases hg
  | neg f =>
    rw [List.mem_singleton.mp hg]
    exact h
  | conj fs | disj fs =>
    rw [isPlain, allPlain_eq, List.all_eq_true] at h
    exact h g hg
  | implies f f' =>
    rw [isPlain, Bool.and_eq_true] at h
    rcases List.mem_cons.mp hg with rfl | hg
    · exact h.1
    · rw [List.mem_singleton.mp hg]
      exact h.2

theorem isPlain_withChildren {f : Formula} (h : f.isPlain) {operands : List Formula}
    (ho : ∀ g ∈ operands, g.isPlain) : (f.withChildren operands).isPlain := by
  unfold withChildren
  split
  · next g =>
    rw [isPlain]
    exact ho g List.mem_cons_self
  · simpa [isPlain] using ho
  · simpa [isPlain] using ho
  · next g g' =>
    rw [isPlain, Bool.and_eq_true]
    exact ⟨ho _ List.mem_cons_self, ho _ (List.mem_cons_of_mem _ List.mem_cons_self)⟩
  · exact h

/-- The node that a task is about. -/
def Substitution.Task.node : Task → Formula
  | visit f | close f => f

/-- Plain nodes and plain replacements give plain results. -/
theorem Substitution.isPlain_run {σ : String → Formula} (hσ : ∀ name, (σ name).isPlain)
    {done : List Formula} {tasks : List Task} (hd : ∀ g ∈ done, g.isPlain)
    (ht : ∀ t ∈ tasks, t.node.isPlain) : ∀ g ∈ run σ done tasks, g.isPlain := by
  fun_induction run σ done tasks with
  | case1 done => exact hd
  | case2 done name tasks ih =>
    -- A literal is replaced.
    refine ih ?_ (fun t h => ht t (List.mem_cons_of_mem _ h))
    intro g hg
    rcases List.mem_cons.mp hg with rfl | hg
    · exact hσ name
    · exact hd g hg
  | case3 done f tasks hne hf ih =>
    -- A node without operands stays as it is.
    refine ih ?_ (fun t h => ht t (List.mem_cons_of_mem _ h))
    intro g hg
    rcases List.mem_cons.mp hg with rfl | hg
    · exact ht _ List.mem_cons_self
    · exact hd g hg
  | case4 done f tasks hne hf ih =>
    -- The operands are visited before the node is put together again.
    have hplain : f.isPlain := ht _ List.mem_cons_self
    refine ih hd ?_
    intro t h
    rcases List.mem_append.mp h with h | h
    · obtain ⟨g, hg, rfl⟩ := List.mem_map.mp h
      exact isPlain_children hplain hg
    · rcases List.mem_cons.mp h with rfl | h
      · exact hplain
      · exact ht t (List.mem_cons_of_mem _ h)
  | case5 done f tasks count ih =>
    -- The operands of the node are the results that were made last.
    refine ih ?_ (fun t h => ht t (List.mem_cons_of_mem _ h))
    intro g hg
    rcases List.mem_cons.mp hg with rfl | hg
    · refine isPlain_withChildren (ht _ List.mem_cons_self) (fun g hg => ?_)
      exact hd g (List.mem_of_mem_take (List.mem_reverse.mp hg))
    · exact hd g (List.mem_of_mem_drop hg)

theorem isPlain_substitute {f : Formula} (h : f.isPlain) {σ : String → Formula}
    (hσ : ∀ name, (σ name).isPlain) : (f.substitute σ).isPlain := by
  have hall : ∀ g ∈ Substitution.run σ [] [.visit f], g.isPlain := by
    refine Substitution.isPlain_run hσ (fun g hg => by cases hg) (fun t ht => ?_)
    rw [List.mem_singleton.mp ht]
    exact h
  rw [substitute, List.getLastD_eq_getLast?]
  cases hl : (Substitution.run σ [] [.visit f]).getLast? with
  | none => exact h
  | some g => exact hall g (List.mem_of_getLast? hl)

end Formula

namespace Constraint

theorem isPlain_resolve {f : Formula} (h : f.isPlain) (isFeature : String → Bool) :
    (resolve isFeature f).isPlain := Formula.isPlain_substitute h (fun _ => rfl)

/-! ## Reading -/

theorem isPlain_apply (op : Connective) {f g : Formula} (hf : f.isPlain) (hg : g.isPlain) :
    (op.apply f g).isPlain := by
  unfold Connective.apply
  split
  · simp [Formula.isPlain, hf, hg]
  · simp [Formula.isPlain, hf, hg]
  · rw [Formula.isPlain, Formula.allPlain_eq] at hf
    simp [Formula.isPlain, hf, hg]
  · simp [Formula.isPlain, hf, hg]
  · rw [Formula.isPlain, Formula.allPlain_eq] at hf
    simp [Formula.isPlain, hf, hg]
  · simp [Formula.isPlain, hf, hg]

/-- Whether the operand of a frame is plain, if it has one. -/
def Frame.isPlain : Frame → Bool
  | .opening | .negation => true
  | .left f _ => f.isPlain

/-- Only plain formulas are open or have been read. -/
def Reading.Plain : Reading → Prop
  | .wanting frames => ∀ frame ∈ frames, frame.isPlain
  | .having frames f => (∀ frame ∈ frames, frame.isPlain) ∧ f.isPlain

namespace Reading

theorem plain_reduce (least : Nat) {frames : List Frame} {f : Formula}
    (hframes : ∀ frame ∈ frames, frame.isPlain) (hf : f.isPlain) :
    (∀ frame ∈ (reduce least frames f).1, frame.isPlain) ∧ (reduce least frames f).2.isPlain := by
  fun_induction reduce least frames f with
  | case1 f frames ih =>
    -- A negation binds tighter than any connective, so it is always applied.
    exact ih (fun frame h => hframes frame (List.mem_cons_of_mem _ h)) hf
  | case2 g op frames f hle ih =>
    have hg : g.isPlain := hframes (.left g op) List.mem_cons_self
    exact ih (fun frame h => hframes frame (List.mem_cons_of_mem _ h)) (isPlain_apply op hg hf)
  | case3 => exact ⟨hframes, hf⟩
  | case4 => exact ⟨hframes, hf⟩

theorem plain_push {frames : List Frame} (h : ∀ frame ∈ frames, frame.isPlain) {frame : Frame}
    (hf : frame.isPlain) : ∀ frame' ∈ frame :: frames, frame'.isPlain := by
  intro frame' hm
  rcases List.mem_cons.mp hm with rfl | hm
  · exact hf
  · exact h frame' hm

theorem plain_step? {r r' : Reading} (h : r.Plain) {token : Token} (hs : r.step? token = some r') :
    r'.Plain := by
  unfold step? at hs
  split at hs
  -- A literal or a constant is read, then a frame is opened, and last a formula is closed.
  · obtain rfl := Option.some.inj hs
    exact ⟨h, rfl⟩
  · obtain rfl := Option.some.inj hs
    exact ⟨h, rfl⟩
  · obtain rfl := Option.some.inj hs
    exact ⟨h, rfl⟩
  · obtain rfl := Option.some.inj hs
    exact ⟨h, rfl⟩
  · obtain rfl := Option.some.inj hs
    exact plain_push h rfl
  · obtain rfl := Option.some.inj hs
    exact plain_push h rfl
  · next frames f op =>
    obtain rfl := Option.some.inj hs
    obtain ⟨hframes, hf⟩ := plain_reduce op.yieldsTo h.1 h.2
    exact plain_push hframes hf
  · next frames f =>
    obtain ⟨hframes, hf⟩ := plain_reduce 0 h.1 h.2
    split at hs
    · next frames' g he =>
      obtain rfl := Option.some.inj hs
      rw [he] at hframes hf
      exact ⟨fun frame hm => hframes frame (List.mem_cons_of_mem _ hm), hf⟩
    · cases hs
  · cases hs
  · cases hs

theorem isPlain_finish? {r : Reading} (h : r.Plain) {f : Formula} (hf : r.finish? = some f) :
    f.isPlain := by
  unfold finish? at hf
  split at hf
  · cases hf
  · next frames g =>
    obtain ⟨-, hg⟩ := plain_reduce 0 h.1 h.2
    split at hf
    · next g' he =>
      rw [he] at hg
      rw [← Option.some.inj hf]
      exact hg
    · cases hf

end Reading

theorem isPlain_readAll {r : Reading} (h : r.Plain) {last : Place} {stray : Option Stray}
    {lexemes : List Lexeme} {f : Formula} (hf : readAll r last stray lexemes = .ok f) :
    f.isPlain := by
  induction lexemes generalizing r last with
  | nil =>
    unfold readAll at hf
    split at hf
    · cases hf
    · next g hg =>
      rw [← Except.ok.inj hf]
      exact Reading.isPlain_finish? h hg
    · cases hf
  | cons lexeme lexemes ih =>
    rw [readAll] at hf
    split at hf
    · next r' hs => exact ih (Reading.plain_step? h hs) hf
    · cases hf

/-- A formula that was read from a text has no place holder. -/
theorem isPlain_parse {text : String} {f : Formula} (h : parse text = .ok f) : f.isPlain :=
  isPlain_readAll (r := .wanting []) (fun frame hm => by cases hm) h

theorem isPlain_of_mem_formulas {texts : List String} {f : Formula}
    (h : f ∈ (report texts).formulas) : f.isPlain := by
  obtain ⟨o, ho, hf⟩ := List.mem_filterMap.mp h
  obtain ⟨text, -, rfl⟩ := List.mem_map.mp ho
  unfold outcome at hf
  split at hf
  · cases hf
  · split at hf
    · next g hg =>
      rw [← Option.some.inj hf]
      exact isPlain_parse hg
    · cases hf

end Constraint

end Variability
