import Variability.Formula.Printer
import Variability.Proofs.Constraint.Language
import Variability.Proofs.Constraint.Plain

/-!
The constraint text of a formula is read as the normal form of the formula.

A text spells a formula in a category of the grammar if it is a rendering of a
phrase of the category with that value (`Spells`). The text of a formula spells
the normal form in each category that its outermost connective belongs to
(`spells_text`): what the printer leaves without parentheses, the grammar takes
without them.

What is proved (`parseResult_text`), for formulas without place holders whose
names may stand without quotes:
  1. the text is read as the normal form, which is true under the same
     assignments as the formula;
  2. formulas with one text are true under the same assignments;
  3. a formula that was read from a text is read from its own text again.
-/

namespace Variability.Constraint

/-! ## Texts and their formulas -/

/-- The text is a rendering of a phrase of the category, and the phrase has the formula as its
value. -/
def Spells (c : Category) (text : String) (f : Formula) : Prop :=
  ∃ p, Derives c p ∧ Renders p.tokens text.toList ∧ p.value = f

theorem parse_eq_ok_iff_spells {text : String} {f : Formula} :
    parse text = .ok f ↔ Spells .equivalence text f := parse_eq_ok_iff

theorem Renders.append {ts us : List Token} {cs ds : List Char} (hcs : Renders ts cs)
    (hds : Renders us ds) : Renders (ts ++ us) (cs ++ ds) := by
  induction hcs with
  | @nil spaces h =>
    induction spaces with
    | nil => exact hds
    | cons c spaces ih =>
      obtain ⟨hc, hspaces⟩ := List.forall_mem_cons.mp h
      exact .space hc (ih hspaces)
  | @cons spaces h t ts cs hts ih =>
    rw [List.append_assoc, List.cons_append]
    exact .cons h t ih

/-- A single token, as it is written. -/
theorem Renders.single (t : Token) : Renders [t] t.text.toList := by
  have hnil : Renders [] [] := .nil (fun _ hc => nomatch hc)
  rw [← List.append_nil t.text.toList]
  exact .token t hnil

theorem renders_space : Renders [] " ".toList := .nil (List.all_eq_true.mp (by decide))

namespace Spells

theorem weaken {c c' : Category} {text : String} {f : Formula} (h : Spells c' text f)
    (hr : c.rank ≤ c'.rank) : Spells c text f := by
  obtain ⟨p, hp, hrenders, hvalue⟩ := h
  exact ⟨p, hp.weaken hr, hrenders, hvalue⟩

theorem literal {name : String} (h : IsPlainName name) : Spells .atom name (.literal name) :=
  ⟨.reference name, .reference h, Renders.single (.reference name), rfl⟩

theorem top : Spells .atom "true" .top := ⟨.top, .top, Renders.single .top, rfl⟩

theorem bottom : Spells .atom "false" .bottom := ⟨.bottom, .bottom, Renders.single .bottom, rfl⟩

theorem parentheses {c : Category} {text : String} {f : Formula} (h : Spells c text f) :
    Spells .atom ("(" ++ text ++ ")") f := by
  obtain ⟨p, hp, hrenders, hvalue⟩ := h.weaken (c := .equivalence) (Nat.zero_le _)
  refine ⟨.parentheses p, .parentheses hp, ?_, hvalue⟩
  rw [String.toList_append, String.toList_append]
  exact ((Renders.single .opening).append hrenders).append (Renders.single .closing)

theorem negation {text : String} {f : Formula} (h : Spells .negation text f) :
    Spells .negation ("!" ++ text) (.neg f) := by
  obtain ⟨p, hp, hrenders, hvalue⟩ := h
  refine ⟨.negation p, .negation hp, ?_, by rw [Phrase.value, hvalue]⟩
  rw [String.toList_append]
  exact (Renders.single .negation).append hrenders

theorem binary (op : Connective) {left right : String} {f g : Formula}
    (hf : Spells op.leftCategory left f) (hg : Spells op.rightCategory right g) :
    Spells op.category (left ++ (" " ++ op.text ++ " ") ++ right) (op.apply f g) := by
  obtain ⟨p, hp, hleft, rfl⟩ := hf
  obtain ⟨q, hq, hright, rfl⟩ := hg
  refine ⟨.binary op p q, .binary op hp hq, ?_, (Progress.value_binary op p q).symm⟩
  have hop : Renders [.connective op] (" " ++ op.text ++ " ").toList := by
    rw [String.toList_append, String.toList_append]
    exact (renders_space.append (Renders.single (.connective op))).append renders_space
  rw [String.toList_append, String.toList_append, List.append_assoc]
  exact hleft.append (hop.append hright)

end Spells

/-! ## Chains -/

/-- A connective that groups to the left continues a chain with any number of operands. -/
theorem spells_chain (op : Connective) (hop : op.leftCategory = op.category) {least : Nat}
    {text : String} {f : Formula} (hf : Spells op.category text f) {fs : List Formula}
    (hfs : ∀ g ∈ fs, Spells op.rightCategory (g.enclosed least g.text) g.normal) :
    Spells op.category (String.intercalate (" " ++ op.text ++ " ") (text :: Formula.texts least fs))
      ((fs.map Formula.normal).foldl op.apply f) := by
  induction fs generalizing text f with
  | nil => exact hf
  | cons g fs ih =>
    obtain ⟨hg, hfs⟩ := List.forall_mem_cons.mp hfs
    have hleft : Spells op.leftCategory text f := hop ▸ hf
    exact ih (.binary op hleft hg) hfs

theorem foldl_apply_conj (fs gs : List Formula) :
    gs.foldl Connective.conjunction.apply (.conj fs) = .conj (fs ++ gs) := by
  induction gs generalizing fs with
  | nil => rw [List.foldl_nil, List.append_nil]
  | cons g gs ih =>
    rw [List.foldl_cons, Connective.apply, ih, List.append_assoc, List.singleton_append]

theorem foldl_apply_disj (fs gs : List Formula) :
    gs.foldl Connective.disjunction.apply (.disj fs) = .disj (fs ++ gs) := by
  induction gs generalizing fs with
  | nil => rw [List.foldl_nil, List.append_nil]
  | cons g gs ih =>
    rw [List.foldl_cons, Connective.apply, ih, List.append_assoc, List.singleton_append]

theorem foldl_conjunction (f : Formula) (fs : List Formula) :
    fs.foldl Connective.conjunction.apply f = Formula.allOf (f :: fs) := by
  cases fs with
  | nil => rfl
  | cons g fs =>
    have hfirst : Connective.conjunction.apply f g = .conj (f.conjuncts ++ [g]) := by
      cases f <;> rfl
    rw [List.foldl_cons, hfirst, foldl_apply_conj, List.append_assoc, List.singleton_append,
      Formula.allOf]

theorem foldl_disjunction (f : Formula) (fs : List Formula) :
    fs.foldl Connective.disjunction.apply f = Formula.anyOf (f :: fs) := by
  cases fs with
  | nil => rfl
  | cons g fs =>
    have hfirst : Connective.disjunction.apply f g = .disj (f.disjuncts ++ [g]) := by
      cases f <;> rfl
    rw [List.foldl_cons, hfirst, foldl_apply_disj, List.append_assoc, List.singleton_append,
      Formula.anyOf]

/-! ## The texts of formulas -/

/-- A formula fits into a category if it has no operands or its connective belongs there. -/
def Fits (c : Category) (f : Formula) : Prop := f.children = [] ∨ c.rank ≤ f.rank

theorem rank_le_atom (c : Category) : c.rank ≤ Category.atom.rank := by cases c <;> decide

/-- Parentheses are left out only where the formula fits. -/
theorem spells_enclosed {f g : Formula} (h : ∀ c, Fits c f → Spells c f.text g) (c : Category) :
    Spells c (f.enclosed c.rank f.text) g := by
  rw [Formula.enclosed]
  split
  · next hloose =>
    have hatom : Spells .atom ("(" ++ f.text ++ ")") g := by
      apply Spells.parentheses (c := .implication)
      apply h
      right
      cases f <;> simp [Category.rank, Formula.rank]
    exact hatom.weaken (rank_le_atom c)
  · next hfits =>
    apply h
    rw [Bool.and_eq_true, not_and, Bool.not_eq_true', List.isEmpty_eq_false_iff,
      decide_eq_true_eq, Nat.not_lt] at hfits
    by_cases hnil : f.children = []
    · exact Or.inl hnil
    · exact Or.inr (hfits hnil)

/-- The formula has no place holder, and its names may be written without quotes. -/
structure Printable (f : Formula) : Prop where
  plain : f.isPlain
  names : ∀ name ∈ f.names, IsPlainName name

theorem Printable.child {f g : Formula} (h : Printable f) (hg : g ∈ f.children) :
    Printable g := by
  refine ⟨Formula.isPlain_children h.plain hg, fun name hname => h.names name ?_⟩
  cases f with
  | literal | top | bottom | hole => cases hg
  | neg f => rwa [List.mem_singleton.mp hg] at hname
  | conj fs | disj fs =>
    rw [Formula.names, Formula.namesAll_eq]
    exact List.mem_flatMap.mpr ⟨g, hg, hname⟩
  | implies f f' =>
    rw [Formula.names, List.mem_append]
    rcases List.mem_cons.mp hg with rfl | hg
    · exact Or.inl hname
    · exact Or.inr (List.mem_singleton.mp hg ▸ hname)

/-- The text of a formula spells its normal form wherever the formula fits. -/
theorem spells_text {f : Formula} (h : Printable f) (c : Category) (hc : Fits c f) :
    Spells c f.text f.normal := by
  induction f generalizing c with
  | literal name =>
    have hname : IsPlainName name := h.names name (List.mem_singleton_self name)
    exact (Spells.literal hname).weaken (rank_le_atom c)
  | top => exact Spells.top.weaken (rank_le_atom c)
  | bottom => exact Spells.bottom.weaken (rank_le_atom c)
  | hole => exact absurd h.plain (by decide)
  | neg f ih =>
    have hf : Spells .negation (f.enclosed 4 f.text) f.normal :=
      spells_enclosed (ih (h.child List.mem_cons_self)) .negation
    exact hf.negation.weaken (hc.resolve_left (List.cons_ne_nil _ _))
  | conj fs ih =>
    have hfs : ∀ f ∈ fs, Spells .negation (f.enclosed 4 f.text) f.normal :=
      fun f hf => spells_enclosed (ih f hf (h.child hf)) .negation
    cases fs with
    | nil => exact Spells.top.weaken (rank_le_atom c)
    | cons f fs =>
      obtain ⟨hf, hfs⟩ := List.forall_mem_cons.mp hfs
      have hchain := spells_chain .conjunction rfl (hf.weaken (by decide)) hfs
      rw [foldl_conjunction, ← List.map_cons, ← Formula.normals_eq] at hchain
      exact hchain.weaken (hc.resolve_left (List.cons_ne_nil f fs))
  | disj fs ih =>
    have hfs : ∀ f ∈ fs, Spells .conjunction (f.enclosed 3 f.text) f.normal :=
      fun f hf => spells_enclosed (ih f hf (h.child hf)) .conjunction
    cases fs with
    | nil => exact Spells.bottom.weaken (rank_le_atom c)
    | cons f fs =>
      obtain ⟨hf, hfs⟩ := List.forall_mem_cons.mp hfs
      have hchain := spells_chain .disjunction rfl (hf.weaken (by decide)) hfs
      rw [foldl_disjunction, ← List.map_cons, ← Formula.normals_eq] at hchain
      exact hchain.weaken (hc.resolve_left (List.cons_ne_nil f fs))
  | implies f g ihf ihg =>
    have hleft : Spells .disjunction (f.enclosed 2 f.text) f.normal :=
      spells_enclosed (ihf (h.child List.mem_cons_self)) .disjunction
    have hright : Spells .implication (g.enclosed 1 g.text) g.normal :=
      spells_enclosed (ihg (h.child (List.mem_cons_of_mem f List.mem_cons_self))) .implication
    exact (Spells.binary .implication hleft hright).weaken
      (hc.resolve_left (List.cons_ne_nil _ _))

/-! ## Reading a text again -/

/-- The formula of a phrase is in normal form. -/
theorem Phrase.normal_value (p : Phrase) : p.value.Normal := by
  induction p with
  | reference name | quoted name => exact .literal name
  | top => exact .top
  | bottom => exact .bottom
  | parentheses p ih => exact ih
  | negation p ih => exact .neg ih
  | binary op p q ihp ihq =>
    cases op with
    | equivalence =>
      have hsides : ∀ f ∈ [p.value.implies q.value, q.value.implies p.value], f.Normal :=
        List.forall_mem_cons.mpr ⟨.implies ihp ihq,
          List.forall_mem_singleton.mpr (.implies ihq ihp)⟩
      exact .conj rfl hsides
    | implication => exact .implies ihp ihq
    | disjunction => exact ihp.append_disjuncts ihq
    | conjunction => exact ihp.append_conjuncts ihq

theorem parse_text {f : Formula} (h : Printable f) : parse f.text = .ok f.normal :=
  parse_eq_ok_iff_spells.mpr (spells_text h .equivalence (Or.inr (Nat.zero_le _)))

/-- The text of a formula is read as the normal form of the formula, which has the same truth
values. Formulas with one text have the same truth values, and a formula that was read from a text
is read from its own text again. -/
theorem parseResult_text (f : Formula) (h : Printable f) :
    parseResult f.text = ⟨some f.normal, []⟩ ∧
    (∀ v, f.normal.eval v = f.eval v) ∧
    (∀ g : Formula, Printable g → g.text = f.text → ∀ v, g.eval v = f.eval v) ∧
    ∀ text, (parseResult text).value = some f → parseResult f.text = parseResult text := by
  have hread : parseResult f.text = ⟨some f.normal, []⟩ := parseResult_eq_iff.mpr (parse_text h)
  refine ⟨hread, fun v => f.eval_normal v, ?_, ?_⟩
  · intro g hg htext v
    have hparse : parse f.text = .ok g.normal := htext ▸ parse_text hg
    have hsame : g.normal = f.normal := Except.ok.inj (hparse.symm.trans (parse_text h))
    calc g.eval v = g.normal.eval v := (g.eval_normal v).symm
      _ = f.normal.eval v := by rw [hsame]
      _ = f.eval v := f.eval_normal v
  · intro text hvalue
    rw [parseResult] at hvalue
    cases hparse : parse text with
    | error e =>
      rw [hparse] at hvalue
      cases hvalue
    | ok g =>
      rw [hparse] at hvalue
      cases hvalue
      obtain ⟨p, -, -, rfl⟩ := parse_eq_ok_iff.mp hparse
      rw [hread, parseResult_eq_iff.mpr hparse, p.normal_value.normal_eq]

/-- The first conjunction is continued, a disjunction of one formula is that formula and an empty
one is false. -/
theorem parseResult_text_chain :
    parseResult "(A & B) & (C) & false" =
      ⟨some (.conj [.literal "A", .literal "B", .literal "C", .bottom]), []⟩ := by
  have hA : IsPlainName "A" :=
    ⟨.name ⟨by decide, List.forall_mem_nil _⟩, by decide, by decide⟩
  have hB : IsPlainName "B" :=
    ⟨.name ⟨by decide, List.forall_mem_nil _⟩, by decide, by decide⟩
  have hC : IsPlainName "C" :=
    ⟨.name ⟨by decide, List.forall_mem_nil _⟩, by decide, by decide⟩
  have hf : Printable
      (.conj [.conj [.literal "A", .literal "B"], .disj [.literal "C"], .disj []]) :=
    ⟨rfl, by simp [Formula.names, Formula.namesAll, hA, hB, hC]⟩
  exact (parseResult_text _ hf).1

end Variability.Constraint
