import Mathlib.Data.List.Infix
import Variability.Proofs.Constraint.Language

/-!
Constraints that are taken for comparisons.

Whether a text is a comparison is decided by the characters that occur in it,
before it is split into tokens (`isArithmetic_iff`). In a text that is a
constraint, and in which no arrow occurs, the characters of an operator can only
stand in a name between quotes (`infix_iff_of_renders`). So a constraint is taken
for a comparison iff it quotes an operator and has no arrow
(`isArithmetic_eq_quotesComparison`).
-/

namespace Variability.Constraint

/-! ## Occurrences -/

theorem occurs_iff {p cs : List Char} : occurs p cs = true ↔ p <:+: cs := by
  induction cs with
  | nil => simp [occurs]
  | cons c cs ih =>
    rw [occurs, Bool.or_eq_true, ih, List.isPrefixOf_iff_prefix, List.infix_cons_iff]

theorem mentions_iff {text pattern : String} :
    mentions text pattern = true ↔ pattern.toList <:+: text.toList := occurs_iff

/-- The characters of an implication, which are a part of an equivalence too. -/
def arrow : List Char := ['=', '>']

/-- A text is taken for a comparison iff an operator occurs in it, and no arrow does. -/
theorem isArithmetic_iff {text : String} :
    isArithmetic text = true ↔
      (∃ op ∈ comparisonOperators, op.toList <:+: text.toList) ∧ ¬arrow <:+: text.toList := by
  have hformula : formulaOperators.any (mentions text) = true ↔ arrow <:+: text.toList := by
    simp only [formulaOperators, List.any_cons, List.any_nil, Bool.or_false, Bool.or_eq_true,
      mentions_iff]
    constructor
    · rintro (h | h)
      · exact h
      · have hlong : arrow <:+: "<=>".toList := ⟨['<'], [], rfl⟩
        exact hlong.trans h
    · exact Or.inl
  rw [isArithmetic, Bool.and_eq_true, List.any_eq_true, Bool.not_eq_true', ← hformula,
    Bool.not_eq_true]
  simp only [mentions_iff]

/-- What starts with `c` cannot start in front of a text in which `c` does not occur. -/
theorem infix_append_of_not_mem {c : Char} {p xs : List Char} (h : c ∉ xs) (ys : List Char) :
    c :: p <:+: xs ++ ys ↔ c :: p <:+: ys := by
  induction xs with
  | nil => simp
  | cons x xs ih =>
    rw [List.mem_cons, not_or] at h
    rw [List.cons_append, List.infix_cons_iff, List.cons_prefix_cons, ih h.2]
    simp [h.1]

/-- What lies around a character that does not occur in `p` can be searched on its own. -/
theorem infix_separator {c d : Char} {p : List Char} (h : c ∉ d :: p) (xs ys : List Char) :
    d :: p <:+: xs ++ c :: ys ↔ d :: p <:+: xs ∨ d :: p <:+: ys := by
  have hne : d ∉ [c] := by
    rw [List.mem_cons, not_or] at h
    simp [Ne.symm h.1]
  have hright : d :: p <:+: c :: ys ↔ d :: p <:+: ys := infix_append_of_not_mem hne ys
  rw [List.infix_append_iff, hright]
  constructor
  · rintro (h' | h' | ⟨q, r, he, hq, hr⟩)
    · exact Or.inl h'
    · exact Or.inr h'
    · -- The part of `p` behind the separator is empty, as it would start with the separator.
      rcases List.prefix_cons_iff.mp hr with rfl | ⟨r', rfl, -⟩
      · rw [List.append_nil] at he
        exact Or.inl (he ▸ hq.isInfix)
      · apply absurd _ h
        rw [he]
        simp
  · rintro (h' | h')
    · exact Or.inl h'
    · exact Or.inr (Or.inl h')

/-! ## Where operators occur -/

/-- The characters that comparison operators start with. -/
def operatorStarts : List Char := ['=', '!', '<', '>']

theorem operator_cases {op : String} (h : op ∈ comparisonOperators) :
    ∃ c cs, op.toList = c :: cs ∧ c ∈ operatorStarts ∧ '"' ∉ c :: cs ∧ (c = '!' → cs = ['=']) := by
  simp only [comparisonOperators, List.mem_cons, List.not_mem_nil, or_false] at h
  rcases h with rfl | rfl | rfl | rfl | rfl | rfl <;> exact ⟨_, _, rfl, by decide⟩

theorem not_mem_operatorStarts_of_isSpace {c : Char} (h : isSpace c) : c ∉ operatorStarts := by
  have hc : c = ' ' ∨ c = '\t' ∨ c = '\x0c' ∨ c = '\r' ∨ c = '\n' := by
    simpa [isSpace, or_assoc] using h
  rcases hc with rfl | rfl | rfl | rfl | rfl <;> decide

theorem not_mem_operatorStarts_of_isNamePart {c : Char} (h : isNamePart c) :
    c ∉ operatorStarts := by
  intro hc
  simp only [operatorStarts, List.mem_cons, List.not_mem_nil, or_false] at hc
  rcases hc with rfl | rfl | rfl | rfl <;> exact absurd h (by decide)

theorem IsReference.not_mem_operatorStarts {cs : List Char} (h : IsReference cs) :
    ∀ c ∈ cs, c ∉ operatorStarts := by
  induction h with
  | name h => exact fun c hc => not_mem_operatorStarts_of_isNamePart (h.isNamePart c hc)
  | point h rest ih =>
    simp only [List.forall_mem_append, List.forall_mem_cons]
    exact ⟨fun c hc => not_mem_operatorStarts_of_isNamePart (h.isNamePart c hc), by decide, ih⟩
  | colons h rest ih =>
    simp only [List.forall_mem_append, List.forall_mem_cons]
    exact ⟨fun c hc => not_mem_operatorStarts_of_isNamePart (h.isNamePart c hc), by decide,
      by decide, ih⟩

theorem infix_of_mem_renders {t : Token} {ts : List Token} {cs : List Char} (h : Renders ts cs)
    (ht : t ∈ ts) : t.text.toList <:+: cs := by
  induction h with
  | nil h => cases ht
  | @cons spaces h u ts cs rest ih =>
    rcases List.mem_cons.mp ht with rfl | ht
    · exact ⟨spaces, cs, rfl⟩
    · exact (ih ht).trans (List.infix_append_right ..)

/-- Only arrows, negations and names between quotes have characters of operators. -/
theorem Token.Valid.not_mem_operatorStarts {t : Token} (h : t.Valid)
    (hquoted : ∀ name, t ≠ .quotedReference name) (hnegation : t ≠ .negation)
    (harrow : ¬arrow <:+: t.text.toList) : ∀ c ∈ t.text.toList, c ∉ operatorStarts := by
  cases t with
  | reference name => exact h.reference.not_mem_operatorStarts
  | quotedReference name => exact absurd rfl (hquoted name)
  | negation => exact absurd rfl hnegation
  | connective op =>
    cases op with
    | equivalence => exact absurd ⟨['<'], [], rfl⟩ harrow
    | implication => exact absurd ⟨[], [], rfl⟩ harrow
    | disjunction | conjunction => simp [Token.text, Connective.text, operatorStarts]
  | top | bottom | opening | closing => simp [Token.text, operatorStarts]

theorem Token.Valid.eq_implication {t : Token} (h : t.Valid) {cs : List Char}
    (hcs : t.text.toList = '=' :: cs) : t = .connective .implication := by
  cases t with
  | reference name =>
    obtain ⟨c, ds, hds, hc⟩ := h.reference.exists_cons
    obtain rfl : c = '=' := (List.cons.inj (hds.symm.trans hcs)).1
    exact absurd hc (by decide)
  | quotedReference name => simp [Token.text] at hcs
  | connective op =>
    cases op with
    | implication => rfl
    | equivalence | disjunction | conjunction => exact absurd (List.cons.inj hcs).1 (by decide)
  | top | bottom | negation | opening | closing =>
    exact absurd (List.cons.inj hcs).1 (by decide)

/-- Only an arrow starts with an equality sign. -/
theorem head_ne_of_renders {ts : List Token} {cs : List Char} (h : Renders ts cs)
    (hvalid : ∀ t ∈ ts, t.Valid) (harrow : ¬arrow <:+: cs) : cs.head? ≠ some '=' := by
  intro hhead
  obtain ⟨ds, hds⟩ := List.head?_eq_some_iff.mp hhead
  cases h with
  | nil h =>
    subst hds
    exact absurd (h '=' List.mem_cons_self) (by decide)
  | @cons spaces h t ts rest hrest =>
    cases spaces with
    | cons c spaces =>
      obtain rfl : c = '=' := (List.cons.inj hds).1
      exact absurd (h '=' List.mem_cons_self) (by decide)
    | nil =>
      have ht := hvalid t List.mem_cons_self
      obtain ⟨c, cs, hcs, -⟩ := ht.exists_cons
      rw [List.nil_append, hcs] at hds
      obtain rfl : c = '=' := (List.cons.inj hds).1
      obtain rfl := ht.eq_implication hcs
      exact harrow ⟨[], rest, rfl⟩

section
variable {c : Char} {p : List Char}

/-- An operator lies in the name between the quotes, or behind the closing one. -/
theorem infix_quoted_append (hquote : '"' ∉ c :: p) (name : String) (rest : List Char) :
    c :: p <:+: (Token.quotedReference name).text.toList ++ rest ↔
      c :: p <:+: name.toList ∨ c :: p <:+: rest := by
  have htext : (Token.quotedReference name).text.toList ++ rest =
      ['"'] ++ (name.toList ++ '"' :: rest) := by simp [Token.text]
  have hopening : c ∉ ['"'] := by
    rw [List.mem_cons, not_or] at hquote
    simp [Ne.symm hquote.1]
  rw [htext, infix_append_of_not_mem hopening, infix_separator hquote]

/-- Behind a negation there is no equality sign that makes it an operator. -/
theorem infix_negation_append (hbang : c = '!' → p = ['=']) {rest : List Char}
    (hhead : rest.head? ≠ some '=') :
    c :: p <:+: Token.negation.text.toList ++ rest ↔ c :: p <:+: rest := by
  show c :: p <:+: '!' :: rest ↔ _
  rw [List.infix_cons_iff, List.cons_prefix_cons, or_iff_right]
  rintro ⟨hc, hprefix⟩
  rw [hbang hc] at hprefix
  obtain ⟨ds, rfl⟩ := hprefix
  exact hhead rfl

end

/-- In a rendering without an arrow, an operator occurs iff it occurs in a name between quotes. -/
theorem infix_iff_of_renders {op : String} (hop : op ∈ comparisonOperators) {ts : List Token}
    {cs : List Char} (h : Renders ts cs) (hvalid : ∀ t ∈ ts, t.Valid) (harrow : ¬arrow <:+: cs) :
    op.toList <:+: cs ↔ ∃ name, .quotedReference name ∈ ts ∧ op.toList <:+: name.toList := by
  obtain ⟨c, p, hp, hstart, hquote, hbang⟩ := operator_cases hop
  rw [hp]
  induction h with
  | @nil spaces h =>
    have hspaces : c ∉ spaces := fun hc => not_mem_operatorStarts_of_isSpace (h c hc) hstart
    have hskip := infix_append_of_not_mem hspaces (p := p) []
    rw [List.append_nil] at hskip
    simp [hskip]
  | @cons spaces h t ts rest hrest ih =>
    obtain ⟨ht, hothers⟩ := List.forall_mem_cons.mp hvalid
    have htext : ¬arrow <:+: t.text.toList :=
      fun ha => harrow (ha.trans (infix_of_mem_renders (.cons h t hrest) List.mem_cons_self))
    have hrestArrow : ¬arrow <:+: rest :=
      fun ha => harrow (ha.trans (List.suffix_append ..).isInfix)
    have hspaces : c ∉ spaces := fun hc => not_mem_operatorStarts_of_isSpace (h c hc) hstart
    have ih := ih hothers hrestArrow
    rw [List.append_assoc, infix_append_of_not_mem hspaces]
    by_cases hquoted : ∃ name, t = .quotedReference name
    · obtain ⟨name, rfl⟩ := hquoted
      rw [infix_quoted_append hquote, ih]
      simp [or_and_right, exists_or]
    · have hother : ∀ name, t ≠ .quotedReference name := fun name he => hquoted ⟨name, he⟩
      have hnames : (∃ name, .quotedReference name ∈ t :: ts ∧ c :: p <:+: name.toList) ↔
          ∃ name, .quotedReference name ∈ ts ∧ c :: p <:+: name.toList := by
        simp [Ne.symm (hother _)]
      rw [hnames, ← ih]
      by_cases hnegation : t = .negation
      · rw [hnegation]
        exact infix_negation_append hbang (head_ne_of_renders hrest hothers hrestArrow)
      · have hfree := ht.not_mem_operatorStarts hother hnegation htext
        exact infix_append_of_not_mem (fun hc => hfree c hc hstart) rest

/-! ## Names between quotes -/

/-- The name that a token has between quotes. -/
def Token.quotedName? : Token → Option String
  | .quotedReference name => some name
  | _ => none

/-- The names that a text has between quotes. -/
def quotedNames (text : String) : List String :=
  ((scan text).lexemes.map Lexeme.token).filterMap Token.quotedName?

/-- Whether a comparison operator is quoted in a text, and the text has no arrow. -/
def quotesComparison (text : String) : Bool :=
  (quotedNames text).any (fun name => comparisonOperators.any (mentions name)) &&
    !mentions text "=>"

theorem mem_quotedNames {text name : String} :
    name ∈ quotedNames text ↔ .quotedReference name ∈ (scan text).lexemes.map Lexeme.token := by
  have ht : ∀ t : Token, t.quotedName? = some name ↔ t = .quotedReference name := by
    intro t
    cases t <;> simp [Token.quotedName?]
  simp only [quotedNames, List.mem_filterMap, ht, exists_eq_right]

/-- A constraint is taken for a comparison iff it quotes an operator and has no arrow. -/
theorem isArithmetic_eq_quotesComparison {text : String} {f : Formula} (h : parse text = .ok f) :
    isArithmetic text = quotesComparison text := by
  obtain ⟨p, hp, hrenders, -⟩ := parse_eq_ok_iff.mp h
  obtain ⟨htokens, -⟩ := hp.scanFrom hrenders .start
  rw [Bool.eq_iff_iff, isArithmetic_iff, quotesComparison, Bool.and_eq_true, Bool.not_eq_true',
    ← Bool.not_eq_true, mentions_iff]
  refine and_congr_left (fun harrow => ?_)
  simp only [List.any_eq_true, mentions_iff, mem_quotedNames, scan, htokens]
  constructor
  · rintro ⟨op, hop, hoccurs⟩
    obtain ⟨name, hname, hoccurs⟩ :=
      (infix_iff_of_renders hop hrenders hp.valid harrow).mp hoccurs
    exact ⟨name, hname, op, hop, hoccurs⟩
  · rintro ⟨name, hname, op, hop, hoccurs⟩
    exact ⟨op, hop, (infix_iff_of_renders hop hrenders hp.valid harrow).mpr ⟨name, hname, hoccurs⟩⟩

end Variability.Constraint
