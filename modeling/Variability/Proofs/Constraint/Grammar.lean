import Variability.Constraint.Parser
import Variability.Proofs.Formula.Normal

/-!
The language of constraint texts: its tokens, its grammar and its meaning.

A phrase is a derivation of the grammar with its parentheses. It has the tokens
that spell it (`Phrase.tokens`), a formula as its value (`Phrase.value`) and a
truth value under every assignment (`Phrase.truth`), and the formula has that
truth value too (`Phrase.eval_value`). A list of tokens is rendered with spaces
in any place between them (`Renders`).
-/

namespace Variability

namespace Constraint

/-! ## Names -/

/-- A letter or an underscore, and then letters, digits and underscores. -/
inductive IsName : List Char → Prop
  | mk {c : Char} {cs : List Char} (start : isNameStart c) (part : ∀ d ∈ cs, isNamePart d) :
      IsName (c :: cs)

/-- Names with a point or a double colon between each two of them. -/
inductive IsReference : List Char → Prop
  | name {cs : List Char} (h : IsName cs) : IsReference cs
  | point {cs ds : List Char} (h : IsName cs) (rest : IsReference ds) :
      IsReference (cs ++ '.' :: ds)
  | colons {cs ds : List Char} (h : IsName cs) (rest : IsReference ds) :
      IsReference (cs ++ ':' :: ':' :: ds)

/-- The names that are written as they are: references that spell no constant. -/
structure IsPlainName (name : String) : Prop where
  reference : IsReference name.toList
  ne_true : name ≠ "true"
  ne_false : name ≠ "false"

/-- The names that are written between quotes: any text but the empty one, without a quote. -/
structure IsQuotedName (name : String) : Prop where
  nonempty : name.toList ≠ []
  no_quote : '"' ∉ name.toList

/-- The names of reference tokens are as the patterns of the tokens ask for. -/
def Token.Valid : Token → Prop
  | .reference name => IsPlainName name
  | .quotedReference name => IsQuotedName name
  | _ => True

/-! ## Phrases -/

/-- A derivation of the constraint grammar, with the parentheses that are written. -/
inductive Phrase where
  | reference (name : String)
  | quoted (name : String)
  | top
  | bottom
  | parentheses (inner : Phrase)
  | negation (operand : Phrase)
  | binary (op : Connective) (left right : Phrase)

namespace Phrase

/-- The tokens of a phrase. -/
def tokens : Phrase → List Token
  | reference name => [.reference name]
  | quoted name => [.quotedReference name]
  | top => [.top]
  | bottom => [.bottom]
  | parentheses p => .opening :: (p.tokens ++ [.closing])
  | negation p => .negation :: p.tokens
  | binary op p q => p.tokens ++ .connective op :: q.tokens

/-- The formula of a phrase. A quoted name loses its quotes, an equivalence stands for two
implications, and a conjunction or disjunction on the left is continued, even out of parentheses. -/
def value : Phrase → Formula
  | reference name | quoted name => .literal name
  | top => .top
  | bottom => .bottom
  | parentheses p => p.value
  | negation p => .neg p.value
  | binary .equivalence p q => .conj [.implies p.value q.value, .implies q.value p.value]
  | binary .implication p q => .implies p.value q.value
  | binary .disjunction p q => .disj (p.value.disjuncts ++ [q.value])
  | binary .conjunction p q => .conj (p.value.conjuncts ++ [q.value])

/-- The truth value of a phrase, with the usual reading of the connectives. -/
def truth (v : String → Bool) : Phrase → Bool
  | reference name | quoted name => v name
  | top => true
  | bottom => false
  | parentheses p => p.truth v
  | negation p => !p.truth v
  | binary .equivalence p q => p.truth v == q.truth v
  | binary .implication p q => !p.truth v || q.truth v
  | binary .disjunction p q => p.truth v || q.truth v
  | binary .conjunction p q => p.truth v && q.truth v

/-- The formula of a phrase is true iff the phrase is. -/
theorem eval_value (v : String → Bool) (p : Phrase) : p.value.eval v = p.truth v := by
  induction p with
  | reference | quoted | top | bottom => rfl
  | parentheses p ih => exact ih
  | negation p ih => rw [value, Formula.eval, ih, truth]
  | binary op p q ihp ihq =>
    cases op with
    | equivalence =>
      simp only [value, truth, Formula.eval, Formula.evalAll, ihp, ihq]
      cases p.truth v <;> cases q.truth v <;> rfl
    | implication => rw [value, Formula.eval, ihp, ihq, truth]
    | disjunction =>
      rw [value, Formula.eval, Formula.evalAny_eq, List.any_append, Formula.any_eval_disjuncts,
        ihp, truth]
      simp [ihq]
    | conjunction =>
      rw [value, Formula.eval, Formula.evalAll_eq, List.all_append, Formula.all_eval_conjuncts,
        ihp, truth]
      simp [ihq]

end Phrase

/-! ## The grammar -/

/-- The nonterminals of the grammar, the loosest first. -/
inductive Category where
  | equivalence
  | implication
  | disjunction
  | conjunction
  | negation
  | atom
deriving DecidableEq

namespace Category

/-- How tightly the phrases of a category bind. -/
def rank : Category → Nat
  | equivalence => 0
  | implication => 1
  | disjunction => 2
  | conjunction => 3
  | negation => 4
  | atom => 5

/-- The category of the phrases that a category takes over as they are. -/
def tighter? : Category → Option Category
  | equivalence => some implication
  | implication => some disjunction
  | disjunction => some conjunction
  | conjunction => some negation
  | negation => some atom
  | atom => none

theorem rank_tighter {c c' : Category} (h : c.tighter? = some c') : c'.rank = c.rank + 1 := by
  cases c <;> cases h <;> rfl

theorem exists_tighter {c c' : Category} (h : c.rank < c'.rank) :
    ∃ c₁, c.tighter? = some c₁ := by
  cases c with
  | atom => cases c' <;> exact absurd h (by decide)
  | _ => exact ⟨_, rfl⟩

theorem eq_of_rank_eq {c c' : Category} (h : c.rank = c'.rank) : c = c' := by
  revert h
  cases c <;> cases c' <;> decide

end Category

namespace Connective

/-- The category of the phrases with a connective. -/
def category : Connective → Category
  | equivalence => .equivalence
  | implication => .implication
  | disjunction => .disjunction
  | conjunction => .conjunction

/-- What stands to the left of a connective. Implications group to the right, the others to the
left. -/
def leftCategory : Connective → Category
  | equivalence => .equivalence
  | implication => .disjunction
  | disjunction => .disjunction
  | conjunction => .conjunction

/-- What stands to the right of a connective. -/
def rightCategory : Connective → Category
  | equivalence => .implication
  | implication => .implication
  | disjunction => .conjunction
  | conjunction => .negation

@[simp] theorem rank_category (op : Connective) : op.category.rank = op.rank := by cases op <;> rfl

@[simp] theorem rank_leftCategory (op : Connective) : op.leftCategory.rank = op.yieldsTo := by
  cases op <;> rfl

theorem rank_le_yieldsTo (op : Connective) : op.rank ≤ op.yieldsTo := by cases op <;> decide

theorem rank_le_rightCategory (op : Connective) : op.rank ≤ op.rightCategory.rank := by
  cases op <;> decide

end Connective

/-- The rules of the grammar. The sentences are the phrases of the category `equivalence`. -/
inductive Derives : Category → Phrase → Prop
  | reference {name : String} (h : IsPlainName name) : Derives .atom (.reference name)
  | quoted {name : String} (h : IsQuotedName name) : Derives .atom (.quoted name)
  | top : Derives .atom .top
  | bottom : Derives .atom .bottom
  | parentheses {p : Phrase} (h : Derives .equivalence p) : Derives .atom (.parentheses p)
  | negation {p : Phrase} (h : Derives .negation p) : Derives .negation (.negation p)
  | binary (op : Connective) {p q : Phrase} (left : Derives op.leftCategory p)
      (right : Derives op.rightCategory q) : Derives op.category (.binary op p q)
  /-- A phrase that binds tighter than needed. -/
  | tighter {c c' : Category} {p : Phrase} (hc : c.tighter? = some c') (h : Derives c' p) :
      Derives c p

namespace Derives

theorem weaken {c c' : Category} {p : Phrase} (h : Derives c' p) (hr : c.rank ≤ c'.rank) :
    Derives c p := by
  generalize hn : c'.rank - c.rank = n
  induction n generalizing c with
  | zero =>
    obtain rfl := Category.eq_of_rank_eq (show c.rank = c'.rank by omega)
    exact h
  | succ n ih =>
    obtain ⟨c₁, hc⟩ := Category.exists_tighter (show c.rank < c'.rank by omega)
    have hrank := Category.rank_tighter hc
    exact .tighter hc (ih (by omega) (by omega))

/-- The tokens of a derived phrase are as their patterns ask for. -/
theorem valid {c : Category} {p : Phrase} (h : Derives c p) : ∀ t ∈ p.tokens, t.Valid := by
  induction h with
  | reference h => exact List.forall_mem_singleton.mpr h
  | quoted h => exact List.forall_mem_singleton.mpr h
  | top | bottom => exact List.forall_mem_singleton.mpr trivial
  | parentheses h ih =>
    intro t ht
    rcases List.mem_cons.mp ht with rfl | ht
    · trivial
    rcases List.mem_append.mp ht with ht | ht
    · exact ih t ht
    · rw [List.mem_singleton.mp ht]
      trivial
  | negation h ih => exact List.forall_mem_cons.mpr ⟨trivial, ih⟩
  | binary op left right ihl ihr =>
    intro t ht
    rcases List.mem_append.mp ht with ht | ht
    · exact ihl t ht
    · exact List.forall_mem_cons.mpr ⟨trivial, ihr⟩ t ht
  | tighter hc h ih => exact ih

end Derives

/-! ## Texts -/

/-- The text consists of the tokens, one after the other, with spaces in front of them, between
them and after them, or without any. -/
inductive Renders : List Token → List Char → Prop
  | nil {spaces : List Char} (h : ∀ c ∈ spaces, isSpace c) : Renders [] spaces
  | cons {spaces : List Char} (h : ∀ c ∈ spaces, isSpace c) (t : Token) {ts : List Token}
      {cs : List Char} (rest : Renders ts cs) : Renders (t :: ts) (spaces ++ t.text.toList ++ cs)

namespace Renders

theorem space {c : Char} (hc : isSpace c) {ts : List Token} {cs : List Char}
    (h : Renders ts cs) : Renders ts (c :: cs) := by
  cases h with
  | nil h => exact .nil (List.forall_mem_cons.mpr ⟨hc, h⟩)
  | @cons spaces h t ts cs rest =>
    have hspaces : ∀ d ∈ c :: spaces, isSpace d := List.forall_mem_cons.mpr ⟨hc, h⟩
    exact .cons hspaces t rest

theorem token (t : Token) {ts : List Token} {cs : List Char} (h : Renders ts cs) :
    Renders (t :: ts) (t.text.toList ++ cs) := by
  have hspaces : ∀ c ∈ ([] : List Char), isSpace c := fun _ hc => nomatch hc
  exact .cons hspaces t h

end Renders

end Constraint

end Variability
