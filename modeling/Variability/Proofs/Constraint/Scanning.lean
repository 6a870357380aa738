import Variability.Constraint.Lexeme
import Variability.Proofs.Constraint.Grammar

/-!
Splitting a text into tokens, against the patterns of the tokens.

The next token is spelled by the characters that it takes (`nextToken?_sound`).
The other way round, a token is found in front of any text that does not go on
a name (`nextToken?_append`). So a text is a rendering of the tokens that it is
split into (`renders_scanFrom`).
-/

namespace Variability.Constraint

/-! ## References are longest matches -/

/-- No name or reference goes on at the start of the text. -/
def Ends (cs : List Char) : Prop :=
  ∀ c ∈ cs.head?, isNamePart c = false ∧ c ≠ '.' ∧ c ≠ ':'

theorem isNamePart_of_isNameStart {c : Char} (h : isNameStart c) : isNamePart c := by
  simp only [isNameStart, isNamePart, Char.isAlphanum, Bool.or_eq_true] at h ⊢
  rcases h with h | h
  · exact Or.inl (Or.inl h)
  · exact Or.inr h

section
variable (p : Char → Bool)

/-- Every text starts with the characters up to the first one that `p` does not hold of. -/
theorem exists_takeWhile_append (cs : List Char) :
    ∃ ns ds, cs = ns ++ ds ∧ (∀ c ∈ ns, p c) ∧ ∀ c ∈ ds.head?, p c = false := by
  induction cs with
  | nil => exact ⟨[], [], rfl, by simp, by simp⟩
  | cons c cs ih =>
    obtain ⟨ns, ds, rfl, hns, hds⟩ := ih
    cases hc : p c with
    | true => exact ⟨c :: ns, ds, rfl, List.forall_mem_cons.mpr ⟨hc, hns⟩, hds⟩
    | false => exact ⟨[], c :: (ns ++ ds), rfl, by simp, by simpa using hc⟩

theorem takeWhile_append_eq {p : Char → Bool} {ns cs : List Char} (hns : ∀ c ∈ ns, p c)
    (hcs : ∀ c ∈ cs.head?, p c = false) : (ns ++ cs).takeWhile p = ns := by
  rw [List.takeWhile_append_of_pos hns]
  cases cs with
  | nil => exact List.append_nil ns
  | cons c cs => rw [List.takeWhile_cons_of_neg (by simp [hcs c rfl]), List.append_nil]

end

/-- The rest of a reference is the rest of a name, and what is joined to it. -/
theorem restLength_append {ns cs : List Char} (hns : ∀ c ∈ ns, isNamePart c)
    (hcs : ∀ c ∈ cs.head?, isNamePart c = false) :
    restLength (ns ++ cs) = ns.length +
      if joinerLength cs = 0 then 0
      else joinerLength cs + restLength (cs.drop (joinerLength cs)) := by
  have hname : nameLength (ns ++ cs) = ns.length := by
    rw [nameLength, takeWhile_append_eq hns hcs]
  rw [restLength, hname, List.drop_left]
  split
  · rfl
  · show ns.length + joinerLength cs +
      restLength ((ns ++ cs).drop (ns.length + joinerLength cs)) = _
    rw [List.drop_length_add_append, Nat.add_assoc]

theorem restLength_cons {c : Char} (h : isNamePart c) (cs : List Char) :
    restLength (c :: cs) = restLength cs + 1 := by
  obtain ⟨ns, ds, rfl, hns, hds⟩ := exists_takeWhile_append isNamePart cs
  rw [← List.cons_append, restLength_append (List.forall_mem_cons.mpr ⟨h, hns⟩) hds,
    restLength_append hns hds, List.length_cons]
  omega

/-- What stands behind a name either joins another name to it or ends the reference. -/
theorem joinerLength_cases (cs : List Char) :
    joinerLength cs = 0 ∨ ∃ c ds, isNameStart c ∧
      (cs = '.' :: c :: ds ∧ joinerLength cs = 1 ∨
        cs = ':' :: ':' :: c :: ds ∧ joinerLength cs = 2) := by
  unfold joinerLength
  split
  · next c ds =>
    split
    · next h => exact Or.inr ⟨c, ds, h, Or.inl ⟨rfl, rfl⟩⟩
    · exact Or.inl rfl
  · next c ds =>
    split
    · next h => exact Or.inr ⟨c, ds, h, Or.inr ⟨rfl, rfl⟩⟩
    · exact Or.inl rfl
  · exact Or.inl rfl

theorem joinerLength_of_ends {cs : List Char} (h : Ends cs) : joinerLength cs = 0 := by
  rcases joinerLength_cases cs with h₀ | ⟨c, ds, -, ⟨rfl, -⟩ | ⟨rfl, -⟩⟩
  · exact h₀
  · exact absurd rfl (h '.' rfl).2.1
  · exact absurd rfl (h ':' rfl).2.2

/-- The characters that go on a reference belong to it. -/
theorem isReference_take {c : Char} (h : isNameStart c) (cs : List Char) :
    IsReference (c :: cs.take (restLength cs)) := by
  generalize hn : cs.length = n
  induction n using Nat.strongRecOn generalizing c cs with
  | ind n ih =>
    obtain ⟨ns, ds, rfl, hns, hds⟩ := exists_takeWhile_append isNamePart cs
    have hname : IsName (c :: ns) := ⟨h, hns⟩
    rw [restLength_append hns hds, List.take_length_add_append, ← List.cons_append]
    rcases joinerLength_cases ds with h₀ | ⟨d, es, hd, ⟨rfl, h₁⟩ | ⟨rfl, h₂⟩⟩
    · rw [if_pos h₀, List.take_zero, List.append_nil]
      exact .name hname
    · rw [h₁, if_neg (by decide), List.drop_one, List.tail_cons,
        restLength_cons (isNamePart_of_isNameStart hd), Nat.add_comm 1, List.take_succ_cons,
        List.take_succ_cons]
      exact .point hname (ih es.length (by simp at hn; omega) hd es rfl)
    · rw [h₂, if_neg (by decide), List.drop_succ_cons, List.drop_one, List.tail_cons,
        restLength_cons (isNamePart_of_isNameStart hd), Nat.add_comm 2, List.take_succ_cons,
        List.take_succ_cons, List.take_succ_cons]
      exact .colons hname (ih es.length (by simp at hn; omega) hd es rfl)

theorem IsReference.exists_cons {cs : List Char} (h : IsReference cs) :
    ∃ c ds, cs = c :: ds ∧ isNameStart c := by
  cases h with
  | name h | point h | colons h =>
    cases h with
    | mk start part => exact ⟨_, _, rfl, start⟩

theorem IsName.isNamePart {cs : List Char} (h : IsName cs) : ∀ c ∈ cs, isNamePart c := by
  cases h with
  | mk start part => exact List.forall_mem_cons.mpr ⟨isNamePart_of_isNameStart start, part⟩

theorem restLength_point {cs ds : List Char} (h : IsName cs) (hds : IsReference ds)
    (rest : List Char) :
    restLength (cs ++ '.' :: ds ++ rest) = cs.length + (1 + restLength (ds ++ rest)) := by
  obtain ⟨d, es, rfl, hd⟩ := hds.exists_cons
  have hjoin : joinerLength ('.' :: d :: es ++ rest) = 1 := if_pos hd
  rw [List.append_assoc, restLength_append h.isNamePart (by simp [isNamePart]), hjoin,
    if_neg (by decide), List.cons_append, List.drop_one, List.tail_cons]

theorem restLength_colons {cs ds : List Char} (h : IsName cs) (hds : IsReference ds)
    (rest : List Char) :
    restLength (cs ++ ':' :: ':' :: ds ++ rest) = cs.length + (2 + restLength (ds ++ rest)) := by
  obtain ⟨d, es, rfl, hd⟩ := hds.exists_cons
  have hjoin : joinerLength (':' :: ':' :: d :: es ++ rest) = 2 := if_pos hd
  rw [List.append_assoc, restLength_append h.isNamePart (by simp [isNamePart]), hjoin,
    if_neg (by decide), List.cons_append, List.cons_append, List.drop_succ_cons, List.drop_one,
    List.tail_cons]

/-- A reference is read to its end. -/
theorem restLength_reference {cs : List Char} (h : IsReference cs) {rest : List Char}
    (hrest : Ends rest) : restLength (cs ++ rest) = cs.length := by
  induction h with
  | name h =>
    rw [restLength_append h.isNamePart (fun c hc => (hrest c hc).1),
      if_pos (joinerLength_of_ends hrest), Nat.add_zero]
  | point h hds ih =>
    rw [restLength_point h hds, ih, List.length_append, List.length_cons]
    omega
  | colons h hds ih =>
    rw [restLength_colons h hds, ih, List.length_append, List.length_cons, List.length_cons]
    omega

/-- A reference is read to its end at least, whatever comes behind it. -/
theorem length_le_restLength {cs : List Char} (h : IsReference cs) (rest : List Char) :
    cs.length ≤ restLength (cs ++ rest) := by
  induction h with
  | @name cs h =>
    obtain ⟨ns, ds, rfl, hns, hds⟩ := exists_takeWhile_append isNamePart rest
    rw [← List.append_assoc,
      restLength_append (List.forall_mem_append.mpr ⟨h.isNamePart, hns⟩) hds, List.length_append]
    omega
  | point h hds ih =>
    rw [restLength_point h hds, List.length_append, List.length_cons]
    omega
  | colons h hds ih =>
    rw [restLength_colons h hds, List.length_append, List.length_cons, List.length_cons]
    omega

/-! ## The next token -/

theorem isPlainName_or_ofName {name : String} (h : IsReference name.toList) :
    (Token.ofName name).Valid ∧ (Token.ofName name).text = name := by
  unfold Token.ofName
  split
  · next ht => exact ⟨trivial, ht.symm⟩
  · next ht =>
    split
    · next hf => exact ⟨trivial, hf.symm⟩
    · next hf => exact ⟨⟨h, ht, hf⟩, rfl⟩

/-- The next token is as its pattern asks for, and takes the characters that spell it. -/
theorem nextToken?_sound {cs : List Char} {t : Token} {n : Nat}
    (h : nextToken? cs = some (t, n)) : t.Valid ∧ cs.take n = t.text.toList := by
  unfold nextToken? at h
  split at h
  · cases h; exact ⟨trivial, rfl⟩
  · cases h; exact ⟨trivial, rfl⟩
  · cases h; exact ⟨trivial, rfl⟩
  · cases h; exact ⟨trivial, rfl⟩
  · cases h; exact ⟨trivial, rfl⟩
  · cases h; exact ⟨trivial, rfl⟩
  · cases h; exact ⟨trivial, rfl⟩
  · next cs =>
    obtain ⟨ns, ds, rfl, hns, hds⟩ := exists_takeWhile_append (· != '"') cs
    rw [takeWhile_append_eq hns hds] at h
    dsimp only at h
    split at h
    · cases h
    · next hne =>
      cases h
      simp only [List.isEmpty_iff, List.length_append, Bool.or_eq_true, decide_eq_true_eq,
        not_or] at hne
      obtain ⟨d, es, rfl⟩ := List.exists_cons_of_ne_nil (l := ds) (by rintro rfl; simp at hne)
      have hd : d = '"' := by simpa using hds d rfl
      refine ⟨⟨by simpa using hne.1, ?_⟩, ?_⟩
      · intro hm
        simpa using hns '"' (by simpa using hm)
      · subst hd
        rw [List.take_succ_cons, List.take_length_add_append]
        simp [Token.text]
  · next c cs _ _ _ _ _ _ _ _ =>
    split at h
    · next hc =>
      cases h
      have href : IsReference (String.ofList (c :: cs.take (restLength cs))).toList := by
        simpa using isReference_take hc cs
      have hname := isPlainName_or_ofName href
      refine ⟨hname.1, ?_⟩
      rw [hname.2]
      simp
    · cases h
  · cases h

/-! The other way round, a token is found at the start of a text that is spelled by it. -/

/-- Whether a token could go on in the characters behind it. -/
def Token.isWord : Token → Bool
  | .reference _ | .top | .bottom => true
  | _ => false

theorem isReference_constant {name : String} (h : name = "true" ∨ name = "false") :
    IsReference name.toList := by
  rcases h with rfl | rfl
  · have hname : IsName ['t', 'r', 'u', 'e'] :=
      ⟨by decide, List.all_eq_true.mp (by decide)⟩
    exact .name hname
  · have hname : IsName ['f', 'a', 'l', 's', 'e'] :=
      ⟨by decide, List.all_eq_true.mp (by decide)⟩
    exact .name hname

theorem not_isNameStart_of_mem {c : Char} (h : c ∈ ['<', '=', '|', '&', '!', '(', ')', '"']) :
    isNameStart c = false := by
  simp only [List.mem_cons, List.not_mem_nil, or_false] at h
  rcases h with rfl | rfl | rfl | rfl | rfl | rfl | rfl | rfl <;> decide

theorem nextToken?_name {c : Char} (hc : isNameStart c) (cs : List Char) :
    nextToken? (c :: cs) =
      some (Token.ofName (String.ofList (c :: cs.take (restLength cs))), restLength cs + 1) := by
  have hne : ∀ d ∈ ['<', '=', '|', '&', '!', '(', ')', '"'], c ≠ d := by
    rintro d hd rfl
    rw [not_isNameStart_of_mem hd] at hc
    cases hc
  simp only [List.forall_mem_cons, List.not_mem_nil] at hne
  unfold nextToken?
  split
  case h_9 he =>
    obtain ⟨rfl, rfl⟩ := List.cons.inj he
    rw [if_pos hc]
  case h_10 he => cases he
  all_goals next he => exact absurd (List.cons.inj he).1 (by simp [hne])

theorem nextToken?_reference {name : String} (h : IsReference name.toList) {rest : List Char}
    (hrest : Ends rest) :
    nextToken? (name.toList ++ rest) = some (Token.ofName name, name.toList.length) := by
  obtain ⟨c, cs, hcs, hc⟩ := h.exists_cons
  have hlength := restLength_reference h hrest
  rw [hcs, List.cons_append, restLength_cons (isNamePart_of_isNameStart hc), List.length_cons,
    Nat.add_right_cancel_iff] at hlength
  rw [hcs, List.cons_append, nextToken?_name hc, hlength, List.take_left, ← hcs,
    String.ofList_toList, hcs, List.length_cons]

theorem nextToken?_quoted {name : String} (h : IsQuotedName name) (rest : List Char) :
    nextToken? ('"' :: (name.toList ++ '"' :: rest)) =
      some (.quotedReference name, name.toList.length + 2) := by
  have hne : ∀ c ∈ name.toList, (c != '"') = true := by
    intro c hc
    have : c ≠ '"' := by
      rintro rfl
      exact h.no_quote hc
    simpa using this
  simp only [nextToken?]
  rw [takeWhile_append_eq hne (by simp), if_neg (by simpa using h.nonempty), String.ofList_toList]

/-- A token is the next one of every text that it spells the start of, unless it could go on. -/
theorem nextToken?_append {t : Token} (h : t.Valid) {rest : List Char}
    (hrest : t.isWord → Ends rest) :
    nextToken? (t.text.toList ++ rest) = some (t, t.text.toList.length) := by
  cases t with
  | reference name =>
    have hname : Token.ofName name = .reference name := by
      rw [Token.ofName, if_neg h.ne_true, if_neg h.ne_false]
    have hnext := nextToken?_reference h.reference (hrest rfl)
    rw [hname] at hnext
    exact hnext
  | quotedReference name =>
    have htext : (Token.quotedReference name).text.toList = '"' :: (name.toList ++ ['"']) := by
      simp [Token.text]
    rw [htext, List.cons_append, List.append_assoc]
    simpa using nextToken?_quoted h rest
  | top => exact nextToken?_reference (isReference_constant (.inl rfl)) (hrest rfl)
  | bottom => exact nextToken?_reference (isReference_constant (.inr rfl)) (hrest rfl)
  | negation | opening | closing => rfl
  | connective op => cases op <;> rfl


/-! ## Whole texts -/

/-- A text that is split without a stray character is a rendering of its tokens. -/
theorem renders_scanFrom {p : Place} {cs : List Char} (h : (scanFrom p cs).stray = none) :
    (∀ t ∈ (scanFrom p cs).lexemes.map Lexeme.token, t.Valid) ∧
      Renders ((scanFrom p cs).lexemes.map Lexeme.token) cs := by
  fun_induction scanFrom p cs with
  | case1 p => exact ⟨by simp, .nil (by simp)⟩
  | case2 p c cs hc ih => exact ⟨(ih h).1, .space hc (ih h).2⟩
  | case3 p c cs hc hnone => cases h
  | case4 p c cs hc t n hnext rest ih =>
    obtain ⟨hvalid, hrenders⟩ := ih h
    obtain ⟨ht, htake⟩ := nextToken?_sound hnext
    refine ⟨List.forall_mem_cons.mpr ⟨ht, hvalid⟩, ?_⟩
    have hcs := List.take_append_drop n (c :: cs)
    rw [htake] at hcs
    rw [← hcs]
    exact .token t hrenders

/-- Whether a token ends what stands in front of it. -/
def Token.isBreak : Token → Bool
  | .connective _ | .closing => true
  | _ => false

theorem ends_of_isSpace {c : Char} (h : isSpace c) (cs : List Char) : Ends (c :: cs) := by
  have hc : c = ' ' ∨ c = '\t' ∨ c = '\x0c' ∨ c = '\r' ∨ c = '\n' := by
    simpa [isSpace, or_assoc] using h
  intro d hd
  cases hd
  rcases hc with rfl | rfl | rfl | rfl | rfl <;> decide

theorem not_isSpace_of_isNameStart {c : Char} (h : isNameStart c) : isSpace c = false := by
  rw [Bool.eq_false_iff]
  intro hspace
  have hpart := (ends_of_isSpace hspace [] c rfl).1
  rw [isNamePart_of_isNameStart h] at hpart
  cases hpart

/-- A token starts with a character that is no space. -/
theorem Token.Valid.exists_cons {t : Token} (h : t.Valid) :
    ∃ c cs, t.text.toList = c :: cs ∧ isSpace c = false := by
  cases t with
  | reference name =>
    obtain ⟨c, cs, hcs, hc⟩ := h.reference.exists_cons
    exact ⟨c, cs, hcs, not_isSpace_of_isNameStart hc⟩
  | quotedReference name => exact ⟨'"', name.toList ++ ['"'], by simp [Token.text], by decide⟩
  | connective op => cases op <;> exact ⟨_, _, rfl, by decide⟩
  | _ => exact ⟨_, _, rfl, by decide⟩

/-- Nothing goes on a name where the text ends or a token comes that ends what is in front. -/
theorem ends_of_renders {ts : List Token} {cs : List Char} (h : Renders ts cs)
    (hbreak : ∀ t ∈ ts.head?, t.isBreak) : Ends cs := by
  cases h with
  | nil h =>
    cases cs with
    | nil => exact fun _ hc => nomatch hc
    | cons c cs => exact ends_of_isSpace (h c List.mem_cons_self) cs
  | @cons spaces h t ts cs rest =>
    cases spaces with
    | cons c spaces => exact ends_of_isSpace (h c List.mem_cons_self) _
    | nil =>
      have ht : t.isBreak := hbreak t rfl
      cases t with
      | connective op => cases op <;> exact fun c hc => by cases hc; decide
      | closing => exact fun c hc => by cases hc; decide
      | _ => cases ht

theorem scanFrom_spaces {spaces : List Char} (h : ∀ c ∈ spaces, isSpace c) (p : Place)
    (cs : List Char) : ∃ p', scanFrom p (spaces ++ cs) = scanFrom p' cs := by
  induction spaces generalizing p with
  | nil => exact ⟨p, rfl⟩
  | cons c spaces ih =>
    obtain ⟨hc, h⟩ := List.forall_mem_cons.mp h
    obtain ⟨p', hp'⟩ := ih h (p.after c)
    exact ⟨p', by rw [List.cons_append, scanFrom, if_pos hc, hp']⟩

/-- Behind the next token the scanner goes on. -/
theorem scanFrom_of_nextToken? {t : Token} {n : Nat} {cs : List Char}
    (h : nextToken? (t.text.toList ++ cs) = some (t, n)) (p : Place) :
    scanFrom p (t.text.toList ++ cs) =
      { scanFrom (p.afterAll t.text.toList) cs with
        lexemes := ⟨t, p⟩ :: (scanFrom (p.afterAll t.text.toList) cs).lexemes } := by
  obtain ⟨ht, htake⟩ := nextToken?_sound h
  have hdrop : (t.text.toList ++ cs).drop n = cs := by
    have happend := List.take_append_drop n (t.text.toList ++ cs)
    rwa [htake, List.append_cancel_left_eq] at happend
  obtain ⟨c, ds, hds, hc⟩ := ht.exists_cons
  rw [hds, List.cons_append] at h htake hdrop ⊢
  rw [scanFrom, if_neg (by simp [hc])]
  split
  · next hnone =>
    rw [hnone] at h
    cases h
  · next t' n' hsome =>
    rw [h] at hsome
    cases hsome
    rw [htake, hdrop]

theorem scanFrom_token {t : Token} (h : t.Valid) {cs : List Char} (hcs : t.isWord → Ends cs)
    (p : Place) :
    scanFrom p (t.text.toList ++ cs) =
      { scanFrom (p.afterAll t.text.toList) cs with
        lexemes := ⟨t, p⟩ :: (scanFrom (p.afterAll t.text.toList) cs).lexemes } :=
  scanFrom_of_nextToken? (nextToken?_append h hcs) p

end Variability.Constraint
