import Variability.Build.Feature

/-!
Keys of attributes as an encoding of scopes and names.

A key writes every run of colons in a scope or a name one colon longer
(`lengthenRuns`) and puts a single colon between the two (`encode`). Reading
walks over a key with one bit of memory, whether the character before was a
colon, so every lemma about it is stated for both values of that bit.

What is proved:
  1. `isSome_decode?_iff`: a colon separates if no other colon stands beside it
     (`isIsolated`), and a key is read iff it has at most one of these.
  2. `decode?_encode`: the key of a scope and a name is read as these, if the
     scope does not end with a colon and the name does not start with one.
  3. `encode_of_decode?`: a key that is read is the key of what it is read as,
     which has that form.
  4. `keys_correspond`: all of this together; no two keys are read alike.
-/

namespace Variability.AttributeKey

/-! ## Colons that separate -/

/-- Whether the character at a place is a colon without another one beside it; `afterColon` tells
whether a colon stands in front of all characters. -/
def isIsolated (afterColon : Bool) (cs : List Char) (k : Nat) : Bool :=
  cs[k]? = some ':' && cs[k + 1]? ≠ some ':' &&
    match k with
    | 0 => !afterColon
    | k + 1 => cs[k]? ≠ some ':'

/-- The number of colons without another one beside them. -/
def isolatedColons (afterColon : Bool) (cs : List Char) : Nat :=
  (List.range cs.length).countP (isIsolated afterColon cs)

theorem isolatedColons_cons (afterColon : Bool) (c : Char) (cs : List Char) :
    isolatedColons afterColon (c :: cs) =
      isolatedColons (c = ':') cs +
        if c = ':' && !afterColon && cs.head? != some ':' then 1 else 0 := by
  have hfirst : isIsolated afterColon (c :: cs) 0 =
      (c = ':' && !afterColon && cs.head? != some ':') := by
    cases cs with
    | nil => simp [isIsolated]
    | cons d ds => rw [Bool.eq_iff_iff]; simp [isIsolated, and_assoc, and_comm]
  have hlater : isIsolated afterColon (c :: cs) ∘ Nat.succ = isIsolated (c = ':') cs := by
    funext k
    cases k <;> simp [isIsolated]
  rw [isolatedColons, List.length_cons, List.range_succ_eq_map, List.countP_cons, List.countP_map,
    hlater, hfirst]
  rfl

/-- A key is split at its isolated colons. -/
theorem length_parts (afterColon : Bool) (cs : List Char) :
    (parts afterColon cs).2.length = isolatedColons afterColon cs := by
  fun_induction parts afterColon cs with
  | case1 => rfl
  | case2 afterColon c cs h first others hparts ih =>
    have hc : c = ':' := by
      rw [Bool.and_eq_true, Bool.and_eq_true, decide_eq_true_eq] at h
      exact h.1.1
    rw [isolatedColons_cons, if_pos h, decide_eq_true hc, ← ih, hparts]
    rfl
  | case3 afterColon c cs h first others hparts ih =>
    rw [isolatedColons_cons, if_neg h, ← ih, hparts]
    rfl

/-- A key stands for a scope and a name iff it has at most one isolated colon. -/
theorem isSome_decode?_iff {key : String} :
    (decode? key).isSome ↔ isolatedColons false key.toList ≤ 1 := by
  rw [← length_parts, decode?]
  rcases parts false key.toList with ⟨first, _ | ⟨second, _ | ⟨third, others⟩⟩⟩ <;> simp

/-! ## Writing keys -/

/-- The characters with every run of colons one colon longer, at its end. -/
def lengthenRuns : List Char → List Char
  | [] => []
  | c :: cs =>
    if c = ':' && cs.head? != some ':' then ':' :: ':' :: lengthenRuns cs
    else c :: lengthenRuns cs

/-- The part of a key that stands for a text. -/
def encodePart (s : String) : String := String.ofList (lengthenRuns s.toList)

/-- The key of a scope, if there is one, and a name. -/
def encode : Option String × String → String
  | (none, name) => encodePart name
  | (some scope, name) => encodePart scope ++ ":" ++ encodePart name

/-- A single colon between the scope and the name is recognised: there is no scope, or it does not
end with a colon and the name does not start with one. -/
def Separable : Option String × String → Prop
  | (none, _) => True
  | (some scope, name) => scope.toList.getLast? ≠ some ':' ∧ name.toList.head? ≠ some ':'

/-- Whether a colon stands in front of what follows the characters. -/
def endsInColon (afterColon : Bool) : List Char → Bool
  | [] => afterColon
  | c :: cs => endsInColon (c = ':') cs

theorem endsInColon_iff {afterColon : Bool} {cs : List Char} :
    endsInColon afterColon cs = true ↔ cs = [] ∧ afterColon = true ∨ cs.getLast? = some ':' := by
  induction cs generalizing afterColon with
  | nil => simp [endsInColon]
  | cons c cs ih =>
    rw [endsInColon, ih]
    cases cs <;> simp

theorem head?_lengthenRuns (cs : List Char) : (lengthenRuns cs).head? = cs.head? := by
  cases cs with
  | nil => rfl
  | cons c cs =>
    rw [lengthenRuns]
    split
    · next h => simp_all
    · rfl

/-! ## Reading what was written -/

/-- Of a longer run no colon is isolated, so nothing is split. -/
theorem parts_lengthenRuns_append (afterColon : Bool) (cs rest : List Char) :
    parts afterColon (lengthenRuns cs ++ rest) =
      (lengthenRuns cs ++ (parts (endsInColon afterColon cs) rest).1,
        (parts (endsInColon afterColon cs) rest).2) := by
  induction cs generalizing afterColon with
  | nil => rfl
  | cons c cs ih =>
    rw [lengthenRuns, endsInColon]
    split
    · -- The run ends here: the first colon has the second one beside it, and the other way round.
      next h =>
      obtain rfl : c = ':' := by simp_all
      simp [parts, ih]
    · next h =>
      have hnext : ¬(c = ':' && !afterColon && (lengthenRuns cs ++ rest).head? != some ':') := by
        intro hsplit
        rw [List.head?_append, head?_lengthenRuns] at hsplit
        simp_all
      rw [List.cons_append, parts, if_neg hnext, ih]
      rfl

theorem parts_lengthenRuns (afterColon : Bool) (cs : List Char) :
    parts afterColon (lengthenRuns cs) = (lengthenRuns cs, []) := by
  have hparts := parts_lengthenRuns_append afterColon cs []
  rwa [parts, List.append_nil] at hparts

/-- What was made longer is made shorter again; behind a colon the first run is left as it is. -/
theorem shortenRuns_lengthenRuns (afterColon : Bool) (cs : List Char) :
    shortenRuns afterColon (lengthenRuns cs) =
      if afterColon && cs.head? == some ':' then ':' :: cs else cs := by
  induction cs generalizing afterColon with
  | nil => simp [lengthenRuns, shortenRuns]
  | cons c cs ih =>
    rw [lengthenRuns]
    by_cases hc : c = ':'
    · subst hc
      by_cases hcs : cs.head? = some ':' <;> cases afterColon <;>
        simp [shortenRuns, ih, hcs, head?_lengthenRuns]
    · simp [shortenRuns, ih, hc]

theorem decodePart_lengthenRuns (s : String) : decodePart (lengthenRuns s.toList) = s := by
  rw [decodePart, shortenRuns_lengthenRuns]
  exact String.ofList_toList

/-- The key of a scope and a name is read as these. -/
theorem decode?_encode {p : Option String × String} (h : Separable p) :
    decode? (encode p) = some p := by
  obtain ⟨_ | scope, name⟩ := p
  · rw [encode, decode?, encodePart, String.toList_ofList, parts_lengthenRuns]
    simp [decodePart_lengthenRuns]
  · obtain ⟨hscope, hname⟩ := h
    have hfree : endsInColon false scope.toList = false := by
      rw [← Bool.not_eq_true, endsInColon_iff]
      simpa using hscope
    have hkey : (encode (some scope, name)).toList =
        lengthenRuns scope.toList ++ ':' :: lengthenRuns name.toList := by
      simp [encode, encodePart]
    have hsplit : parts false (':' :: lengthenRuns name.toList) =
        ([], [lengthenRuns name.toList]) := by
      simp [parts, parts_lengthenRuns, head?_lengthenRuns, hname]
    rw [decode?, hkey, parts_lengthenRuns_append, hfree, hsplit]
    simp [decodePart_lengthenRuns]

/-! ## Writing what was read -/

/-- The parts with single colons between them. -/
def joined : List Char × List (List Char) → List Char
  | (first, others) => first ++ others.flatMap (':' :: ·)

theorem joined_parts (afterColon : Bool) (cs : List Char) : joined (parts afterColon cs) = cs := by
  fun_induction parts afterColon cs with
  | case1 => rfl
  | case2 afterColon c cs h first others hparts ih =>
    obtain rfl : c = ':' := by simp_all
    rw [hparts] at ih
    rw [← ih]
    rfl
  | case3 afterColon c cs h first others hparts ih =>
    rw [hparts] at ih
    rw [← ih]
    rfl

/-- Behind a colon the first character belongs to the first part. -/
theorem head?_parts (cs : List Char) : (parts true cs).1.head? = cs.head? := by
  cases cs with
  | nil => rfl
  | cons c cs => simp [parts]

theorem shortenRuns_of_head {cs : List Char} (h : cs.head? ≠ some ':') (afterColon : Bool) :
    shortenRuns afterColon cs = shortenRuns false cs := by
  cases cs with
  | nil => rfl
  | cons c cs =>
    have hc : c ≠ ':' := by simpa using h
    simp [shortenRuns, hc]

theorem head?_shortenRuns (cs : List Char) : (shortenRuns true cs).head? = cs.head? := by
  cases cs with
  | nil => rfl
  | cons c cs => simp [shortenRuns]

/-- What was made shorter is made longer again; behind a colon the first run is longer then, as it
was left as it is. -/
theorem lengthenRuns_shortenRuns_parts (afterColon : Bool) (cs : List Char) :
    (lengthenRuns (shortenRuns afterColon (parts afterColon cs).1) =
      if afterColon && (parts afterColon cs).1.head? == some ':' then
        ':' :: (parts afterColon cs).1
      else (parts afterColon cs).1) ∧
    ∀ part ∈ (parts afterColon cs).2, part.head? ≠ some ':' ∧
      lengthenRuns (shortenRuns false part) = part := by
  fun_induction parts afterColon cs with
  | case1 => simp [shortenRuns, lengthenRuns]
  | case2 afterColon c cs h first others hparts ih =>
    have hhead := head?_parts cs
    rw [hparts] at ih hhead
    have hfirst : first.head? ≠ some ':' := by simp_all
    refine ⟨by simp [shortenRuns, lengthenRuns], List.forall_mem_cons.mpr ⟨⟨hfirst, ?_⟩, ih.2⟩⟩
    have hlonger := ih.1
    rwa [shortenRuns_of_head hfirst, if_neg (by simpa using hfirst)] at hlonger
  | case3 afterColon c cs h first others hparts ih =>
    rw [hparts] at ih
    refine ⟨?_, ih.2⟩
    by_cases hc : c = ':'
    · subst hc
      replace hparts : parts true cs = (first, others) := hparts
      have hhead := head?_parts cs
      rw [hparts] at hhead
      have hlonger : lengthenRuns (shortenRuns true first) =
          if first.head? == some ':' then ':' :: first else first := ih.1
      cases afterColon with
      | true =>
        -- The run goes on, and no colon of it is left out.
        by_cases hf : first.head? = some ':' <;>
          simp [shortenRuns, lengthenRuns, head?_shortenRuns, hlonger, hf]
      | false =>
        -- The colon is not isolated, so it is left out here and added at the end of the run.
        have hf : first.head? = some ':' := by simp_all
        simp [shortenRuns, hlonger, hf]
    · simp_all [shortenRuns, lengthenRuns]

/-- A part that others follow does not end with a colon: the next one is isolated. -/
theorem endsInColon_parts {afterColon : Bool} {cs : List Char} (h : (parts afterColon cs).2 ≠ []) :
    endsInColon afterColon (parts afterColon cs).1 = false := by
  fun_induction parts afterColon cs with
  | case1 => exact absurd rfl h
  | case2 afterColon c cs hsplit first others hparts ih =>
    rw [endsInColon]
    simp_all
  | case3 afterColon c cs hkeep first others hparts ih =>
    rw [hparts] at ih
    exact ih h

theorem endsInColon_of_ne_nil {cs : List Char} (h : cs ≠ []) (afterColon : Bool) :
    endsInColon afterColon cs = endsInColon false cs := by
  cases cs with
  | nil => exact absurd rfl h
  | cons c cs => rfl

theorem endsInColon_shortenRuns (afterColon : Bool) (cs : List Char) :
    endsInColon afterColon (shortenRuns afterColon cs) = endsInColon afterColon cs := by
  fun_induction shortenRuns afterColon cs with
  | case1 => rfl
  | case2 afterColon c cs h ih =>
    obtain ⟨rfl, hcs⟩ : c = ':' ∧ cs.head? = some ':' := by simp_all
    have hne : shortenRuns true cs ≠ [] := by
      rw [ne_eq, ← List.head?_eq_none_iff, head?_shortenRuns, hcs]
      exact Option.some_ne_none ':'
    rw [endsInColon_of_ne_nil hne, ← endsInColon_of_ne_nil hne true, ih]
    rfl
  | case3 afterColon c cs h ih => exact ih

theorem encodePart_decodePart {cs : List Char} (h : lengthenRuns (shortenRuns false cs) = cs) :
    encodePart (decodePart cs) = String.ofList cs := by
  rw [encodePart, decodePart, String.toList_ofList, h]

/-- A key that is read is the key of what it is read as. -/
theorem encode_of_decode? {key : String} {p : Option String × String} (h : decode? key = some p) :
    Separable p ∧ encode p = key := by
  have hjoined := joined_parts false key.toList
  have hends : (parts false key.toList).2 ≠ [] →
      endsInColon false (parts false key.toList).1 = false := endsInColon_parts
  obtain ⟨hfirst, hothers⟩ := lengthenRuns_shortenRuns_parts false key.toList
  rw [Bool.false_and, if_neg Bool.false_ne_true] at hfirst
  rw [decode?] at h
  generalize parts false key.toList = split at *
  split at h
  · next name =>
    obtain rfl := Option.some.inj h
    refine ⟨trivial, ?_⟩
    rw [encode, encodePart_decodePart hfirst, ← String.ofList_toList (s := key), ← hjoined]
    simp [joined]
  · next scope name =>
    obtain rfl := Option.some.inj h
    obtain ⟨hhead, hname⟩ := hothers name List.mem_cons_self
    refine ⟨⟨?_, ?_⟩, ?_⟩
    · have hscope := hends (List.cons_ne_nil _ _)
      rw [← endsInColon_shortenRuns, ← Bool.not_eq_true, endsInColon_iff] at hscope
      rw [decodePart, String.toList_ofList]
      exact fun hlast => hscope (Or.inr hlast)
    · rwa [decodePart, String.toList_ofList, ← shortenRuns_of_head hhead true, head?_shortenRuns]
    · rw [encode, encodePart_decodePart hfirst, encodePart_decodePart hname,
        ← String.ofList_toList (s := key), ← hjoined]
      simp [joined, String.append_assoc]
  · cases h

/-! ## Keys, scopes and names -/

/-- Keys are read as what they are the keys of. -/
theorem decode?_eq_some_iff {key : String} {p : Option String × String} :
    decode? key = some p ↔ Separable p ∧ encode p = key :=
  ⟨encode_of_decode?, fun ⟨h, he⟩ => he ▸ decode?_encode h⟩

/-- No two keys are read alike. -/
theorem eq_of_decode? {key key' : String} {p : Option String × String} (h : decode? key = some p)
    (h' : decode? key' = some p) : key = key' :=
  (encode_of_decode? h).2.symm.trans (encode_of_decode? h').2

theorem decode?_eq_none_iff {key : String} :
    decode? key = none ↔ 2 ≤ isolatedColons false key.toList := by
  rw [← Option.not_isSome_iff_eq_none, isSome_decode?_iff]
  omega

/-- No attribute is looked up for a key that is refused. -/
theorem resolveAttribute_of_decode? {key : String} (h : decode? key = none) (type : ValueType)
    (m : FeatureModel) : Build.resolveAttribute key type m = .error (.invalidKey key) m := by
  have hplain : Attribute.ofPlainKey? key = none := by
    rw [decode?_eq_none_iff] at h
    unfold Attribute.ofPlainKey?
    split
    · next he =>
      subst he
      exact absurd h (by decide)
    · split
      · next he =>
        subst he
        exact absurd h (by decide)
      · rfl
  rw [Build.resolveAttribute, hplain, h]
  rfl

/-- Every name, and every scope that does not end with a colon together with every name that does
not start with one, has a key that is read as it. A key with two isolated colons or more is refused,
also where its attribute is looked up; every other key is read, and what it is read as has this key.
So no two keys are read alike. -/
theorem keys_correspond :
    (∀ name, decode? (encode (none, name)) = some (none, name)) ∧
    (∀ scope name : String, scope.toList.getLast? ≠ some ':' → name.toList.head? ≠ some ':' →
      decode? (encode (some scope, name)) = some (some scope, name)) ∧
    (∀ key,
      (2 ≤ isolatedColons false key.toList ∧ decode? key = none ∧
        ∀ type m, Build.resolveAttribute key type m = .error (.invalidKey key) m) ∨
      (isolatedColons false key.toList ≤ 1 ∧
        ∃ p, decode? key = some p ∧ Separable p ∧ encode p = key)) ∧
    ∀ key key' p, decode? key = some p → decode? key' = some p → key = key' := by
  refine ⟨fun name => decode?_encode trivial,
    fun scope name hscope hname => decode?_encode ⟨hscope, hname⟩, fun key => ?_,
    fun key key' p => eq_of_decode?⟩
  cases h : decode? key with
  | none => exact Or.inl ⟨decode?_eq_none_iff.mp h, rfl, resolveAttribute_of_decode? h⟩
  | some p =>
    have hsome : (decode? key).isSome := by
      rw [h]
      rfl
    exact Or.inr ⟨isSome_decode?_iff.mp hsome, p, rfl, decode?_eq_some_iff.mp h⟩

/-- Runs of colons inside the scope and at its start, and at the end of the name. -/
theorem keys_correspond_runs :
    decode? "::a:::b:c::" = some (some ":a::b", "c:") ∧
    decode? "a:b::c:d" = none ∧
    ∀ key, decode? key = some (some ":a::b", "c:") → key = "::a:::b:c::" := by
  obtain ⟨-, hscoped, hkeys, hinjective⟩ := keys_correspond
  have hread : decode? "::a:::b:c::" = some (some ":a::b", "c:") :=
    hscoped ":a::b" "c:" (by decide) (by decide)
  refine ⟨hread, ?_, fun key hkey => hinjective _ _ _ hkey hread⟩
  rcases hkeys "a:b::c:d" with ⟨-, hnone, -⟩ | ⟨hone, -⟩
  · exact hnone
  · exact absurd hone (by decide)

end Variability.AttributeKey
