import Mathlib.Data.Nat.Digits.Lemmas
import Variability.Value

/-!
Values that cannot be written.

What is proved:
  1. A value cannot be written iff a whole number of too many digits stands in it
     (`literal?_eq_none_iff`).
  2. The whole number that a value stands for has too many digits only if the value
     is this number (`hasLongNumber_of_toInteger`): a text of so many digits is not
     read, and the double-precision numbers end long before (`ofBits_finite`).
-/

namespace Variability

/-! ## Numbers of few digits -/

namespace Number

theorem isTooLong_iff {n : Int} : isTooLong n = true ↔ 10 ^ maxDigits ≤ n.natAbs := by
  rw [isTooLong, decide_eq_true_eq, Nat.pow_eq]

theorem writeInteger?_eq_none_iff {n : Int} : writeInteger? n = none ↔ isTooLong n = true := by
  rw [writeInteger?]
  split
  · next h => simp [h]
  · next h => simp [h]

theorem not_isTooLong_of_lt {n : Int} {base k : Nat} (hbase : base ≤ 10) (hk : k ≤ maxDigits)
    (h : n.natAbs < base ^ k) : ¬isTooLong n = true := by
  rw [isTooLong_iff, Nat.not_le]
  calc n.natAbs
      < base ^ k := h
    _ ≤ 10 ^ k := Nat.pow_le_pow_left hbase k
    _ ≤ 10 ^ maxDigits := Nat.pow_le_pow_right (by decide) hk

theorem natAbs_withSign (negative : Bool) (n : Nat) : (withSign negative n).natAbs = n := by
  cases negative
  · exact Int.natAbs_natCast n
  · exact (Int.natAbs_neg _).trans (Int.natAbs_natCast n)

/-! ### Texts -/

theorem digitValues?_lt {cs : List Char} {ds : List Nat} (h : digitValues? cs = some ds) :
    ∀ d ∈ ds, d < 10 := by
  fun_induction digitValues? cs generalizing ds with
  | case1 => cases h
  | case2 c =>
    obtain ⟨d, hd, rfl⟩ := Option.map_eq_some_iff.mp h
    exact List.forall_mem_singleton.mpr (Text.digitValue?_lt hd)
  | case3 c rest ih =>
    obtain ⟨d, hd, h⟩ := Option.bind_eq_some_iff.mp h
    obtain ⟨ds', hds, h⟩ := Option.bind_eq_some_iff.mp h
    cases h
    exact List.forall_mem_cons.mpr ⟨Text.digitValue?_lt hd, ih hds⟩
  | case4 c rest _ _ ih =>
    obtain ⟨d, hd, h⟩ := Option.bind_eq_some_iff.mp h
    obtain ⟨ds', hds, h⟩ := Option.bind_eq_some_iff.mp h
    cases h
    exact List.forall_mem_cons.mpr ⟨Text.digitValue?_lt hd, ih hds⟩

theorem ofDigits_eq (ds : List Nat) : ofDigits ds = Nat.ofDigits 10 ds.reverse := by
  rw [Nat.ofDigits_eq_foldr, List.foldr_reverse, ofDigits]
  simp only [Nat.cast_id, Nat.add_comm]

theorem ofDigits_lt {ds : List Nat} (h : ∀ d ∈ ds, d < 10) : ofDigits ds < 10 ^ ds.length := by
  rw [ofDigits_eq, ← List.length_reverse]
  exact Nat.ofDigits_lt_base_pow_length (by decide) (fun d hd => h d (List.mem_reverse.mp hd))

/-- What is read does not have too many digits. -/
theorem not_isTooLong_of_readInteger? {s : String} {n : Int} (h : readInteger? s = some n) :
    ¬isTooLong n = true := by
  obtain ⟨k, hk, rfl⟩ := Option.map_eq_some_iff.mp h
  obtain ⟨ds, hds, hk⟩ := Option.bind_eq_some_iff.mp hk
  split at hk
  · next hlength =>
    cases hk
    refine not_isTooLong_of_lt (Nat.le_refl 10) hlength ?_
    rw [natAbs_withSign]
    exact ofDigits_lt (digitValues?_lt hds)
  · cases hk

/-! ### Double-precision numbers -/

/-- A finite number has at most 53 binary digits, and the last one stands for at most `2 ^ 971`. -/
theorem ofBits_finite {bits : UInt64} {negative : Bool} {m : Nat} {q : Int}
    (h : Binary.ofBits bits = .finite negative m q) : m < 2 ^ 53 ∧ q ≤ 971 := by
  have hfraction : (bits &&& 0xFFFFFFFFFFFFF).toNat ≤ 2 ^ 52 - 1 := by
    rw [UInt64.toNat_and]
    exact Nat.and_le_right
  have hexponent : ((bits >>> 52) &&& 0x7FF).toNat ≤ 0x7FF := by
    rw [UInt64.toNat_and]
    exact Nat.and_le_right
  have hnormal : Binary.leastNormal = 2 ^ 52 := rfl
  simp only [Binary.ofBits] at h
  split at h
  · split at h <;> cases h
  · split at h
    · cases h
      exact ⟨by omega, by decide⟩
    · cases h
      rw [hnormal, Binary.leastExponent]
      constructor <;> omega

theorem wholePart_lt {m a b : Nat} {q : Int} (hm : m < 2 ^ a) (hq : q ≤ b) :
    Binary.wholePart m q < 2 ^ (a + b) := by
  rw [Binary.wholePart, Nat.pow_eq, Nat.pow_eq]
  split
  · calc m * 2 ^ q.toNat
        < 2 ^ a * 2 ^ q.toNat := Nat.mul_lt_mul_of_pos_right hm (Nat.two_pow_pos _)
      _ ≤ 2 ^ a * 2 ^ b := Nat.mul_le_mul_left _ (Nat.pow_le_pow_right (by decide) (by omega))
      _ = 2 ^ (a + b) := (Nat.pow_add 2 a b).symm
  · calc m / 2 ^ (-q).toNat
        ≤ m := Nat.div_le_self ..
      _ < 2 ^ a := hm
      _ ≤ 2 ^ (a + b) := Nat.pow_le_pow_right (by decide) (Nat.le_add_right a b)

end Number

namespace Value

/-! ## Values with a long number -/

/-- A whole number of too many digits stands in the value. -/
inductive HasLongNumber : Value → Prop
  | int {n : Int} (h : Number.isTooLong n = true) : HasLongNumber (.int n)
  | item {items : List Value} {v : Value} (hv : v ∈ items) (h : v.HasLongNumber) :
      HasLongNumber (.list items)
  | entry {entries : List (String × Value)} {e : String × Value} (he : e ∈ entries)
      (h : e.2.HasLongNumber) : HasLongNumber (.dict entries)

mutual

/-- Only a whole number of too many digits keeps a value from being written. -/
theorem literal?_eq_none_iff : ∀ v : Value, v.literal? = none ↔ v.HasLongNumber
  | .null | .bool _ | .float _ | .text _ => by
    rw [literal?]
    exact iff_of_false (fun h => nomatch h) (fun h => nomatch h)
  | .int n => by
    rw [literal?, Number.writeInteger?_eq_none_iff]
    exact ⟨.int, fun | .int h => h⟩
  | .list items => by
    have hitems : (Value.list items).literal? = none ↔ literals? items = none := by
      rw [literal?]
      cases literals? items <;> simp
    rw [hitems, literals?_eq_none_iff items]
    exact ⟨fun ⟨v, hv, h⟩ => .item hv h, fun | .item hv h => ⟨_, hv, h⟩⟩
  | .dict entries => by
    have hentries : (Value.dict entries).literal? = none ↔ entryLiterals? entries = none := by
      rw [literal?]
      cases entryLiterals? entries <;> simp
    rw [hentries, entryLiterals?_eq_none_iff entries]
    exact ⟨fun ⟨e, he, h⟩ => .entry he h, fun | .entry he h => ⟨_, he, h⟩⟩

theorem literals?_eq_none_iff :
    ∀ vs : List Value, literals? vs = none ↔ ∃ v ∈ vs, v.HasLongNumber
  | [] => by simp [literals?]
  | v :: rest => by
    rw [List.exists_mem_cons_iff, ← literal?_eq_none_iff v, ← literals?_eq_none_iff rest, literals?]
    cases v.literal? <;> cases literals? rest <;> simp

theorem entryLiterals?_eq_none_iff :
    ∀ es : List (String × Value), entryLiterals? es = none ↔ ∃ e ∈ es, e.2.HasLongNumber
  | [] => by simp [entryLiterals?]
  | (k, v) :: rest => by
    rw [List.exists_mem_cons_iff, ← literal?_eq_none_iff v, ← entryLiterals?_eq_none_iff rest,
      entryLiterals?]
    cases v.literal? <;> cases entryLiterals? rest <;> simp

end

theorem display?_eq_none_iff (v : Value) : v.display? = none ↔ v.HasLongNumber := by
  cases v with
  | text s => exact iff_of_false (fun h => nomatch h) (fun h => nomatch h)
  | null | bool | int | float | list | dict => exact literal?_eq_none_iff _

/-- A value that stands for a number of too many digits is this number. -/
theorem hasLongNumber_of_toInteger {v : Value} {n : Int} (hv : v.toInteger = .ok n)
    (hn : Number.isTooLong n = true) : v.HasLongNumber := by
  cases v with
  | int k =>
    obtain rfl := Except.ok.inj hv
    exact .int hn
  | bool b =>
    obtain rfl := Except.ok.inj hv
    refine absurd hn (Number.not_isTooLong_of_lt (k := 1) (Nat.le_refl 10) (by decide) ?_)
    cases b <;> decide
  | text s =>
    simp only [toInteger] at hv
    split at hv
    · next hread =>
      obtain rfl := Except.ok.inj hv
      exact absurd hn (Number.not_isTooLong_of_readInteger? hread)
    · cases hv
  | float x =>
    simp only [toInteger] at hv
    split at hv
    · cases hv
    · cases hv
    · next negative m q hfinite =>
      obtain ⟨hm, hq⟩ := Number.ofBits_finite hfinite
      obtain rfl := Except.ok.inj hv
      have hlt := (Number.natAbs_withSign negative _).trans_lt (Number.wholePart_lt hm hq)
      exact absurd hn (Number.not_isTooLong_of_lt (by decide) (by decide) hlt)
  | null | list | dict => cases hv

end Value

end Variability
