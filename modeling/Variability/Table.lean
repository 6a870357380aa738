/-!
Insertion-ordered tables: each key occurs once, at the place of its first
insertion, with the value of its last one.

The keys of a table after an insertion are the keys before it, with the new key
at the end if it is new (`keys_insert`); looking up the inserted key gives the
inserted value, and every other key keeps its own (`find?_insert`).
-/

namespace Variability

universe u v

/-- Appends `x` unless it occurs already. -/
def appendNew {α : Type u} [DecidableEq α] (xs : List α) (x : α) : List α :=
  if x ∈ xs then xs else xs ++ [x]

theorem mem_appendNew {α : Type u} [DecidableEq α] {xs : List α} {x y : α} :
    y ∈ appendNew xs x ↔ y ∈ xs ∨ y = x := by
  unfold appendNew
  split
  · next h => exact ⟨Or.inl, fun hy => hy.elim id (fun e => e ▸ h)⟩
  · simp

theorem nodup_appendNew {α : Type u} [DecidableEq α] {xs : List α} (h : xs.Nodup) (x : α) :
    (appendNew xs x).Nodup := by
  unfold appendNew
  split
  · exact h
  · next hx => grind [List.nodup_append]

/-- A table whose keys are kept in the order of their first insertion. -/
structure Table (κ : Type u) (α : Type v) where
  entries : List (κ × α)
  nodup : (entries.map Prod.fst).Nodup

namespace Table

variable {κ : Type u} {α : Type v}

/-- The table without entries. -/
def empty : Table κ α := ⟨[], List.nodup_nil⟩

instance : Inhabited (Table κ α) := ⟨empty⟩

/-- The keys, in order of first insertion. -/
def keys (t : Table κ α) : List κ := t.entries.map Prod.fst

/-- The values, in the order of their keys. -/
def values (t : Table κ α) : List α := t.entries.map Prod.snd

/-- The number of entries. -/
def size (t : Table κ α) : Nat := t.entries.length

@[simp] theorem keys_empty : (empty : Table κ α).keys = [] := rfl

variable [DecidableEq κ]

/-- The entries with `a` stored under `k`, in place of what `k` held if anything. -/
def insertEntry (k : κ) (a : α) : List (κ × α) → List (κ × α)
  | [] => [(k, a)]
  | e :: rest => if e.1 = k then (k, a) :: rest else e :: insertEntry k a rest

theorem map_fst_insertEntry (k : κ) (a : α) (es : List (κ × α)) :
    (insertEntry k a es).map Prod.fst = appendNew (es.map Prod.fst) k := by
  induction es with
  | nil => simp [insertEntry, appendNew]
  | cons e rest ih =>
    by_cases h : e.1 = k
    · simp [insertEntry, appendNew, h]
    · have h' : ¬ k = e.1 := fun he => h he.symm
      simp only [insertEntry, h, if_false, List.map_cons, ih, appendNew, List.mem_cons, h',
        false_or]
      split <;> simp

/-- Stores `a` under `k`; a key that is present keeps its place. -/
def insert (t : Table κ α) (k : κ) (a : α) : Table κ α where
  entries := insertEntry k a t.entries
  nodup := by rw [map_fst_insertEntry]; exact nodup_appendNew t.nodup k

/-- The value stored under `k`. -/
def find? (t : Table κ α) (k : κ) : Option α :=
  (t.entries.find? (fun e => e.1 = k)).map Prod.snd

/-- Whether `k` holds a value. -/
def contains (t : Table κ α) (k : κ) : Bool := k ∈ t.keys

/-- The table that the pairs give when they are inserted from left to right. -/
def ofList (pairs : List (κ × α)) : Table κ α :=
  pairs.foldl (fun t e => t.insert e.1 e.2) empty

theorem keys_insert (t : Table κ α) (k : κ) (a : α) :
    (t.insert k a).keys = appendNew t.keys k := map_fst_insertEntry k a t.entries

theorem find?_insertEntry (k : κ) (a : α) (es : List (κ × α)) (k' : κ) :
    ((insertEntry k a es).find? (fun e => e.1 = k')).map Prod.snd =
      if k' = k then some a else (es.find? (fun e => e.1 = k')).map Prod.snd := by
  induction es with
  | nil => by_cases h : k = k' <;> grind [insertEntry]
  | cons e rest ih => grind [insertEntry]

theorem find?_insert (t : Table κ α) (k : κ) (a : α) (k' : κ) :
    (t.insert k a).find? k' = if k' = k then some a else t.find? k' :=
  find?_insertEntry k a t.entries k'

end Table

end Variability
