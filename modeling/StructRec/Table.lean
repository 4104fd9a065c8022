import StructRec.Name

/-!
# StructRec — tables in insertion order

A `Table` is a finite map from names that lists its entries in the order in which their keys first
came, each key once. A new value for a known key takes the old one's place; an erased key leaves the
order of the others alone. Through `get?` the operations are those of a map (`get?_insert`,
`get?_erase`, `get?_filterKeys`, `get?_union`).
-/

namespace StructRec

/-- A finite map from names, listed in the order in which the keys first came. -/
structure Table (α : Type) where
  entries : List (Name × α) := []
  /-- No key is listed twice. -/
  nodup : (entries.map Prod.fst).Nodup := by exact List.nodup_nil

namespace Table

variable {α β : Type}

def keys (t : Table α) : List Name := t.entries.map Prod.fst

def values (t : Table α) : List α := t.entries.map Prod.snd

def isEmpty (t : Table α) : Bool := t.entries.isEmpty

def get? (t : Table α) (key : Name) : Option α := t.entries.lookup key

def contains (t : Table α) (key : Name) : Bool := (t.get? key).isSome

/-! ## Changing entries -/

/-- Put a value under a key, in place if the key is listed and at the end otherwise. -/
def insertEntry (key : Name) (value : α) : List (Name × α) → List (Name × α)
  | [] => [(key, value)]
  | (k, v) :: rest => if k = key then (k, value) :: rest else (k, v) :: insertEntry key value rest

theorem map_fst_insertEntry (key : Name) (value : α) (entries : List (Name × α)) :
    (insertEntry key value entries).map Prod.fst =
      entries.map Prod.fst ++ if key ∈ entries.map Prod.fst then [] else [key] := by
  induction entries with
  | nil => simp [insertEntry]
  | cons entry rest ih => grind [insertEntry]

theorem nodup_concat {names : List Name} (h : names.Nodup) {name : Name} (hname : name ∉ names) :
    (names ++ [name]).Nodup := by
  rw [List.nodup_append]
  refine ⟨h, by simp, fun a ha b hb heq => hname ?_⟩
  rwa [← List.mem_singleton.mp hb, ← heq]

/-- Put a value under a key, in place if the key is listed and at the end otherwise. -/
def insert (t : Table α) (key : Name) (value : α) : Table α where
  entries := insertEntry key value t.entries
  nodup := by
    rw [map_fst_insertEntry]
    split
    · rw [List.append_nil]
      exact t.nodup
    · exact nodup_concat t.nodup ‹_›

theorem mem_entries_insert {t : Table α} {key : Name} {value : α} {entry : Name × α}
    (h : entry ∈ (t.insert key value).entries) : entry = (key, value) ∨ entry ∈ t.entries := by
  simp only [insert] at h
  generalize t.entries = entries at h ⊢
  induction entries with
  | nil => simpa [insertEntry] using h
  | cons first rest ih => grind [insertEntry]

/-- The entries whose keys satisfy a test. -/
def filterKeys (t : Table α) (p : Name → Bool) : Table α where
  entries := t.entries.filter (p ·.1)
  nodup := t.nodup.sublist (List.filter_sublist.map Prod.fst)

def erase (t : Table α) (key : Name) : Table α := t.filterKeys (· != key)

def ofList (entries : List (Name × α)) : Table α :=
  entries.foldl (fun t entry => t.insert entry.1 entry.2) {}

theorem keys_filterKeys (t : Table α) (p : Name → Bool) :
    (t.filterKeys p).keys = t.keys.filter p := by
  unfold keys filterKeys
  rw [List.filter_map]
  rfl

/-! ## Look-ups -/

@[simp]
theorem get?_empty (key : Name) : ({} : Table α).get? key = none := rfl

theorem isSome_lookup (entries : List (Name × α)) (key : Name) :
    (entries.lookup key).isSome = true ↔ key ∈ entries.map Prod.fst := by
  rw [List.lookup_isSome_iff, List.mem_map]
  simp only [beq_iff_eq, @eq_comm _ key]

/-- A key is listed exactly if a value stands under it. -/
theorem contains_iff_mem_keys (t : Table α) (k : Name) : t.contains k = true ↔ k ∈ t.keys :=
  isSome_lookup t.entries k

/-- Inserting changes the value under the key and no other. -/
theorem get?_insert (t : Table α) (key k : Name) (value : α) :
    (t.insert key value).get? k = if key = k then some value else t.get? k := by
  simp only [insert, get?]
  induction t.entries with
  | nil => grind [insertEntry]
  | cons entry rest ih => grind [insertEntry]

theorem get?_filterKeys (t : Table α) (p : Name → Bool) (k : Name) :
    (t.filterKeys p).get? k = if p k then t.get? k else none := by
  simp only [filterKeys, get?]
  induction t.entries with
  | nil => simp
  | cons entry rest ih => grind

/-- Erasing changes the value under the key and no other. -/
theorem get?_erase (t : Table α) (key k : Name) :
    (t.erase key).get? k = if k = key then none else t.get? k := by
  grind [erase, get?_filterKeys]

/-! ## Tables made from others -/

/-- Other values under the same keys. -/
def mapValues (f : α → β) (t : Table α) : Table β where
  entries := t.entries.map fun entry => (entry.1, f entry.2)
  nodup := by
    rw [List.map_map]
    exact t.nodup

theorem map_fst_zip_sublist (names : List Name) (values : List β) :
    ((names.zip values).map Prod.fst).Sublist names := by
  induction names generalizing values with
  | nil => exact .slnil
  | cons name rest ih =>
    cases values with
    | nil => exact List.nil_sublist _
    | cons value later => exact (ih later).cons_cons name

/-- The same keys with values listed in their order. -/
def withValues (t : Table α) (values : List β) : Table β where
  entries := t.keys.zip values
  nodup := t.nodup.sublist (map_fst_zip_sublist t.keys values)

/-- The entries of a table and, for new names only, those of another. -/
def union (first second : Table α) : Table α where
  entries := first.entries ++ (second.filterKeys fun name => !first.contains name).entries
  nodup := by
    have hnew := (second.filterKeys fun name => !first.contains name).nodup
    rw [List.map_append, List.nodup_append]
    refine ⟨first.nodup, hnew, fun a ha b hb heq => ?_⟩
    have hb : b ∈ second.keys.filter fun name => !first.contains name :=
      keys_filterKeys second _ ▸ hb
    have hlisted := (contains_iff_mem_keys first a).mpr ha
    rw [heq] at hlisted
    simp [hlisted] at hb

theorem get?_mapValues (f : α → β) (t : Table α) (k : Name) :
    (t.mapValues f).get? k = (t.get? k).map f := by
  simp only [mapValues, get?]
  induction t.entries with
  | nil => rfl
  | cons entry rest ih => grind

theorem get?_union (first second : Table α) (k : Name) :
    (first.union second).get? k = (first.get? k).or (second.get? k) := by
  have happend : (first.union second).get? k = (first.get? k).or
      ((second.filterKeys fun name => !first.contains name).get? k) := List.lookup_append
  rw [happend, get?_filterKeys, contains]
  cases first.get? k <;> simp

end Table

end StructRec
