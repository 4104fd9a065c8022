import Mathlib.Data.List.Nodup
import StructRec.Table

/-!
# StructRec — tables made of lists

A table that is made of a list of entries holds, under every key, the value of the last entry with
that key. Where no key comes twice, it holds every entry. What a table lists is what can be looked
up in it (**`mem_entries_iff`**).
-/

namespace StructRec.Table

variable {α : Type}
variable {entries : List (Name × α)} {k key : Name} {value : α} {t : Table α}

/-- The last entry of a name counts. -/
theorem get?_foldl_insert (entries : List (Name × α)) (t : Table α) (k : Name) :
    (entries.foldl (fun t entry => t.insert entry.1 entry.2) t).get? k
      = ((entries.reverse.find? (·.1 = k)).map Prod.snd).or (t.get? k) := by
  induction entries generalizing t with
  | nil => simp
  | cons entry rest ih =>
    rw [List.foldl_cons, ih, List.reverse_cons, List.find?_append, get?_insert]
    cases rest.reverse.find? (·.1 = k) with
    | some found => simp
    | none => by_cases h : entry.1 = k <;> simp [h]

/-- Of several entries with one key the last counts. -/
theorem get?_ofList (entries : List (Name × α)) (k : Name) :
    (ofList entries).get? k = (entries.reverse.find? (·.1 = k)).map Prod.snd := by
  rw [ofList, get?_foldl_insert, get?_empty, Option.or_none]

theorem mem_of_get?_ofList (h : (ofList entries).get? k = some value) :
    (k, value) ∈ entries := by
  rw [get?_ofList] at h
  obtain ⟨entry, hfind, rfl⟩ := Option.map_eq_some_iff.mp h
  have hkey : entry.1 = k := by simpa using List.find?_some hfind
  subst hkey
  exact List.mem_reverse.mp (List.mem_of_find?_eq_some hfind)

theorem get?_ofList_of_mem (hnodup : (entries.map Prod.fst).Nodup) (h : (k, value) ∈ entries) :
    (ofList entries).get? k = some value := by
  cases hget : (ofList entries).get? k with
  | none =>
    rw [get?_ofList, Option.map_eq_none_iff, List.find?_eq_none] at hget
    exact absurd (decide_eq_true rfl) (hget (k, value) (List.mem_reverse.mpr h))
  | some value' =>
    have hinj := List.inj_on_of_nodup_map hnodup (mem_of_get?_ofList hget) h rfl
    rw [(Prod.mk.inj hinj).2]

theorem get?_ofList_eq_none (h : k ∉ entries.map Prod.fst) :
    (ofList entries).get? k = none := by
  rw [get?_ofList, Option.map_eq_none_iff, List.find?_eq_none]
  intro entry hmem
  simp only [decide_eq_true_eq]
  rintro rfl
  exact h (List.mem_map_of_mem (List.mem_reverse.mp hmem))

theorem isSome_get?_ofList :
    ((ofList entries).get? k).isSome = true ↔ k ∈ entries.map Prod.fst := by
  constructor
  · intro h
    by_contra hk
    rw [get?_ofList_eq_none hk] at h
    cases h
  · intro hk
    obtain ⟨entry, hentry, rfl⟩ := List.mem_map.mp hk
    rw [get?_ofList, Option.isSome_map, List.find?_isSome]
    exact ⟨entry, List.mem_reverse.mpr hentry, decide_eq_true rfl⟩

theorem mem_keys_insert :
    k ∈ (t.insert key value).keys ↔ k = key ∨ k ∈ t.keys := by
  rw [← contains_iff_mem_keys, ← contains_iff_mem_keys, contains, contains, get?_insert]
  split
  · next heq => exact iff_of_true rfl (.inl heq.symm)
  · next hne => exact (or_iff_right (Ne.symm hne)).symm

/-- A new key comes last. -/
theorem entries_insert_of_notMem (h : key ∉ t.keys) (value : α) :
    (t.insert key value).entries = t.entries ++ [(key, value)] := by
  unfold keys at h
  simp only [insert]
  generalize t.entries = entries at h ⊢
  induction entries with
  | nil => rfl
  | cons first rest ih => grind [insertEntry]

/-- New names are added at the end, in order. -/
theorem entries_foldl_insert (hnodup : (entries.map Prod.fst).Nodup)
    (hnew : ∀ k ∈ entries.map Prod.fst, k ∉ t.keys) :
    (entries.foldl (fun t entry => t.insert entry.1 entry.2) t).entries = t.entries ++ entries := by
  induction entries generalizing t with
  | nil => exact (List.append_nil _).symm
  | cons entry rest ih =>
    rw [List.map_cons, List.nodup_cons] at hnodup
    rw [List.map_cons, List.forall_mem_cons] at hnew
    have hinsert := entries_insert_of_notMem hnew.1 entry.2
    rw [List.foldl_cons, ih hnodup.2, hinsert, List.append_assoc, List.singleton_append]
    -- the later keys are new to the longer table as well
    intro k hk hmem
    rw [keys, hinsert, List.map_append, List.mem_append] at hmem
    rcases hmem with hmem | hmem
    · exact hnew.2 k hk hmem
    · exact hnodup.1 (List.mem_singleton.mp hmem ▸ hk)

/-- Where no key comes twice, a table lists its entries in their order. -/
theorem entries_ofList (hnodup : (entries.map Prod.fst).Nodup) :
    (ofList entries).entries = entries := entries_foldl_insert hnodup fun _ _ => List.not_mem_nil

theorem lookup_of_mem (hnodup : (entries.map Prod.fst).Nodup) (h : (key, value) ∈ entries) :
    entries.lookup key = some value := by
  induction entries with
  | nil => cases h
  | cons first rest ih =>
    rw [List.map_cons, List.nodup_cons] at hnodup
    rcases List.mem_cons.mp h with rfl | h
    · exact List.lookup_cons_self
    · have hne : (key == first.1) = false := by
        rw [beq_eq_false_iff_ne]
        rintro rfl
        exact hnodup.1 (List.mem_map.mpr ⟨_, h, rfl⟩)
      rw [List.lookup_cons, hne]
      exact ih hnodup.2 h

/-- The entries of a table are what can be looked up. -/
theorem mem_entries_iff :
    (key, value) ∈ t.entries ↔ t.get? key = some value := by
  refine ⟨lookup_of_mem t.nodup, fun h => ?_⟩
  obtain ⟨before, later, hentries, _⟩ := List.lookup_eq_some_iff.mp h
  rw [hentries]
  exact List.mem_append_right _ List.mem_cons_self

theorem mem_values_of_get? (h : t.get? key = some value) :
    value ∈ t.values := List.mem_map_of_mem (mem_entries_iff.mpr h)

end StructRec.Table
