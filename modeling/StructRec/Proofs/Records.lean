import Mathlib.Data.List.Forall2
import Mathlib.Data.List.Nodup
import Mathlib.Data.List.Perm.Basic
import StructRec.Interchange.Record

/-!
# StructRec — written forms of records

One value can be written in several ways. A record is an object that gives its fields in any order,
each at most once and beside fields that nothing reads, or it is the list of their values. A field
that has a default may be left out. These forms are stated here as relations between what is to be
written and JSON values; each reader of `Interchange.Record` reads every form of a value as that
value.
-/

namespace StructRec

namespace Json

variable {α : Type}
variable {members : List (String × Json)} {fields : List (String × Option Json)} {xs : List α}
  {name : String} {value : Option Json} {names : List String} {j : Json} {items : List Json}

/-! ## Forms -/

/-- The fields for which a value is written, out of all fields of a record. -/
def writtenFields (fields : List (String × Option Json)) : List (String × Json) :=
  fields.filterMap fun field => field.2.map (field.1, ·)

/-- An object with these fields, in any order and with any others beside them. -/
def IsObject (fields : List (String × Option Json)) (j : Json) : Prop :=
  ∃ members, j = obj members ∧
    (members.filter (·.1 ∈ fields.map Prod.fst)).Perm (writtenFields fields)

/-- An array of the values of these fields, in order. Only fields at the end may be left out. -/
def IsListing (fields : List (String × Option Json)) (j : Json) : Prop :=
  ∃ items missing, j = arr items ∧
    fields.map Prod.snd = items.map some ++ List.replicate missing none

/-- A record with these fields. -/
def IsRecord (fields : List (String × Option Json)) (j : Json) : Prop :=
  IsObject fields j ∨ IsListing fields j

/-- The fields that a variant carries. -/
def VariantFields.IsWritten : VariantFields → List (String × Option Json) → Json → Prop
  | named => IsObject
  | namedOrListed => IsRecord

/-- A variant that carries nothing. -/
def IsUnitVariant (tag : String) (j : Json) : Prop := j = str tag ∨ j = obj [(tag, null)]

/-- What is written for a field with a default: nothing, if the field has this value, or the value
itself. -/
def Omissible (default : α) (IsWritten : α → Json → Prop) (a : α) : Option Json → Prop
  | none => a = default
  | some j => IsWritten a j

/-- A value that may be unknown. -/
def Nullable (IsWritten : α → Json → Prop) : Option α → Json → Prop
  | none, j => j = null
  | some a, j => IsWritten a j

/-- A list of values. -/
def IsList (IsWritten : α → Json → Prop) (xs : List α) (j : Json) : Prop :=
  ∃ items, j = arr items ∧ List.Forall₂ IsWritten xs items

/-! ## All fields written in order -/

/-- An object is written as it is. -/
theorem isObject_self (h : fields = members.map fun member => (member.1, some member.2)) :
    IsObject fields (obj members) := by
  subst h
  have hnames : (members.map fun member => (member.1, some member.2)).map Prod.fst =
      members.map Prod.fst := by
    rw [List.map_map]
    rfl
  have hknown : members.filter (·.1 ∈ members.map Prod.fst) = members :=
    List.filter_eq_self.mpr fun member hmember => decide_eq_true (List.mem_map_of_mem hmember)
  have hwritten : writtenFields
      (members.map fun member => (member.1, some member.2)) = members := by
    rw [writtenFields, List.filterMap_map]
    exact List.filterMap_some
  refine ⟨members, rfl, ?_⟩
  rw [hnames, hknown, hwritten]

theorem VariantFields.isWritten_self (form : VariantFields)
    (h : fields = members.map fun member => (member.1, some member.2)) :
    form.IsWritten fields (obj members) := by
  cases form with
  | named => exact isObject_self h
  | namedOrListed => exact .inl (isObject_self h)

theorem isList_list {IsWritten : α → Json → Prop} {toJson : α → Json}
    (h : ∀ x ∈ xs, IsWritten x (toJson x)) : IsList IsWritten xs (list toJson xs) := by
  refine ⟨xs.map toJson, rfl, ?_⟩
  rw [List.forall₂_map_right_iff, List.forall₂_same]
  exact h

/-! ## Reading -/

/-- A name picks its own field out of those written. -/
theorem writtenFields_filter (hnodup : (fields.map Prod.fst).Nodup) (h : (name, value) ∈ fields) :
    (writtenFields fields).filter (·.1 = name) = (value.map (name, ·)).toList := by
  induction fields with
  | nil => cases h
  | cons field rest ih =>
    obtain ⟨other, written⟩ := field
    obtain ⟨hfresh, hrest⟩ := List.nodup_cons.mp hnodup
    have hcons : writtenFields ((other, written) :: rest) =
        (written.map (other, ·)).toList ++ writtenFields rest := by
      cases written <;> rfl
    rw [hcons, List.filter_append]
    rcases List.mem_cons.mp h with heq | hmem
    · obtain ⟨rfl, rfl⟩ := Prod.mk.inj heq
      -- no later field has the name
      have hlater : (writtenFields rest).filter (·.1 = name) = [] := by
        refine List.filter_eq_nil_iff.mpr fun member hmember hname => hfresh ?_
        obtain ⟨field, hfield, heq⟩ := List.mem_filterMap.mp hmember
        obtain ⟨v, _, rfl⟩ := Option.map_eq_some_iff.mp heq
        exact List.mem_map.mpr ⟨field, hfield, of_decide_eq_true hname⟩
      rw [hlater, List.append_nil]
      cases value <;> simp
    · have hother : other ≠ name := by
        rintro rfl
        exact hfresh (List.mem_map.mpr ⟨_, hmem, rfl⟩)
      rw [ih hrest hmem]
      cases written <;> simp [hother]

/-- A field is found in every object of a record. -/
theorem field?_of_isObject (hnodup : (fields.map Prod.fst).Nodup)
    (h : (members.filter (·.1 ∈ fields.map Prod.fst)).Perm (writtenFields fields))
    (hfield : (name, value) ∈ fields) : field? members name = some value := by
  have hknown : (members.filter (·.1 ∈ fields.map Prod.fst)).filter (·.1 = name) =
      members.filter (·.1 = name) := by
    rw [List.filter_filter]
    refine List.filter_congr fun member _ => ?_
    have himp : member.1 = name → member.1 ∈ fields.map Prod.fst := fun heq =>
      List.mem_map.mpr ⟨_, hfield, heq.symm⟩
    grind
  have hmembers : (members.filter (·.1 = name)).Perm (value.map (name, ·)).toList := by
    rw [← hknown, ← writtenFields_filter hnodup hfield]
    exact h.filter _
  unfold field?
  cases value with
  | none => rw [List.perm_nil.mp hmembers]
  | some v => rw [List.perm_singleton.mp hmembers]

/-- **An object is read back** field by field. -/
theorem object?_of_isObject (h : IsObject fields j) (hnames : fields.map Prod.fst = names)
    (hnodup : names.Nodup) : j.object? names = some (fields.map Prod.snd) := by
  subst hnames
  obtain ⟨members, rfl, hmembers⟩ := h
  have hread : ∀ field ∈ fields, field? members field.1 = some field.2 := fun field hfield =>
    field?_of_isObject hnodup hmembers hfield
  rw [object?]
  clear hmembers hnodup
  induction fields with
  | nil => rfl
  | cons field rest ih =>
    rw [List.forall_mem_cons] at hread
    rw [List.map_cons, List.mapM_cons, hread.1, ih hread.2]
    rfl

/-- **A reader finds the fields** of every form of a record. -/
theorem record?_of_isRecord (h : IsRecord fields j) (hnames : fields.map Prod.fst = names)
    (hnodup : names.Nodup) : j.record? names = some (fields.map Prod.snd) := by
  rcases h with hobject | ⟨items, missing, rfl, hvalues⟩
  · have hread := object?_of_isObject hobject hnames hnodup
    obtain ⟨members, rfl, _⟩ := hobject
    exact hread
  · subst hnames
    have hlength := congrArg List.length hvalues
    rw [List.length_append, List.length_map, List.length_map, List.length_replicate] at hlength
    rw [record?, List.length_map, if_pos (hlength ▸ Nat.le_add_right _ _), hvalues, hlength,
      Nat.add_sub_cancel_left]

theorem VariantFields.read?_of_isWritten {form : VariantFields} (h : form.IsWritten fields j)
    (hnames : fields.map Prod.fst = names) (hnodup : names.Nodup) :
    form.read? names j = some (fields.map Prod.snd) := by
  cases form with
  | named => exact object?_of_isObject h hnames hnodup
  | namedOrListed => exact record?_of_isRecord h hnames hnodup

section values

variable {IsWritten : α → Json → Prop} {read? : Json → Option α}

/-- A field left out is read as its default. -/
theorem orDefault_of_omissible {default a : α} (h : Omissible default IsWritten a value)
    (hread : ∀ j, IsWritten a j → read? j = some a) : orDefault default read? value = some a := by
  cases value with
  | none => exact congrArg some h.symm
  | some j => exact hread j h

/-- An optional value is read back. -/
theorem nullable?_of_nullable {a : Option α} (h : Nullable IsWritten a j)
    (hnull : read? null = none) (hread : ∀ x ∈ a, ∀ j, IsWritten x j → read? j = some x) :
    nullable? read? j = some a := by
  cases a with
  | none =>
    obtain rfl : j = null := h
    rfl
  | some x =>
    have hx := hread x rfl j h
    cases j with
    | null =>
      rw [hnull] at hx
      cases hx
    | _ => exact congrArg (Option.map some) hx

theorem mapM_of_forall₂ (h : List.Forall₂ IsWritten xs items)
    (hread : ∀ x ∈ xs, ∀ j ∈ items, IsWritten x j → read? j = some x) :
    items.mapM read? = some xs := by
  induction h with
  | nil => rfl
  | cons hfirst _ ih =>
    rw [List.mapM_cons, hread _ List.mem_cons_self _ List.mem_cons_self hfirst,
      ih fun x hx j hj => hread x (List.mem_cons_of_mem _ hx) j (List.mem_cons_of_mem _ hj)]
    rfl

/-- **A list is read back** item by item. -/
theorem list?_of_isList (h : IsList IsWritten xs j)
    (hread : ∀ x ∈ xs, ∀ j, IsWritten x j → read? j = some x) : list? read? j = some xs := by
  obtain ⟨items, rfl, hitems⟩ := h
  exact mapM_of_forall₂ hitems fun x hx j _ => hread x hx j

end values

theorem uint64?_nat (n : UInt64) : uint64? (nat n.toNat) = some n := by
  have hlt : n.toNat < UInt64.size := n.toNat_lt_size
  rw [nat, uint64?, if_pos (by simpa using Int.ofNat_lt.mpr hlt), Int.toNat_natCast,
    UInt64.ofNat_toNat]

theorem int64?_int (n : Int64) : int64? (int n.toInt) = some n := by
  rw [int64?, if_pos (by simpa using ⟨n.minValue_le_toInt, n.toInt_le⟩), Int64.ofInt_toInt]

theorem index?_nat {n : Nat} (h : n < UInt64.size) : index? (nat n) = some n := by
  rw [nat, index?, if_pos (by simpa using Int.ofNat_lt.mpr h), Int.toNat_natCast]

/-! ## Nesting -/

theorem depth_lt_arr (h : j ∈ items) : j.depth < (arr items).depth := by
  rw [depth]
  exact Nat.lt_succ_of_le (depth_le_depthOfItems h)

theorem depth_lt_obj (h : (name, j) ∈ members) :
    j.depth < (obj members).depth := by
  rw [depth]
  exact Nat.lt_succ_of_le (depth_le_depthOfFields h)

/-- **What is written for a field** is nested less deep than the record. -/
theorem depth_lt_of_isRecord {value : Json} (h : IsRecord fields j)
    (hfield : (name, some value) ∈ fields) :
    value.depth < j.depth := by
  rcases h with ⟨members, rfl, hmembers⟩ | ⟨items, missing, rfl, hvalues⟩
  · have hwritten : (name, value) ∈ writtenFields fields := List.mem_filterMap.mpr ⟨_, hfield, rfl⟩
    exact depth_lt_obj (List.mem_of_mem_filter (hmembers.mem_iff.mpr hwritten))
  · have hvalue : some value ∈ items.map some ++ List.replicate missing none :=
      hvalues ▸ List.mem_map_of_mem hfield
    rw [List.mem_append, List.mem_map, List.mem_replicate] at hvalue
    rcases hvalue with ⟨item, hitem, heq⟩ | ⟨_, hnone⟩
    · exact depth_lt_arr (Option.some.inj heq ▸ hitem)
    · cases hnone

theorem VariantFields.depth_lt {form : VariantFields} {value : Json} (h : form.IsWritten fields j)
    (hfield : (name, some value) ∈ fields) :
    value.depth < j.depth := by
  cases form with
  | named => exact depth_lt_of_isRecord (.inl h) hfield
  | namedOrListed => exact depth_lt_of_isRecord h hfield

end Json

end StructRec
