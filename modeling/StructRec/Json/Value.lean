/-!
# StructRec — JSON values

The values of the interchange format. Fields of an object keep their order, and a name may come
twice. Only integers count as numbers. What a text may hold but nothing reads is `unreadable`: other
numbers, text with an unpaired surrogate, and containers nested too deep. Such a value does no harm
where it is skipped.
-/

namespace StructRec

inductive Json where
  | null
  | bool (value : Bool)
  | int (value : Int)
  | str (text : String)
  | arr (items : List Json)
  | obj (fields : List (String × Json))
  | unreadable

namespace Json

mutual

/-- How deep containers are nested. -/
def depth : Json → Nat
  | arr items => depthOfItems items + 1
  | obj fields => depthOfFields fields + 1
  | null | bool _ | int _ | str _ | unreadable => 0

def depthOfItems : List Json → Nat
  | [] => 0
  | item :: rest => max item.depth (depthOfItems rest)

def depthOfFields : List (String × Json) → Nat
  | [] => 0
  | (_, value) :: rest => max value.depth (depthOfFields rest)

end

/-- An item is nested no deeper than the deepest one. -/
theorem depth_le_depthOfItems {j : Json} {items : List Json} (h : j ∈ items) :
    j.depth ≤ depthOfItems items := by
  induction items with
  | nil => cases h
  | cons item rest ih =>
    rw [depthOfItems]
    rcases List.mem_cons.mp h with rfl | hrest
    · exact Nat.le_max_left _ _
    · exact Nat.le_trans (ih hrest) (Nat.le_max_right _ _)

/-- A member is nested no deeper than the deepest one. -/
theorem depth_le_depthOfFields {field : String × Json} {fields : List (String × Json)}
    (h : field ∈ fields) : field.2.depth ≤ depthOfFields fields := by
  induction fields with
  | nil => cases h
  | cons first rest ih =>
    rw [depthOfFields]
    rcases List.mem_cons.mp h with rfl | hrest
    · exact Nat.le_max_left _ _
    · exact Nat.le_trans (ih hrest) (Nat.le_max_right _ _)

/-- A list of values. -/
def list {α : Type} (toJson : α → Json) (xs : List α) : Json := arr (xs.map toJson)

/-- A value, or `null` for none. -/
def nullable {α : Type} (toJson : α → Json) : Option α → Json
  | none => null
  | some x => toJson x

def nat (n : Nat) : Json := int n

end Json

end StructRec
