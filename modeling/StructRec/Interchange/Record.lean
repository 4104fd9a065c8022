import StructRec.Json.Value

/-!
# StructRec — records and variants in JSON

A record is an object with named fields, of which a reader knows some: each at most once, the others
are skipped. It may also be an array of the values of its fields in their declared order, from which
fields at the end may be missing. A variant is an object with its tag as the only key, or its tag
alone as a string. The fields that a variant carries are a record in texts, but readers of values
may insist on an object (`VariantFields`).
-/

namespace StructRec

namespace Json

/-- The value of a field; none at all if it is given twice. -/
def field? (fields : List (String × Json)) (name : String) : Option (Option Json) :=
  match fields.filter (·.1 = name) with
  | [] => some none
  | [(_, value)] => some (some value)
  | _ => none

/-- The values of the named fields of an object, in order, as far as they are given. -/
def object? (names : List String) : Json → Option (List (Option Json))
  | obj fields => names.mapM (field? fields)
  | _ => none

/-- The values of the named fields of a record, in order, as far as they are given. -/
def record? (names : List String) : Json → Option (List (Option Json))
  | obj fields => object? names (obj fields)
  | arr items =>
    if items.length ≤ names.length then
      some (items.map some ++ List.replicate (names.length - items.length) none)
    else none
  | _ => none

/-- The tag of a variant and what it carries. -/
def variant? : Json → Option (String × Option Json)
  | str tag => some (tag, none)
  | obj [(tag, payload)] => some (tag, some payload)
  | _ => none

/-- How the fields that a variant carries may be given. -/
inductive VariantFields where
  /-- As an object only. -/
  | named
  /-- As any record, that is, also as an array. -/
  | namedOrListed

/-- The values of the named fields that a variant carries. -/
def VariantFields.read? : VariantFields → List String → Json → Option (List (Option Json))
  | named => object?
  | namedOrListed => record?

/-- Whether a variant that carries nothing is well written. -/
def isUnit : Option Json → Bool
  | none | some null => true
  | _ => false

/-! ## Values -/

def str? : Json → Option String
  | str text => some text
  | _ => none

def bool? : Json → Option Bool
  | bool value => some value
  | _ => none

def uint64? : Json → Option UInt64
  | int value => if 0 ≤ value && value < UInt64.size then some (UInt64.ofNat value.toNat) else none
  | _ => none

def int64? : Json → Option Int64
  | int value =>
      if Int64.minValue.toInt ≤ value && value ≤ Int64.maxValue.toInt
        then some (Int64.ofInt value) else none
  | _ => none

/-- A position in a list. -/
def index? : Json → Option Nat
  | int value => if 0 ≤ value && value < UInt64.size then some value.toNat else none
  | _ => none

def list? {α : Type} (item? : Json → Option α) : Json → Option (List α)
  | arr items => items.mapM item?
  | _ => none

/-- A value or `null`. -/
def nullable? {α : Type} (value? : Json → Option α) : Json → Option (Option α)
  | null => some none
  | j => (value? j).map some

/-- A field that may be missing. -/
def orDefault {α : Type} (default : α) (value? : Json → Option α) : Option Json → Option α
  | none => some default
  | some j => value? j

end Json

end StructRec
