import StructRec.Proofs.JsonText
import StructRec.Proofs.WrittenForms

/-!
# StructRec — round trips through the interchange format

A module or a list of sentences is the same after it was written and read again, as a JSON value and
as text. The value level is `WrittenForms`, the text level `JsonText`; what joins them is that
nothing is written that text cannot say (`Module.readable_toJson`, `Sentence.readable_allToJson`).
-/

namespace StructRec

open Json

/-! ## What is written can be said in text -/

namespace Json

theorem itemsReadable_iff {items : List Json} :
    ItemsReadable items ↔ ∀ item ∈ items, item.Readable := by
  induction items with
  | nil => exact iff_of_true trivial (List.forall_mem_nil _)
  | cons item rest ih => rw [ItemsReadable, ih, List.forall_mem_cons]

theorem fieldsReadable_iff {fields : List (String × Json)} :
    FieldsReadable fields ↔ ∀ field ∈ fields, field.2.Readable := by
  induction fields with
  | nil => exact iff_of_true trivial (List.forall_mem_nil _)
  | cons field rest ih => rw [FieldsReadable, ih, List.forall_mem_cons]

@[simp] theorem readable_str (text : String) : (str text).Readable := trivial

@[simp] theorem readable_int (value : Int) : (int value).Readable := trivial

@[simp] theorem readable_nat (n : Nat) : (nat n).Readable := trivial

@[simp] theorem readable_arr (items : List Json) :
    (arr items).Readable ↔ ∀ item ∈ items, item.Readable := itemsReadable_iff

@[simp] theorem readable_obj (fields : List (String × Json)) :
    (obj fields).Readable ↔ ∀ field ∈ fields, field.2.Readable :=
  fieldsReadable_iff

variable {α : Type} {toJson : α → Json}

@[simp] theorem readable_list (xs : List α) :
    (list toJson xs).Readable ↔ ∀ x ∈ xs, (toJson x).Readable := by
  rw [list, readable_arr, List.forall_mem_map]

@[simp] theorem readable_nullable (x : Option α) :
    (nullable toJson x).Readable ↔ ∀ y ∈ x, (toJson y).Readable := by
  cases x with
  | none => exact iff_of_true trivial fun _ h => by cases h
  | some x => simp [nullable]

end Json

@[simp] theorem Span.readable_toJson (s : Span) : s.toJson.Readable := by simp [toJson]

@[simp] theorem Ty.readable_toJson (t : Ty) : t.toJson.Readable := by
  induction t with
  | var name | con name => simp [toJson]
  | app l r ihl ihr | func l r ihl ihr => simp [toJson, ihl, ihr]

@[simp] theorem Binder.readable_toJson (b : Binder) : b.toJson.Readable := by simp [toJson]

@[simp] theorem Pattern.readable_toJson (p : Pattern) : p.toJson.Readable := by
  cases p <;> simp [toJson]

namespace Expr

theorem readable_nodeJson {kind : Json} (h : kind.Readable) (note : Note) :
    (nodeJson kind note).Readable := by
  simp [nodeJson, h]

mutual

/-- **Every expression is written as something readable.** -/
@[simp] theorem readable_toJson : (e : Expr) → e.toJson.Readable
  | var note name | con note name => readable_nodeJson (by simp) note
  | intLit note value => readable_nodeJson (by simp) note
  | undefined note => readable_nodeJson (by simp) note
  | error note message => readable_nodeJson (by simp) note
  | app note fn arg => readable_nodeJson (by simp [readable_toJson fn, readable_toJson arg]) note
  | typeApp note fn arg => readable_nodeJson (by simp [readable_toJson fn]) note
  | cond note test thenBranch elseBranch =>
    readable_nodeJson
      (by simp [readable_toJson test, readable_toJson thenBranch, readable_toJson elseBranch]) note
  | case note scrutinee alts =>
    readable_nodeJson (by simpa [readable_toJson scrutinee] using readable_altsToJson alts) note
  | lam note params body => readable_nodeJson (by simp [readable_toJson body]) note
  | letRec note binds body =>
      readable_nodeJson (by simpa [readable_toJson body] using readable_bindsToJson binds) note

theorem readable_altsToJson : (alts : Alts) → ∀ item ∈ altsToJson alts, item.Readable
  | [] => List.forall_mem_nil _
  | (pattern, rhs) :: rest =>
      List.forall_mem_cons.mpr ⟨by simp [readable_toJson rhs], readable_altsToJson rest⟩

theorem readable_bindsToJson : (binds : Binds) → ∀ item ∈ bindsToJson binds, item.Readable
  | [] => List.forall_mem_nil _
  | (binder, rhs) :: rest =>
      List.forall_mem_cons.mpr ⟨by simp [readable_toJson rhs], readable_bindsToJson rest⟩

end

end Expr

@[simp] theorem TypeParam.readable_toJson (p : TypeParam) : p.toJson.Readable := by simp [toJson]

@[simp] theorem Constructor.readable_toJson (c : Constructor) :
    c.toJson.Readable := by simp [toJson]

@[simp] theorem DataDecl.readable_toJson (d : DataDecl) : d.toJson.Readable := by simp [toJson]

@[simp] theorem SynonymDecl.readable_toJson (d : SynonymDecl) :
    d.toJson.Readable := by simp [toJson]

@[simp] theorem TypeDecl.readable_toJson (d : TypeDecl) : d.toJson.Readable := by
  cases d <;> simp [toJson]

@[simp] theorem FuncDecl.readable_toJson (d : FuncDecl) : d.toJson.Readable := by simp [toJson]

@[simp] theorem ParamRef.readable_toJson (p : ParamRef) : p.toJson.Readable := by
  cases p <;> simp [toJson]

@[simp] theorem Pragma.readable_toJson (p : Pragma) : p.toJson.Readable := by simp [toJson]

theorem Module.readable_toJson (m : Module) : m.toJson.Readable := by simp [toJson]

@[simp] theorem FixpointBody.readable_toJson (b : FixpointBody) :
    b.toJson.Readable := by simp [toJson, DecreasingParam.toJson]

namespace Sentence

mutual

theorem readable_toJson : (s : Sentence) → s.toJson.Readable
  | dataTypes _ => by simp [toJson]
  | synonym _ => by simp [toJson]
  | definition _ => by simp [toJson]
  | fixpoint _ => by simp [toJson]
  | shared name typeVars vars sentences => by simpa [toJson] using readable_allToJson sentences

theorem readable_allToJson : (sentences : List Sentence) →
    ∀ item ∈ allToJson sentences, item.Readable
  | [] => List.forall_mem_nil _
  | s :: rest => List.forall_mem_cons.mpr ⟨readable_toJson s, readable_allToJson rest⟩

end

end Sentence

/-! ## Round trips -/

/-- Every text of a JSON value is read as `x`, whatever blanks stand in it, unless it is nested
deeper than the limit of the reader. -/
def ReadFromText {α : Type} (read : Json → Option α) (j : Json) (x : α) : Prop :=
  ∀ (layout : Layout) (limit : Option Nat), layout.Blank → (∀ l ∈ limit, j.depth ≤ l) →
    (read? limit (j.write layout 0)).bind read = some x

theorem readFromText_of_readable {α : Type} {read : Json → Option α} {j : Json} {x : α}
    (hj : j.Readable) (h : read j = some x) : ReadFromText read j x := by
  intro layout limit hlayout hlimit
  rw [read?_write hlayout hj hlimit, Option.bind_some, h]

/-- **Modules and sentences survive the interchange format.** What is written for one is read as the
same value, from JSON values and from text, and so is every other form of it: with the fields of any
record in another order or listed without their names, without fields that have their defaults, and
with fields that nothing reads. -/
theorem interchange_roundTrip (form : VariantFields) (m : Module) (sentences : List Sentence)
    (hm : ∀ i ∈ m.indices, i < UInt64.size)
    (hsentences : ∀ i ∈ Sentence.indicesOfAll sentences, i < UInt64.size) :
    (Module.ofJson? form m.toJson = some m ∧ ReadFromText (Module.ofJson? form) m.toJson m ∧
        ∀ j, m.WrittenAs form j →
          Module.ofJson? form j = some m ∧ (j.Readable → ReadFromText (Module.ofJson? form) j m)) ∧
      (list? (Sentence.ofJson? form) (arr (Sentence.allToJson sentences)) = some sentences ∧
        ReadFromText (list? (Sentence.ofJson? form))
          (arr (Sentence.allToJson sentences)) sentences ∧
        ∀ items, Sentence.AllWrittenAs form sentences items →
          list? (Sentence.ofJson? form) (arr items) = some sentences ∧
            ((arr items).Readable → ReadFromText (list? (Sentence.ofJson? form)) (arr items)
              sentences)) := by
  have hmodule : ∀ j, m.WrittenAs form j → Module.ofJson? form j = some m :=
    fun _ hj => Module.ofJson?_of_written hj hm
  have hall : ∀ items, Sentence.AllWrittenAs form sentences items →
      list? (Sentence.ofJson? form) (arr items) = some sentences := fun _ hitems =>
    Sentence.list?_of_allWritten hitems hsentences
  -- what is written is one of the forms, and those are all read back
  have hself := hmodule _ m.writtenAs_toJson
  have hselves := hall _ (Sentence.allWrittenAs_toJson sentences)
  have hreadable : (arr (Sentence.allToJson sentences)).Readable :=
    itemsReadable_iff.mpr (Sentence.readable_allToJson sentences)
  refine ⟨⟨hself, readFromText_of_readable m.readable_toJson hself,
    fun j hj => ⟨hmodule j hj, fun hreadable => ?_⟩⟩,
    hselves, readFromText_of_readable hreadable hselves, fun items hitems =>
      ⟨hall items hitems, fun hreadable => ?_⟩⟩
  · exact readFromText_of_readable hreadable (hmodule j hj)
  · exact readFromText_of_readable hreadable (hall items hitems)

/-- A module and a sentence in other forms: fields out of order or as a list, defaults left out, and
an unknown field. -/
theorem interchange_roundTrip_shortForms :
    (read? (some 127)
      (Module.toJson
        { name := "M", pragmas := [{ function := "f", param := .index 1 }] }).pretty).bind
        (Module.ofJson? .namedOrListed) =
          some { name := "M", pragmas := [{ function := "f", param := .index 1 }] } ∧
    Module.ofJson? .namedOrListed
      (obj [("pragmas", arr [obj [("DecArg", arr [str "f", obj [("Index", nat 1)]])]]),
        ("comment", null), ("name", str "M")])
      = some { name := "M", pragmas := [{ function := "f", param := .index 1 }] } ∧
    list? (Sentence.ofJson? .namedOrListed)
      (arr [obj [("Fixpoint", arr [arr [obj [("args", arr [arr [str "n"]]),
        ("rhs", obj [("kind", obj [("Var", str "n")])]), ("name", str "f")],
          arr [nat 0, str "n"]]])]])
      =
        some
        [.fixpoint
          [⟨{ name := "f", params := [{ name := "n" }], rhs := .var {} "n" }, ⟨0, "n"⟩⟩]] := by
  have hroundTrip := interchange_roundTrip .namedOrListed
    { name := "M", pragmas := [{ function := "f", param := .index 1 }] }
    [.fixpoint [⟨{ name := "f", params := [{ name := "n" }], rhs := .var {} "n" }, ⟨0, "n"⟩⟩]]
    (by simp [Module.indices, ParamRef.indices, UInt64.size])
    (by simp [Sentence.indicesOfAll, Sentence.indices, UInt64.size])
  refine ⟨hroundTrip.1.2.1 .pretty _ Layout.blank_pretty ?_, (hroundTrip.1.2.2 _ ?_).1,
    (hroundTrip.2.2.2 _ ?_).1⟩
  · rintro _ ⟨⟩
    decide
  · have hpragma : Pragma.WrittenAs .namedOrListed { function := "f", param := .index 1 }
        (obj [("DecArg", arr [str "f", obj [("Index", nat 1)]])]) :=
      ⟨none, _, rfl, .inr ⟨_, 1, rfl, rfl⟩, rfl⟩
    exact ⟨none, none, some (arr _), rfl, rfl, ⟨_, rfl, .cons hpragma .nil⟩,
      .inl ⟨_, rfl, .swap _ _ _⟩⟩
  · -- the sentence from inside out: parameter, right-hand side, declaration, body
    have hparam : Binder.WrittenAs { name := "n" } (arr [str "n"]) :=
      ⟨none, none, rfl, rfl, .inr ⟨_, 2, rfl, rfl⟩⟩
    have hrhs : (Expr.var {} "n").WrittenAs .namedOrListed
        (obj [("kind", obj [("Var", str "n")])]) :=
      ⟨none, none, rfl, rfl, .inl ⟨_, rfl, .refl _⟩⟩
    have hdecl : FuncDecl.WrittenAs .namedOrListed
        { name := "f", params := [{ name := "n" }], rhs := .var {} "n" }
        (obj
          [("args", arr [arr [str "n"]]), ("rhs", obj [("kind", obj [("Var", str "n")])]),
            ("name", str "f")]) :=
      ⟨none, none, _, none, _, rfl, rfl, ⟨_, rfl, .cons hparam .nil⟩, rfl, hrhs,
        .inl ⟨_, rfl, (List.Perm.cons _ (.swap _ _ _)).trans (.swap _ _ _)⟩⟩
    have hbody : FixpointBody.WrittenAs .namedOrListed
        ⟨{ name := "f", params := [{ name := "n" }], rhs := .var {} "n" }, ⟨0, "n"⟩⟩
        (arr
          [obj
            [("args", arr [arr [str "n"]]), ("rhs", obj [("kind", obj [("Var", str "n")])]),
            ("name", str "f")],
          arr [nat 0, str "n"]]) :=
      ⟨_, _, hdecl, .inr ⟨_, 0, rfl, rfl⟩, .inr ⟨_, 0, rfl, rfl⟩⟩
    exact ⟨_, _, ⟨_, ⟨_, rfl, .cons hbody .nil⟩, rfl⟩, rfl, rfl⟩

end StructRec
