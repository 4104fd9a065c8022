import StructRec.Interchange.Reading
import StructRec.Interchange.Writing
import StructRec.Proofs.Records

/-!
# StructRec — written forms of modules and sentences

The forms in which a module or a sentence may be written, type by type along its parts: every record
in it may be an object or an array of its own, with fields in any order, with fields left out that
have their defaults, and with others that nothing reads. Whatever is chosen for each part, the
reader yields the same value (`Module.ofJson?_of_written`, `Sentence.ofJson?_of_written`). What
`Interchange.Writing` writes is one of these forms.

Readers go down as deep as the value that they read, so for the nested types the induction is about
every sufficient depth.
-/

namespace StructRec

variable {s : Span} {tag : String} {items : List Json}

open Json

/-! ## Spans and types -/

def Span.WrittenAs (s : Span) : Json → Prop :=
  IsRecord
    [("start_line", some (nat s.startLine.toNat)), ("start_col", some (nat s.startCol.toNat)),
    ("end_line", some (nat s.endLine.toNat)), ("end_col", some (nat s.endCol.toNat))]

/-- What is written for the field of a span. -/
def Span.FieldAs : Span → Option Json → Prop := Omissible generated WrittenAs

/-- What is written for the field of a type that may be unknown. -/
def Ty.FieldAs : Option Ty → Option Json → Prop := Omissible none (Nullable fun t j => j = t.toJson)

/-- A span is read from any record or list of its four numbers. -/
theorem Span.ofJson?_eq {j startLine startCol endLine endCol : Json}
    (hread : j.record? ["start_line", "start_col", "end_line", "end_col"]
      = some [some startLine, some startCol, some endLine, some endCol])
    (hstartLine : startLine.uint64? = some s.startLine)
    (hstartCol : startCol.uint64? = some s.startCol)
    (hendLine : endLine.uint64? = some s.endLine) (hendCol : endCol.uint64? = some s.endCol) :
    ofJson? j = some s := by
  simp only [ofJson?, hread, hstartLine, hstartCol, hendLine, hendCol, Option.bind_eq_bind,
    Option.bind_some, pure]

theorem Span.ofJson?_of_written {j : Json} (h : s.WrittenAs j) : ofJson? j = some s :=
  ofJson?_eq (record?_of_isRecord h rfl (by decide)) (uint64?_nat _) (uint64?_nat _) (uint64?_nat _)
    (uint64?_nat _)

theorem Span.ofField?_of_written {field : Option Json} (h : s.FieldAs field) :
    ofField? field = some s :=
  orDefault_of_omissible h fun _ => ofJson?_of_written

/-- A type is written in one way and read back from it. -/
theorem Ty.ofJson?_toJson (t : Ty) : ofJson? t.toJson = some t := by
  induction t with
  | var name | con name => rfl
  | app l r ihl ihr | func l r ihl ihr =>
    simp only [toJson, ofJson?, ihl, ihr, Option.bind_eq_bind, Option.bind_some]

theorem Ty.ofField?_of_written {t : Option Ty} {field : Option Json} (h : FieldAs t field) :
    ofField? field = some t :=
  orDefault_of_omissible h fun _ hty => nullable?_of_nullable hty rfl fun t _ _ hj =>
    hj ▸ t.ofJson?_toJson

theorem Span.writtenAs_toJson (s : Span) : s.WrittenAs s.toJson := .inl (isObject_self rfl)

theorem Ty.fieldAs_toJson (t : Option Ty) : FieldAs t (some (nullable toJson t)) := by
  cases t <;> rfl

/-! ## Expressions -/

def Binder.WrittenAs (b : Binder) (j : Json) : Prop :=
  ∃ ty span, Ty.FieldAs b.ty ty ∧ b.span.FieldAs span ∧
    IsRecord [("name", some (str b.name)), ("ty", ty), ("span", span)] j

def Pattern.WrittenAs (form : VariantFields) : Pattern → Json → Prop
  | con name vars, j => ∃ varsJson payload, IsList Binder.WrittenAs vars varsJson ∧
      form.IsWritten [("name", some (str name)), ("vars", some varsJson)] payload ∧
        j = obj [("Con", payload)]
  | lit value, j => j = obj [("Lit", int value.toInt)]
  | var binder, j => ∃ payload, binder.WrittenAs payload ∧ j = obj [("Var", payload)]
  | wildcard, j => IsUnitVariant "Wildcard" j

namespace Expr

/-- A node of this kind. -/
def IsNode (note : Note) (kind j : Json) : Prop :=
  ∃ span ty, note.span.FieldAs span ∧ Ty.FieldAs note.ty ty ∧
    IsRecord [("kind", some kind), ("span", span), ("ty", ty)] j

mutual

def WrittenAs (form : VariantFields) : Expr → Json → Prop
  | var note name, j => IsNode note (obj [("Var", str name)]) j
  | con note name, j => IsNode note (obj [("Con", str name)]) j
  | intLit note value, j => IsNode note (obj [("IntLit", int value.toInt)]) j
  | undefined note, j => ∃ kind, IsUnitVariant "Undefined" kind ∧ IsNode note kind j
  | error note message, j => IsNode note (obj [("Error", str message)]) j
  | app note fn arg, j =>
      ∃ fnJson argJson payload, fn.WrittenAs form fnJson ∧ arg.WrittenAs form argJson ∧
      form.IsWritten [("func", some fnJson), ("arg", some argJson)] payload ∧
        IsNode note (obj [("App", payload)]) j
  | typeApp note fn arg, j => ∃ fnJson payload, fn.WrittenAs form fnJson ∧
      form.IsWritten [("expr", some fnJson), ("ty", some arg.toJson)] payload ∧
        IsNode note (obj [("TypeApp", payload)]) j
  | cond note test thenBranch elseBranch, j =>
      ∃ testJson thenJson elseJson payload, test.WrittenAs form testJson ∧
      thenBranch.WrittenAs form thenJson ∧ elseBranch.WrittenAs form elseJson ∧
      form.IsWritten
        [("cond", some testJson), ("then_branch", some thenJson),
          ("else_branch", some elseJson)] payload ∧
      IsNode note (obj [("If", payload)]) j
  | case note scrutinee alts, j =>
      ∃ scrutineeJson items payload, scrutinee.WrittenAs form scrutineeJson ∧
      AltsWrittenAs form alts items ∧
      form.IsWritten [("scrutinee", some scrutineeJson), ("alts", some (arr items))] payload ∧
      IsNode note (obj [("Case", payload)]) j
  | lam note params body, j =>
      ∃ paramsJson bodyJson payload, IsList Binder.WrittenAs params paramsJson ∧
      body.WrittenAs form bodyJson ∧
        form.IsWritten [("params", some paramsJson), ("body", some bodyJson)] payload ∧
      IsNode note (obj [("Lambda", payload)]) j
  | letRec note binds body, j => ∃ items bodyJson payload, BindsWrittenAs form binds items ∧
      body.WrittenAs form bodyJson ∧
        form.IsWritten [("binds", some (arr items)), ("body", some bodyJson)] payload ∧
      IsNode note (obj [("Let", payload)]) j

def AltsWrittenAs (form : VariantFields) : Alts → List Json → Prop
  | [], items => items = []
  | (pattern, rhs) :: rest, items =>
      ∃ patternJson rhsJson j later, pattern.WrittenAs form patternJson ∧
      rhs.WrittenAs form rhsJson ∧
        IsRecord [("pattern", some patternJson), ("rhs", some rhsJson)] j ∧
      AltsWrittenAs form rest later ∧ items = j :: later

def BindsWrittenAs (form : VariantFields) : Binds → List Json → Prop
  | [], items => items = []
  | (binder, rhs) :: rest, items => ∃ binderJson rhsJson j later, binder.WrittenAs binderJson ∧
      rhs.WrittenAs form rhsJson ∧ IsRecord [("var", some binderJson), ("rhs", some rhsJson)] j ∧
      BindsWrittenAs form rest later ∧ items = j :: later

end

end Expr

/-- The annotation and the span of a binder may be left out. -/
theorem Binder.ofJson?_of_written {b : Binder} {j : Json} (h : b.WrittenAs j) :
    ofJson? j = some b := by
  obtain ⟨ty, span, hty, hspan, hrecord⟩ := h
  have hread : j.record? ["name", "ty", "span"] = some [some (str b.name), ty, span] :=
    record?_of_isRecord hrecord rfl (by decide)
  simp only [ofJson?, hread, str?, Ty.ofField?_of_written hty, Span.ofField?_of_written hspan,
    Option.bind_eq_bind, Option.bind_some, pure]

/-- A pattern has a payload of named or of bare fields, by the form. -/
theorem Pattern.ofJson?_of_written {form : VariantFields} {p : Pattern} {j : Json}
    (h : p.WrittenAs form j) : ofJson? form j = some p := by
  cases p with
  | con name vars =>
    obtain ⟨varsJson, payload, hvars, hpayload, rfl⟩ := h
    have hread : form.read? ["name", "vars"] payload = some [some (str name), some varsJson] :=
      VariantFields.read?_of_isWritten hpayload rfl (by decide)
    have hlist := list?_of_isList hvars fun b _ _ => Binder.ofJson?_of_written
    simp only [ofJson?, variant?, hread, str?, hlist, Option.bind_eq_bind, Option.bind_some, pure]
  | lit value =>
    obtain rfl : j = obj [("Lit", int value.toInt)] := h
    -- what carries the number stays closed, so that it is read by the lemma only
    have hread := int64?_int value
    generalize int value.toInt = payload at *
    simp only [ofJson?, variant?, hread, Option.bind_eq_bind, Option.bind_some, pure]
  | var binder =>
    obtain ⟨payload, hbinder, rfl⟩ := h
    simp only [ofJson?, variant?, Binder.ofJson?_of_written hbinder, Option.bind_eq_bind,
      Option.bind_some, pure]
  | wildcard =>
    rcases h with rfl | rfl <;> rfl

namespace Expr

variable {form : VariantFields}
variable {kind : Json} {e : Expr}

/-- A node is deeper than its kind, so reading it has depth left for the parts. -/
theorem IsNode.depth_lt {note : Note} {j : Json} (h : IsNode note kind j) :
    kind.depth < j.depth := by
  obtain ⟨span, ty, _, _, hrecord⟩ := h
  exact depth_lt_of_isRecord hrecord List.mem_cons_self

/-- What is read from a value, however deep the reader may go. -/
def ReadsAs (form : VariantFields) (j : Json) (e : Expr) : Prop :=
  ∀ depth, j.depth ≤ depth → readWithin form depth j = some e

/-- A node is read one level further down. -/
theorem readsAs_of_kind {note : Note} {j : Json} {payload : Option Json}
    (h : IsNode note kind j) (hvariant : kind.variant? = some (tag, payload))
    (hkind : ∀ depth, kind.depth ≤ depth →
      readKind form (readWithin form depth) note tag payload = some e) :
    ReadsAs form j e := by
  intro depth hdepth
  -- a node is never at the bottom, since it holds its kind
  have hlt := h.depth_lt
  obtain ⟨inner, rfl⟩ : ∃ inner, depth = inner + 1 := ⟨depth - 1, by omega⟩
  obtain ⟨span, ty, hspan, hty, hrecord⟩ := h
  have hread : j.record? ["kind", "span", "ty"] = some [some kind, span, ty] :=
    record?_of_isRecord hrecord rfl (by decide)
  simp only [readWithin, hread, Span.ofField?_of_written hspan,
    Ty.ofField?_of_written hty, hvariant,
    hkind inner (by omega), Option.bind_eq_bind, Option.bind_some]

/-- What a variant carries is nested less deep than the variant. -/
theorem readsAs_of_payload {note : Note} {j payload : Json}
    (h : IsNode note (obj [(tag, payload)]) j)
    (hkind : ∀ depth, payload.depth ≤ depth →
      readKind form (readWithin form depth) note tag (some payload) = some e) :
    ReadsAs form j e := by
  refine readsAs_of_kind h rfl fun depth hdepth => hkind depth ?_
  have hpayload : payload.depth < (obj [(tag, payload)]).depth := depth_lt_obj List.mem_cons_self
  omega

section nodes

variable {note : Note} {j payload : Json}

/-- The variant without payload is a bare tag, or a tag with `null`. -/
theorem readsAs_undefined (hkind : IsUnitVariant "Undefined" kind) (h : IsNode note kind j) :
    ReadsAs form j (undefined note) := by
  rcases hkind with rfl | rfl
  · exact readsAs_of_kind h rfl fun _ _ => rfl
  · exact readsAs_of_kind h rfl fun _ _ => rfl

theorem readsAs_intLit {value : Int64} (hvalue : payload.int64? = some value)
    (h : IsNode note (obj [("IntLit", payload)]) j) : ReadsAs form j (intLit note value) :=
  readsAs_of_payload h fun _ _ => congrArg (Option.map (intLit note)) hvalue

theorem readsAs_app {fnJson argJson : Json} {fn arg : Expr} (hfn : ReadsAs form fnJson fn)
    (harg : ReadsAs form argJson arg)
    (hpayload : form.IsWritten [("func", some fnJson), ("arg", some argJson)] payload)
    (h : IsNode note (obj [("App", payload)]) j) :
    ReadsAs form j (app note fn arg) := by
  refine readsAs_of_payload h fun depth hdepth => ?_
  have hfields : form.read? ["func", "arg"] payload = some [some fnJson, some argJson] :=
    VariantFields.read?_of_isWritten hpayload rfl (by decide)
  have hfnDepth : fnJson.depth < payload.depth := VariantFields.depth_lt hpayload (.head _)
  have hargDepth : argJson.depth < payload.depth :=
    VariantFields.depth_lt hpayload (.tail _ (.head _))
  have happ : readApp form (readWithin form depth) note payload = some (app note fn arg) := by
    simp only [readApp, hfields, hfn depth (by omega), harg depth (by omega), Option.bind_eq_bind,
      Option.bind_some, pure]
  exact happ

theorem readsAs_typeApp {fnJson : Json} {fn : Expr} {arg : Ty} (hfn : ReadsAs form fnJson fn)
    (hpayload : form.IsWritten [("expr", some fnJson), ("ty", some arg.toJson)] payload)
    (h : IsNode note (obj [("TypeApp", payload)]) j) : ReadsAs form j (typeApp note fn arg) := by
  refine readsAs_of_payload h fun depth hdepth => ?_
  have hfields : form.read? ["expr", "ty"] payload = some [some fnJson, some arg.toJson] :=
    VariantFields.read?_of_isWritten hpayload rfl (by decide)
  have hfnDepth : fnJson.depth < payload.depth := VariantFields.depth_lt hpayload (.head _)
  have htypeApp : readTypeApp form (readWithin form depth) note payload =
      some (typeApp note fn arg) := by
    simp only [readTypeApp, hfields, hfn depth (by omega), Ty.ofJson?_toJson, Option.bind_eq_bind,
      Option.bind_some, pure]
  exact htypeApp

theorem readsAs_cond {testJson thenJson elseJson : Json} {test thenBranch elseBranch : Expr}
    (htest : ReadsAs form testJson test) (hthen : ReadsAs form thenJson thenBranch)
    (helse : ReadsAs form elseJson elseBranch)
    (hpayload : form.IsWritten
      [("cond", some testJson), ("then_branch", some thenJson),
        ("else_branch", some elseJson)] payload)
    (h : IsNode note (obj [("If", payload)]) j) :
    ReadsAs form j (cond note test thenBranch elseBranch) := by
  refine readsAs_of_payload h fun depth hdepth => ?_
  have hfields : form.read? ["cond", "then_branch", "else_branch"] payload
      = some [some testJson, some thenJson, some elseJson] :=
        VariantFields.read?_of_isWritten hpayload rfl (by decide)
  -- the depth suffices for the payload, and so for each part of it
  have htestDepth : testJson.depth < payload.depth := VariantFields.depth_lt hpayload (.head _)
  have hthenDepth : thenJson.depth < payload.depth :=
    VariantFields.depth_lt hpayload (.tail _ (.head _))
  have helseDepth : elseJson.depth < payload.depth :=
    VariantFields.depth_lt hpayload (.tail _ (.tail _ (.head _)))
  have hcond : readCond form (readWithin form depth) note payload =
      some (cond note test thenBranch elseBranch) := by
    simp only [readCond, hfields, htest depth (by omega), hthen depth (by omega),
      helse depth (by omega), Option.bind_eq_bind, Option.bind_some, pure]
  exact hcond

/-- The alternatives are read at the depth that is left for the list of them. -/
theorem readsAs_case {scrutineeJson : Json} {scrutinee : Expr} {alts : Alts}
    (hscrutinee : ReadsAs form scrutineeJson scrutinee)
    (halts : ∀ depth, (∀ item ∈ items, item.depth ≤ depth) →
      items.mapM (readAlt form (readWithin form depth)) = some alts)
    (hpayload : form.IsWritten
      [("scrutinee", some scrutineeJson), ("alts", some (arr items))] payload)
    (h : IsNode note (obj [("Case", payload)]) j) : ReadsAs form j (case note scrutinee alts) := by
  refine readsAs_of_payload h fun depth hdepth => ?_
  have hfields : form.read? ["scrutinee", "alts"] payload =
      some [some scrutineeJson, some (arr items)] :=
    VariantFields.read?_of_isWritten hpayload rfl (by decide)
  have hscrutineeDepth : scrutineeJson.depth < payload.depth :=
    VariantFields.depth_lt hpayload (.head _)
  have haltsDepth : (arr items).depth < payload.depth :=
    VariantFields.depth_lt hpayload (.tail _ (.head _))
  -- each alternative is nested below the list of alternatives
  have hitems := halts depth fun item hitem => by
    have := depth_lt_arr hitem
    omega
  have hcase : readCase form (readWithin form depth) note payload =
      some (case note scrutinee alts) := by
    simp only [readCase, hfields, list?, hitems, hscrutinee depth (by omega), Option.bind_eq_bind,
      Option.bind_some, pure]
  exact hcase

theorem readsAs_lam {paramsJson bodyJson : Json} {params : List Binder} {body : Expr}
    (hparams : IsList Binder.WrittenAs params paramsJson) (hbody : ReadsAs form bodyJson body)
    (hpayload : form.IsWritten [("params", some paramsJson), ("body", some bodyJson)] payload)
    (h : IsNode note (obj [("Lambda", payload)]) j) : ReadsAs form j (lam note params body) := by
  refine readsAs_of_payload h fun depth hdepth => ?_
  have hfields : form.read? ["params", "body"] payload = some [some paramsJson, some bodyJson] :=
    VariantFields.read?_of_isWritten hpayload rfl (by decide)
  have hbodyDepth : bodyJson.depth < payload.depth :=
    VariantFields.depth_lt hpayload (.tail _ (.head _))
  have hlist := list?_of_isList hparams fun b _ _ => Binder.ofJson?_of_written
  have hlam : readLam form (readWithin form depth) note payload = some (lam note params body) := by
    simp only [readLam, hfields, hlist, hbody depth (by omega), Option.bind_eq_bind,
      Option.bind_some, pure]
  exact hlam

/-- A `let` is read back with its bindings. -/
theorem readsAs_letRec {bodyJson : Json} {binds : Binds} {body : Expr}
    (hbinds : ∀ depth, (∀ item ∈ items, item.depth ≤ depth) →
      items.mapM (readBind (readWithin form depth)) = some binds)
    (hbody : ReadsAs form bodyJson body)
    (hpayload : form.IsWritten [("binds", some (arr items)), ("body", some bodyJson)] payload)
    (h : IsNode note (obj [("Let", payload)]) j) : ReadsAs form j (letRec note binds body) := by
  refine readsAs_of_payload h fun depth hdepth => ?_
  have hfields : form.read? ["binds", "body"] payload = some [some (arr items), some bodyJson] :=
    VariantFields.read?_of_isWritten hpayload rfl (by decide)
  have hbindsDepth : (arr items).depth < payload.depth := VariantFields.depth_lt hpayload (.head _)
  have hbodyDepth : bodyJson.depth < payload.depth :=
    VariantFields.depth_lt hpayload (.tail _ (.head _))
  -- each binding is nested below the list of bindings
  have hitems := hbinds depth fun item hitem => by
    have := depth_lt_arr hitem
    omega
  have hlet : readLet form (readWithin form depth) note payload =
      some (letRec note binds body) := by
    simp only [readLet, hfields, list?, hitems, hbody depth (by omega), Option.bind_eq_bind,
      Option.bind_some, pure]
  exact hlet

end nodes

/-- One alternative, given how right-hand sides are read. -/
theorem readAlt_eq {read : Json → Option Expr} {patternJson rhsJson j : Json} {pattern : Pattern}
    {rhs : Expr} (hpattern : pattern.WrittenAs form patternJson) (hrhs : read rhsJson = some rhs)
    (h : IsRecord [("pattern", some patternJson), ("rhs", some rhsJson)] j) :
    readAlt form read j = some (pattern, rhs) := by
  have hfields : j.record? ["pattern", "rhs"] = some [some patternJson, some rhsJson] :=
    record?_of_isRecord h rfl (by decide)
  simp only [readAlt, hfields, Pattern.ofJson?_of_written hpattern, hrhs, Option.bind_eq_bind,
    Option.bind_some, pure]

/-- One binding, given how right-hand sides are read. -/
theorem readBind_eq {read : Json → Option Expr} {binderJson rhsJson j : Json} {binder : Binder}
    {rhs : Expr} (hbinder : binder.WrittenAs binderJson) (hrhs : read rhsJson = some rhs)
    (h : IsRecord [("var", some binderJson), ("rhs", some rhsJson)] j) :
    readBind read j = some (binder, rhs) := by
  have hfields : j.record? ["var", "rhs"] = some [some binderJson, some rhsJson] :=
    record?_of_isRecord h rfl (by decide)
  simp only [readBind, hfields, Binder.ofJson?_of_written hbinder, hrhs, Option.bind_eq_bind,
    Option.bind_some, pure]

mutual

/-- **Every written form of an expression** is read as the expression. -/
theorem readsAs_of_written : (e : Expr) → (j : Json) → e.WrittenAs form j → ReadsAs form j e
  | var _ _, _, h => readsAs_of_payload h fun _ _ => rfl
  | con _ _, _, h => readsAs_of_payload h fun _ _ => rfl
  | intLit _ value, _, h => readsAs_intLit (int64?_int value) h
  | undefined _, _, h => by
    obtain ⟨kind, hkind, hnode⟩ := h
    exact readsAs_undefined hkind hnode
  | error _ _, _, h => readsAs_of_payload h fun _ _ => rfl
  -- the parts of a node are read by recursion, and put together by the lemma for its form
  | app _ fn arg, _, h => by
    obtain ⟨fnJson, argJson, payload, hfn, harg, hpayload, hnode⟩ := h
    exact readsAs_app (readsAs_of_written fn fnJson hfn) (readsAs_of_written arg argJson harg)
      hpayload hnode
  | typeApp _ fn _, _, h => by
    obtain ⟨fnJson, payload, hfn, hpayload, hnode⟩ := h
    exact readsAs_typeApp (readsAs_of_written fn fnJson hfn) hpayload hnode
  | cond _ test thenBranch elseBranch, _, h => by
    obtain ⟨testJson, thenJson, elseJson, payload, htest, hthen, helse, hpayload, hnode⟩ := h
    exact readsAs_cond (readsAs_of_written test testJson htest)
      (readsAs_of_written thenBranch thenJson hthen)
      (readsAs_of_written elseBranch elseJson helse) hpayload hnode
  | case _ scrutinee alts, _, h => by
    obtain ⟨scrutineeJson, items, payload, hscrutinee, halts, hpayload, hnode⟩ := h
    exact readsAs_case (readsAs_of_written scrutinee scrutineeJson hscrutinee)
      (readAlts_of_written alts items halts) hpayload hnode
  | lam _ _ body, _, h => by
    obtain ⟨paramsJson, bodyJson, payload, hparams, hbody, hpayload, hnode⟩ := h
    exact readsAs_lam hparams (readsAs_of_written body bodyJson hbody) hpayload hnode
  | letRec _ binds body, _, h => by
    obtain ⟨items, bodyJson, payload, hbinds, hbody, hpayload, hnode⟩ := h
    exact readsAs_letRec (readBinds_of_written binds items hbinds)
      (readsAs_of_written body bodyJson hbody) hpayload hnode

/-- **The alternatives** of a `case`, each at the depth of the list. -/
theorem readAlts_of_written : (alts : Alts) → (items : List Json) → AltsWrittenAs form alts items →
    (depth : Nat) →
    (∀ item ∈ items, item.depth ≤ depth) →
      items.mapM (readAlt form (readWithin form depth)) = some alts
  | [], items, h, _, _ => by
    obtain rfl : items = [] := h
    rfl
  | (pattern, rhs) :: rest, items, h, depth, hdepth => by
    obtain ⟨patternJson, rhsJson, j, later, hpattern, hrhs, hrecord, hlater, rfl⟩ := h
    rw [List.forall_mem_cons] at hdepth
    have hrhsDepth : rhsJson.depth < j.depth := depth_lt_of_isRecord hrecord (.tail _ (.head _))
    have hread := readsAs_of_written rhs rhsJson hrhs depth (by omega)
    rw [List.mapM_cons, readAlt_eq hpattern hread hrecord,
      readAlts_of_written rest later hlater depth hdepth.2]
    rfl

/-- **The bindings** of a `let`. -/
theorem readBinds_of_written : (binds : Binds) → (items : List Json) →
    BindsWrittenAs form binds items → (depth : Nat) →
    (∀ item ∈ items, item.depth ≤ depth) →
      items.mapM (readBind (readWithin form depth)) = some binds
  | [], items, h, _, _ => by
    obtain rfl : items = [] := h
    rfl
  | (binder, rhs) :: rest, items, h, depth, hdepth => by
    obtain ⟨binderJson, rhsJson, j, later, hbinder, hrhs, hrecord, hlater, rfl⟩ := h
    rw [List.forall_mem_cons] at hdepth
    have hrhsDepth : rhsJson.depth < j.depth := depth_lt_of_isRecord hrecord (.tail _ (.head _))
    have hread := readsAs_of_written rhs rhsJson hrhs depth (by omega)
    rw [List.mapM_cons, readBind_eq hbinder hread hrecord,
      readBinds_of_written rest later hlater depth hdepth.2]
    rfl

end

/-- **Expressions** are read back: a text is never nested deeper than its depth. -/
theorem ofJson?_of_written {j : Json} (h : e.WrittenAs form j) : ofJson? form j = some e :=
  readsAs_of_written e j h j.depth (Nat.le_refl _)

end Expr

/-! ## Declarations -/

def TypeParam.WrittenAs (p : TypeParam) (j : Json) : Prop :=
  ∃ span, p.span.FieldAs span ∧ IsRecord [("name", some (str p.name)), ("span", span)] j

def Constructor.WrittenAs (c : Constructor) (j : Json) : Prop :=
  ∃ span, c.span.FieldAs span ∧
    IsRecord
      [("name", some (str c.name)), ("fields", some (list Ty.toJson c.fields)), ("span", span)] j

def DataDecl.WrittenAs (d : DataDecl) (j : Json) : Prop :=
  ∃ typeParams constructors span, IsList TypeParam.WrittenAs d.typeParams typeParams ∧
    IsList Constructor.WrittenAs d.constructors constructors ∧ d.span.FieldAs span ∧
    IsRecord
      [("name", some (str d.name)), ("type_args", some typeParams),
        ("constructors", some constructors),
      ("span", span)] j

def SynonymDecl.WrittenAs (d : SynonymDecl) (j : Json) : Prop :=
  ∃ typeParams span, IsList TypeParam.WrittenAs d.typeParams typeParams ∧ d.span.FieldAs span ∧
    IsRecord
      [("name", some (str d.name)), ("type_args", some typeParams), ("rhs", some d.rhs.toJson),
        ("span", span)] j

def TypeDecl.WrittenAs : TypeDecl → Json → Prop
  | data decl, j => ∃ payload, decl.WrittenAs payload ∧ j = obj [("Data", payload)]
  | synonym decl, j => ∃ payload, decl.WrittenAs payload ∧ j = obj [("Synonym", payload)]

def FuncDecl.WrittenAs (form : VariantFields) (d : FuncDecl) (j : Json) : Prop :=
  ∃ span typeParams params returnTy rhs, d.span.FieldAs span ∧
    Omissible [] (IsList TypeParam.WrittenAs) d.typeParams typeParams ∧
      IsList Binder.WrittenAs d.params params ∧
    Ty.FieldAs d.returnTy returnTy ∧ d.rhs.WrittenAs form rhs ∧
    IsRecord
      [("name", some (str d.name)), ("span", span), ("type_args", typeParams),
        ("args", some params),
      ("return_type", returnTy), ("rhs", some rhs)] j

def Pragma.WrittenAs (form : VariantFields) (p : Pragma) (j : Json) : Prop :=
  ∃ span payload, p.span.FieldAs span ∧
    form.IsWritten
      [("function", some (str p.function)), ("arg", some p.param.toJson), ("span", span)] payload ∧
    j = obj [("DecArg", payload)]

def Module.WrittenAs (form : VariantFields) (m : Module) (j : Json) : Prop :=
  ∃ typeDecls funcDecls pragmas, Omissible [] (IsList TypeDecl.WrittenAs) m.typeDecls typeDecls ∧
    Omissible [] (IsList (FuncDecl.WrittenAs form)) m.funcDecls funcDecls ∧
    Omissible [] (IsList (Pragma.WrittenAs form)) m.pragmas pragmas ∧
    IsRecord
      [("name", some (str m.name)), ("type_decls", typeDecls), ("func_decls", funcDecls),
        ("pragmas", pragmas)] j

/-- The positions that a pragma gives. -/
def ParamRef.indices : ParamRef → List Nat
  | index i => [i]
  | name _ => []

/-- The positions in the pragmas of a module. -/
def Module.indices (m : Module) : List Nat := m.pragmas.flatMap (·.param.indices)

theorem TypeParam.ofJson?_of_written {p : TypeParam} {j : Json} (h : p.WrittenAs j) :
    ofJson? j = some p := by
  obtain ⟨span, hspan, hrecord⟩ := h
  have hread : j.record? ["name", "span"] = some [some (str p.name), span] :=
    record?_of_isRecord hrecord rfl (by decide)
  simp only [ofJson?, hread, str?, Span.ofField?_of_written hspan, Option.bind_eq_bind,
    Option.bind_some, pure]

theorem Ty.list?_ofJson?_toJson (ts : List Ty) : list? ofJson? (list toJson ts) = some ts := by
  have hwritten : IsList (fun t j => j = toJson t) ts (list toJson ts) := isList_list fun _ _ => rfl
  exact list?_of_isList hwritten fun t _ _ hj => hj ▸ t.ofJson?_toJson

theorem Constructor.ofJson?_of_written {c : Constructor} {j : Json} (h : c.WrittenAs j) :
    ofJson? j = some c := by
  obtain ⟨span, hspan, hrecord⟩ := h
  have hread : j.record? ["name", "fields", "span"] =
      some [some (str c.name), some (list Ty.toJson c.fields), span] :=
    record?_of_isRecord hrecord rfl (by decide)
  simp only [ofJson?, hread, str?, Ty.list?_ofJson?_toJson, Span.ofField?_of_written hspan,
    Option.bind_eq_bind, Option.bind_some, pure]

theorem DataDecl.ofJson?_of_written {d : DataDecl} {j : Json} (h : d.WrittenAs j) :
    ofJson? j = some d := by
  obtain ⟨typeParams, constructors, span, htypeParams, hconstructors, hspan, hrecord⟩ := h
  have hread : j.record? ["name", "type_args", "constructors", "span"]
      = some [some (str d.name), some typeParams, some constructors, span] :=
        record?_of_isRecord hrecord rfl (by decide)
  have htypeParams' := list?_of_isList htypeParams fun p _ _ => TypeParam.ofJson?_of_written
  have hconstructors' := list?_of_isList hconstructors fun c _ _ => Constructor.ofJson?_of_written
  simp only [ofJson?, hread, str?, htypeParams', hconstructors', Span.ofField?_of_written hspan,
    Option.bind_eq_bind, Option.bind_some, pure]

theorem SynonymDecl.ofJson?_of_written {d : SynonymDecl} {j : Json} (h : d.WrittenAs j) :
    ofJson? j = some d := by
  obtain ⟨typeParams, span, htypeParams, hspan, hrecord⟩ := h
  have hread : j.record? ["name", "type_args", "rhs", "span"]
      = some [some (str d.name), some typeParams, some d.rhs.toJson, span] :=
        record?_of_isRecord hrecord rfl (by decide)
  have htypeParams' := list?_of_isList htypeParams fun p _ _ => TypeParam.ofJson?_of_written
  simp only [ofJson?, hread, str?, htypeParams', Ty.ofJson?_toJson, Span.ofField?_of_written hspan,
    Option.bind_eq_bind, Option.bind_some, pure]

/-- A type declaration is a variant: a data type or a synonym. -/
theorem TypeDecl.ofJson?_of_written {d : TypeDecl} {j : Json} (h : d.WrittenAs j) :
    ofJson? j = some d := by
  cases d with
  | data decl =>
    obtain ⟨payload, hdecl, rfl⟩ := h
    simp only [ofJson?, variant?, DataDecl.ofJson?_of_written hdecl, Option.bind_eq_bind,
      Option.bind_some, pure]
  | synonym decl =>
    obtain ⟨payload, hdecl, rfl⟩ := h
    simp only [ofJson?, variant?, SynonymDecl.ofJson?_of_written hdecl, Option.bind_eq_bind,
      Option.bind_some, pure]

section forms

variable {form : VariantFields} {j : Json}

/-- A function declaration, with all that may be left out of it. -/
theorem FuncDecl.ofJson?_of_written {d : FuncDecl} (h : d.WrittenAs form j) :
    ofJson? form j = some d := by
  obtain ⟨span, typeParams, params, returnTy, rhs, hspan, htypeParams, hparams, hreturnTy,
    hrhs, hrecord⟩ := h
  have hread : j.record? ["name", "span", "type_args", "args", "return_type", "rhs"]
      = some [some (str d.name), span, typeParams, some params, returnTy, some rhs] :=
    record?_of_isRecord hrecord rfl (by decide)
  have htypeParams' := orDefault_of_omissible htypeParams fun _ hlist =>
    list?_of_isList hlist fun p _ _ => TypeParam.ofJson?_of_written
  have hparams' := list?_of_isList hparams fun b _ _ => Binder.ofJson?_of_written
  simp only [ofJson?, hread, str?, Span.ofField?_of_written hspan, htypeParams', hparams',
    Ty.ofField?_of_written hreturnTy, Expr.ofJson?_of_written hrhs, Option.bind_eq_bind,
      Option.bind_some, pure]

theorem ParamRef.ofJson?_index {payload : Json} {i : Nat} (h : payload.index? = some i) :
    ofJson? (obj [("Index", payload)]) = some (index i) := by
  simp only [ofJson?, variant?, h, Option.bind_eq_bind, Option.bind_some, pure]

/-- A parameter is named, or given by an index that fits. -/
theorem ParamRef.ofJson?_toJson {p : ParamRef} (h : ∀ i ∈ p.indices, i < UInt64.size) :
    ofJson? p.toJson = some p := by
  cases p with
  | index i => exact ofJson?_index (index?_nat (h i List.mem_cons_self))
  | name n => rfl

/-- A pragma is read back if its index fits. -/
theorem Pragma.ofJson?_of_written {p : Pragma} (h : p.WrittenAs form j)
    (hindices : ∀ i ∈ p.param.indices, i < UInt64.size) : ofJson? form j = some p := by
  obtain ⟨span, payload, hspan, hpayload, rfl⟩ := h
  have hread : form.read? ["function", "arg", "span"] payload =
      some [some (str p.function), some p.param.toJson, span] :=
    VariantFields.read?_of_isWritten hpayload rfl (by decide)
  simp only [ofJson?, variant?, hread, str?, ParamRef.ofJson?_toJson hindices,
    Span.ofField?_of_written hspan, Option.bind_eq_bind, Option.bind_some, pure]

/-- **Every written form of a module** is read as the module. -/
theorem Module.ofJson?_of_written {m : Module} (h : m.WrittenAs form j)
    (hindices : ∀ i ∈ m.indices, i < UInt64.size) : ofJson? form j = some m := by
  obtain ⟨typeDecls, funcDecls, pragmas, htypeDecls, hfuncDecls, hpragmas, hrecord⟩ := h
  have hread : j.record? ["name", "type_decls", "func_decls", "pragmas"]
      = some [some (str m.name), typeDecls, funcDecls, pragmas] :=
        record?_of_isRecord hrecord rfl (by decide)
  -- each of the three lists may be left out if it is empty
  have htypeDecls' := orDefault_of_omissible htypeDecls fun _ hlist =>
    list?_of_isList hlist fun d _ _ => TypeDecl.ofJson?_of_written
  have hfuncDecls' := orDefault_of_omissible hfuncDecls fun _ hlist =>
    list?_of_isList hlist fun d _ _ => FuncDecl.ofJson?_of_written
  have hpragmas' :=
    orDefault_of_omissible hpragmas fun _ hlist => list?_of_isList hlist fun p hp _ hwritten =>
      Pragma.ofJson?_of_written hwritten fun i hi => hindices i (List.mem_flatMap.mpr ⟨p, hp, hi⟩)
  simp only [ofJson?, hread, str?, htypeDecls', hfuncDecls', hpragmas', Option.bind_eq_bind,
    Option.bind_some, pure]

end forms

/-! ## Sentences -/

def DecreasingParam.WrittenAs (p : DecreasingParam) : Json → Prop :=
  IsRecord [("index", some (nat p.index)), ("name", some (str p.name))]

def FixpointBody.WrittenAs (form : VariantFields) (b : FixpointBody) (j : Json) : Prop :=
  ∃ decl decreasing, b.decl.WrittenAs form decl ∧ b.decreasing.WrittenAs decreasing ∧
    IsRecord [("decl", some decl), ("decreasing_arg", some decreasing)] j

namespace Sentence

mutual

def WrittenAs (form : VariantFields) : Sentence → Json → Prop
  | dataTypes decls, j =>
      ∃ payload, IsList DataDecl.WrittenAs decls payload ∧ j = obj [("Inductive", payload)]
  | synonym decl, j => ∃ payload, decl.WrittenAs payload ∧ j = obj [("TypeSynonym", payload)]
  | definition decl, j => ∃ payload, decl.WrittenAs form payload ∧ j = obj [("Definition", payload)]
  | fixpoint bodies, j => ∃ payload,
      IsList (FixpointBody.WrittenAs form) bodies payload ∧ j = obj [("Fixpoint", payload)]
  | shared name typeVars vars sentences, j => ∃ typeVarsJson varsJson items payload,
      IsList TypeParam.WrittenAs typeVars typeVarsJson ∧ IsList Binder.WrittenAs vars varsJson ∧
      AllWrittenAs form sentences items ∧
      IsRecord
        [("name", some (str name)), ("type_vars", some typeVarsJson), ("variables", some varsJson),
        ("sentences", some (arr items))] payload ∧ j = obj [("Section", payload)]

def AllWrittenAs (form : VariantFields) : List Sentence → List Json → Prop
  | [], items => items = []
  | s :: rest, items =>
      ∃ j later, s.WrittenAs form j ∧ AllWrittenAs form rest later ∧ items = j :: later

end

mutual

/-- The positions of the decreasing parameters of fixpoints. -/
def indices : Sentence → List Nat
  | dataTypes _ | synonym _ | definition _ => []
  | fixpoint bodies => bodies.map (·.decreasing.index)
  | shared _ _ _ sentences => indicesOfAll sentences

def indicesOfAll : List Sentence → List Nat
  | [] => []
  | s :: rest => s.indices ++ indicesOfAll rest

end

end Sentence

section forms

variable {form : VariantFields}
variable {j : Json}

theorem DecreasingParam.ofJson?_eq {p : DecreasingParam} {index name : Json}
    (hread : j.record? ["index", "name"] = some [some index, some name])
    (hindex : index.index? = some p.index) (hname : name.str? = some p.name) :
    ofJson? j = some p := by
  simp only [ofJson?, hread, hindex, hname, Option.bind_eq_bind, Option.bind_some, pure]

theorem DecreasingParam.ofJson?_of_written {p : DecreasingParam} (h : p.WrittenAs j)
    (hindex : p.index < UInt64.size) : ofJson? j = some p :=
  ofJson?_eq (record?_of_isRecord h rfl (by decide)) (index?_nat hindex) rfl

/-- A body of a fixpoint, with its decreasing argument. -/
theorem FixpointBody.ofJson?_of_written {b : FixpointBody} (h : b.WrittenAs form j)
    (hindex : b.decreasing.index < UInt64.size) : ofJson? form j = some b := by
  obtain ⟨decl, decreasing, hdecl, hdecreasing, hrecord⟩ := h
  have hread : j.record? ["decl", "decreasing_arg"] = some [some decl, some decreasing] :=
    record?_of_isRecord hrecord rfl (by decide)
  simp only [ofJson?, hread, FuncDecl.ofJson?_of_written hdecl,
    DecreasingParam.ofJson?_of_written hdecreasing hindex,
    Option.bind_eq_bind, Option.bind_some, pure]

namespace Sentence

/-- A variant takes one level of depth, and its payload has the rest. -/
theorem exists_depth {payload : Json} {depth : Nat}
    (hdepth : (obj [(tag, payload)]).depth ≤ depth) :
    ∃ inner, depth = inner + 1 ∧ payload.depth ≤ inner := by
  have hpayload : payload.depth < (obj [(tag, payload)]).depth := depth_lt_obj List.mem_cons_self
  exact ⟨depth - 1, by omega, by omega⟩

mutual

/-- **Every written form of a sentence** is read as the sentence, if the depth suffices. -/
theorem readWithin_of_written : (s : Sentence) → (∀ i ∈ s.indices, i < UInt64.size) → (j : Json) →
    s.WrittenAs form j →
    (depth : Nat) → j.depth ≤ depth → readWithin form depth j = some s
  | dataTypes decls, _, j, h, depth, hdepth => by
    obtain ⟨payload, hdecls, rfl⟩ := h
    obtain ⟨inner, rfl, _⟩ := exists_depth hdepth
    have hlist := list?_of_isList hdecls fun d _ _ => DataDecl.ofJson?_of_written
    simp only [readWithin, variant?, hlist, Option.bind_eq_bind, Option.bind_some, pure]
  | synonym decl, _, j, h, depth, hdepth => by
    obtain ⟨payload, hdecl, rfl⟩ := h
    obtain ⟨inner, rfl, _⟩ := exists_depth hdepth
    simp only [readWithin, variant?, SynonymDecl.ofJson?_of_written hdecl, Option.bind_eq_bind,
      Option.bind_some, pure]
  | definition decl, _, j, h, depth, hdepth => by
    obtain ⟨payload, hdecl, rfl⟩ := h
    obtain ⟨inner, rfl, _⟩ := exists_depth hdepth
    simp only [readWithin, variant?, FuncDecl.ofJson?_of_written hdecl, Option.bind_eq_bind,
      Option.bind_some, pure]
  | fixpoint bodies, hindices, j, h, depth, hdepth => by
    obtain ⟨payload, hbodies, rfl⟩ := h
    obtain ⟨inner, rfl, _⟩ := exists_depth hdepth
    have hlist := list?_of_isList hbodies fun b hb _ hwritten =>
      FixpointBody.ofJson?_of_written hwritten (hindices _ (List.mem_map_of_mem hb))
    simp only [readWithin, variant?, hlist, Option.bind_eq_bind, Option.bind_some, pure]
  -- the sentences of a section are read by recursion
  | shared name typeVars vars sentences, hindices, j, h, depth, hdepth => by
    obtain ⟨typeVarsJson, varsJson, items, payload, htypeVars, hvars, hsentences, hrecord, rfl⟩ := h
    obtain ⟨inner, rfl, hinner⟩ := exists_depth hdepth
    have hread : payload.record? ["name", "type_vars", "variables", "sentences"]
        = some [some (str name), some typeVarsJson, some varsJson, some (arr items)] :=
      record?_of_isRecord hrecord rfl (by decide)
    have htypeVars' := list?_of_isList htypeVars fun p _ _ => TypeParam.ofJson?_of_written
    have hvars' := list?_of_isList hvars fun b _ _ => Binder.ofJson?_of_written
    have hsentencesDepth : (arr items).depth < payload.depth :=
      depth_lt_of_isRecord hrecord (.tail _ (.tail _ (.tail _ (.head _))))
    have hitems : list? (readWithin form inner) (arr items) = some sentences :=
      readAll_of_written sentences hindices items hsentences inner fun item hitem => by
        have := depth_lt_arr hitem
        omega
    simp only [readWithin, variant?, hread, str?, htypeVars', hvars', hitems, Option.bind_eq_bind,
      Option.bind_some, pure]

/-- **The sentences of a section**, each at the depth of the list. -/
theorem readAll_of_written : (sentences : List Sentence) →
    (∀ i ∈ indicesOfAll sentences, i < UInt64.size) →
    (items : List Json) → AllWrittenAs form sentences items → (depth : Nat) →
      (∀ item ∈ items, item.depth ≤ depth) →
    items.mapM (readWithin form depth) = some sentences
  | [], _, items, h, _, _ => by
    obtain rfl : items = [] := h
    rfl
  | s :: rest, hindices, items, h, depth, hdepth => by
    obtain ⟨j, later, hs, hlater, rfl⟩ := h
    rw [List.forall_mem_cons] at hdepth
    rw [indicesOfAll, List.forall_mem_append] at hindices
    rw [List.mapM_cons, readWithin_of_written s hindices.1 j hs depth hdepth.1,
      readAll_of_written rest hindices.2 later hlater depth hdepth.2]
    rfl

end

theorem ofJson?_of_written {s : Sentence} (h : s.WrittenAs form j)
    (hindices : ∀ i ∈ s.indices, i < UInt64.size) : ofJson? form j = some s :=
  readWithin_of_written s hindices j h j.depth (Nat.le_refl _)

/-- A list of sentences, each read at its own depth. -/
theorem list?_of_allWritten {sentences : List Sentence} (h : AllWrittenAs form sentences items)
    (hindices : ∀ i ∈ indicesOfAll sentences, i < UInt64.size) :
    list? (ofJson? form) (arr items) = some sentences := by
  induction sentences generalizing items with
  | nil =>
    obtain rfl : items = [] := h
    rfl
  | cons s rest ih =>
    obtain ⟨j, later, hs, hlater, rfl⟩ := h
    rw [indicesOfAll, List.forall_mem_append] at hindices
    have hrest : later.mapM (ofJson? form) = some rest := ih hlater hindices.2
    rw [list?, List.mapM_cons, ofJson?_of_written hs hindices.1, hrest]
    rfl

end Sentence

end forms

/-! ## What is written -/

section forms

variable {form : VariantFields}

theorem Span.fieldAs_toJson (s : Span) : s.FieldAs (some s.toJson) := s.writtenAs_toJson

theorem Binder.writtenAs_toJson (b : Binder) : b.WrittenAs b.toJson :=
  ⟨_, _, Ty.fieldAs_toJson b.ty, b.span.fieldAs_toJson, .inl (isObject_self rfl)⟩

theorem Pattern.writtenAs_toJson (p : Pattern) : p.WrittenAs form p.toJson := by
  cases p with
  | con name vars =>
    exact ⟨_, _, isList_list fun b _ => b.writtenAs_toJson, form.isWritten_self rfl, rfl⟩
  | lit value => rfl
  | var binder => exact ⟨_, binder.writtenAs_toJson, rfl⟩
  | wildcard => exact .inl rfl

namespace Expr

theorem isNode_nodeJson (note : Note) (kind : Json) : IsNode note kind (nodeJson kind note) :=
  ⟨_, _, note.span.fieldAs_toJson, Ty.fieldAs_toJson note.ty, .inl (isObject_self rfl)⟩

mutual

/-- **What is written** is one of the written forms of an expression, in either form of payloads. -/
theorem writtenAs_toJson : (e : Expr) → e.WrittenAs form e.toJson
  | var note _ | con note _ | intLit note _ | error note _ => isNode_nodeJson note _
  | undefined note => ⟨_, .inl rfl, isNode_nodeJson note _⟩
  | app note fn arg =>
    ⟨_, _, _, fn.writtenAs_toJson, arg.writtenAs_toJson, form.isWritten_self rfl,
      isNode_nodeJson note _⟩
  | typeApp note fn _ =>
      ⟨_, _, fn.writtenAs_toJson, form.isWritten_self rfl, isNode_nodeJson note _⟩
  | cond note test thenBranch elseBranch =>
    ⟨_, _, _, _, test.writtenAs_toJson, thenBranch.writtenAs_toJson, elseBranch.writtenAs_toJson,
      form.isWritten_self rfl, isNode_nodeJson note _⟩
  | case note scrutinee alts =>
    ⟨_, _, _, scrutinee.writtenAs_toJson, altsWrittenAs_toJson alts, form.isWritten_self rfl,
      isNode_nodeJson note _⟩
  | lam note _ body =>
    ⟨_, _, _, isList_list fun b _ => b.writtenAs_toJson, body.writtenAs_toJson,
      form.isWritten_self rfl, isNode_nodeJson note _⟩
  | letRec note binds body =>
    ⟨_, _, _, bindsWrittenAs_toJson binds, body.writtenAs_toJson, form.isWritten_self rfl,
      isNode_nodeJson note _⟩

theorem altsWrittenAs_toJson : (alts : Alts) → AltsWrittenAs form alts (altsToJson alts)
  | [] => rfl
  | (pattern, rhs) :: rest =>
    ⟨_, _, _, _, pattern.writtenAs_toJson, rhs.writtenAs_toJson, .inl (isObject_self rfl),
      altsWrittenAs_toJson rest, rfl⟩

theorem bindsWrittenAs_toJson : (binds : Binds) → BindsWrittenAs form binds (bindsToJson binds)
  | [] => rfl
  | (binder, rhs) :: rest =>
    ⟨_, _, _, _, binder.writtenAs_toJson, rhs.writtenAs_toJson, .inl (isObject_self rfl),
      bindsWrittenAs_toJson rest, rfl⟩

end

end Expr

theorem TypeParam.writtenAs_toJson (p : TypeParam) : p.WrittenAs p.toJson :=
  ⟨_, p.span.fieldAs_toJson, .inl (isObject_self rfl)⟩

theorem Constructor.writtenAs_toJson (c : Constructor) : c.WrittenAs c.toJson :=
  ⟨_, c.span.fieldAs_toJson, .inl (isObject_self rfl)⟩

theorem DataDecl.writtenAs_toJson (d : DataDecl) : d.WrittenAs d.toJson :=
  ⟨_, _, _, isList_list fun p _ => p.writtenAs_toJson, isList_list fun c _ => c.writtenAs_toJson,
    d.span.fieldAs_toJson, .inl (isObject_self rfl)⟩

theorem SynonymDecl.writtenAs_toJson (d : SynonymDecl) : d.WrittenAs d.toJson :=
  ⟨_, _, isList_list fun p _ => p.writtenAs_toJson, d.span.fieldAs_toJson, .inl (isObject_self rfl)⟩

theorem TypeDecl.writtenAs_toJson (d : TypeDecl) : d.WrittenAs d.toJson := by
  cases d with
  | data decl => exact ⟨_, decl.writtenAs_toJson, rfl⟩
  | synonym decl => exact ⟨_, decl.writtenAs_toJson, rfl⟩

theorem FuncDecl.writtenAs_toJson (d : FuncDecl) : d.WrittenAs form d.toJson := by
  have htypeParams : Omissible [] (IsList TypeParam.WrittenAs) d.typeParams
      (some (list TypeParam.toJson d.typeParams)) :=
    isList_list fun p _ => p.writtenAs_toJson
  exact ⟨_, _, _, _, _, d.span.fieldAs_toJson, htypeParams,
    isList_list fun b _ => b.writtenAs_toJson,
    Ty.fieldAs_toJson d.returnTy, d.rhs.writtenAs_toJson, .inl (isObject_self rfl)⟩

theorem Pragma.writtenAs_toJson (p : Pragma) : p.WrittenAs form p.toJson :=
  ⟨_, _, p.span.fieldAs_toJson, form.isWritten_self rfl, rfl⟩

/-- What is written leaves nothing out. -/
theorem Module.writtenAs_toJson (m : Module) : m.WrittenAs form m.toJson := by
  have htypeDecls : Omissible [] (IsList TypeDecl.WrittenAs) m.typeDecls
      (some (list TypeDecl.toJson m.typeDecls)) :=
    isList_list fun d _ => d.writtenAs_toJson
  have hfuncDecls : Omissible [] (IsList (FuncDecl.WrittenAs form)) m.funcDecls
      (some (list FuncDecl.toJson m.funcDecls)) :=
    isList_list fun d _ => d.writtenAs_toJson
  have hpragmas : Omissible [] (IsList (Pragma.WrittenAs form)) m.pragmas
      (some (list Pragma.toJson m.pragmas)) :=
    isList_list fun p _ => p.writtenAs_toJson
  exact ⟨_, _, _, htypeDecls, hfuncDecls, hpragmas, .inl (isObject_self rfl)⟩

theorem FixpointBody.writtenAs_toJson (b : FixpointBody) : b.WrittenAs form b.toJson :=
  ⟨_, _, b.decl.writtenAs_toJson, .inl (isObject_self rfl), .inl (isObject_self rfl)⟩

namespace Sentence

mutual

/-- What is written is one of the written forms of a sentence. -/
theorem writtenAs_toJson : (s : Sentence) → s.WrittenAs form s.toJson
  | dataTypes _ => ⟨_, isList_list fun d _ => d.writtenAs_toJson, rfl⟩
  | synonym decl => ⟨_, decl.writtenAs_toJson, rfl⟩
  | definition decl => ⟨_, decl.writtenAs_toJson, rfl⟩
  | fixpoint _ => ⟨_, isList_list fun b _ => b.writtenAs_toJson, rfl⟩
  | shared _ _ _ sentences =>
    ⟨_, _, _, _, isList_list fun p _ => p.writtenAs_toJson,
      isList_list fun b _ => b.writtenAs_toJson,
      allWrittenAs_toJson sentences, .inl (isObject_self rfl), rfl⟩

theorem allWrittenAs_toJson : (sentences : List Sentence) →
    AllWrittenAs form sentences (allToJson sentences)
  | [] => rfl
  | s :: rest => ⟨_, _, s.writtenAs_toJson, allWrittenAs_toJson rest, rfl⟩

end

end Sentence

end forms

end StructRec
