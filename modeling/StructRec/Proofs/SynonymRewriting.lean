import Mathlib.Logic.Relation
import StructRec.Proofs.TypeOrder

/-!
# StructRec — expansion computes normal forms

Synonyms are the rules of a rewriting of types: `S t₁ … tₙ` becomes the right-hand side of `S` with
its parameters replaced by `t₁ … tₙ`. The rewriting is confluent whatever the synonyms are, so a
type has at most one normal form, and the data types of a recursive component are emitted with their
fields in normal form.

* **`Rewrites`** — one synonym is unfolded somewhere in a type.
* **`Parallel`** — any number of synonyms are unfolded at once, read along the spine of a type. One
  level of an expansion unfolds as many as there are, so it is reached from every parallel step
  (`Parallel.complete`). Confluence follows.
* **`rewrites_expand`** — an expansion is a sequence of unfoldings, with no condition on the
  synonyms.
* **`recursive_normalForms`** — what a recursive component is converted to.
-/

namespace StructRec

open Relation

/-! ## Statements -/

/-- Replace parameters by the arguments in their positions. -/
def Ty.instantiate (params : List Name) (args : List Ty) : Ty → Ty
  | var name => ((params.zip args).lookup name).getD (var name)
  | con name => con name
  | app l r => app (l.instantiate params args) (r.instantiate params args)
  | func l r => func (l.instantiate params args) (r.instantiate params args)

/-- What a synonym stands for when it is applied to arguments. -/
def SynonymDecl.meaning (d : SynonymDecl) (args : List Ty) : Ty :=
  d.rhs.instantiate (d.typeParams.map TypeParam.name) args

/-- One synonym, applied to as many arguments as it has parameters, is unfolded somewhere in a
type. -/
inductive Ty.Rewrites (synonyms : List SynonymDecl) : Ty → Ty → Prop
  | unfold {d : SynonymDecl} {args : List Ty} (hd : d ∈ synonyms)
    (hlen : args.length = d.typeParams.length) :
    Rewrites synonyms (apply (con d.name) args) (d.meaning args)
  | fn {l l' : Ty} (h : Rewrites synonyms l l') (r : Ty) : Rewrites synonyms (app l r) (app l' r)
  | arg (l : Ty) {r r' : Ty} (h : Rewrites synonyms r r') : Rewrites synonyms (app l r) (app l r')
  | dom {l l' : Ty} (h : Rewrites synonyms l l') (r : Ty) : Rewrites synonyms (func l r) (func l' r)
  | cod (l : Ty) {r r' : Ty} (h : Rewrites synonyms r r') : Rewrites synonyms (func l r) (func l r')

/-- Nothing can be unfolded. -/
def Ty.Normal (synonyms : List SynonymDecl) (t : Ty) : Prop := ∀ u, ¬ Rewrites synonyms t u

/-- The one normal form that a type can be rewritten to. -/
structure Ty.IsNormalForm (synonyms : List SynonymDecl) (t u : Ty) : Prop where
  reached : ReflTransGen (Rewrites synonyms) t u
  normal : u.Normal synonyms
  unique : ∀ v, ReflTransGen (Rewrites synonyms) t v → v.Normal synonyms → v = u

/-- A constructor with its fields in normal form, and the same otherwise. -/
structure Constructor.Normalizes (synonyms : List SynonymDecl) (c c' : Constructor) : Prop where
  name : c'.name = c.name
  span : c'.span = c.span
  fields : List.Forall₂ (Ty.IsNormalForm synonyms) c.fields c'.fields

/-- A data type with the fields of its constructors in normal form, and the same otherwise. -/
structure DataDecl.Normalizes (synonyms : List SynonymDecl) (d d' : DataDecl) : Prop where
  name : d'.name = d.name
  typeParams : d'.typeParams = d.typeParams
  span : d'.span = d.span
  constructors : List.Forall₂ (Constructor.Normalizes synonyms) d.constructors d'.constructors

/-! ## Arguments put in -/

namespace Ty

variable {d : SynonymDecl} {u t' : Ty} {args' : List Ty} {available : List SynonymEntry}

theorem apply_append (t : Ty) (args extra : List Ty) :
    apply t (args ++ extra) = apply (apply t args) extra :=
  List.foldl_append

/-- Replacing through a table is replacing by position, where no parameter comes twice. -/
theorem subst_ofList_zip {params : List Name} (hnodup : params.Nodup) {args : List Ty}
    (hlen : args.length = params.length) (t : Ty) :
    t.subst (Table.ofList (params.zip args)) = t.instantiate params args := by
  have hkeys : ((params.zip args).map Prod.fst).Nodup := by rwa [List.map_fst_zip hlen.ge]
  induction t with
  | var name => rw [subst, instantiate, Table.get?, Table.entries_ofList hkeys]
  | con name => rfl
  | app l r ihl ihr | func l r ihl ihr => rw [subst, instantiate, ihl, ihr]

theorem unfold_entry (hparams : (d.typeParams.map TypeParam.name).Nodup) {args : List Ty}
    (hlen : args.length = d.typeParams.length) : d.entry.unfold args = d.meaning args :=
  subst_ofList_zip hparams (by rw [hlen, List.length_map]) d.rhs

/-! ## Unfolding at once -/

/-- A type, applied to arguments in which synonyms have been unfolded already, with any number of
the synonyms in the type itself and of those that its spine makes up with the arguments unfolded at
once. -/
inductive Parallel (synonyms : List SynonymDecl) : Ty → List Ty → Ty → Prop
  | var (name : Name) (args : List Ty) : Parallel synonyms (var name) args (apply (var name) args)
  | con (name : Name) (args : List Ty) : Parallel synonyms (con name) args (apply (con name) args)
  | unfold {d : SynonymDecl} {args : List Ty} (hd : d ∈ synonyms)
      (hlen : args.length = d.typeParams.length)
      (extra : List Ty) : Parallel synonyms (con d.name) (args ++ extra)
      (apply (d.meaning args) extra)
  | app {l r r' t : Ty} {args : List Ty} (hr : Parallel synonyms r [] r')
      (hl : Parallel synonyms l (r' :: args) t) : Parallel synonyms (app l r) args t
  | func {l l' r r' : Ty} (hl : Parallel synonyms l [] l') (hr : Parallel synonyms r [] r')
    (args : List Ty) : Parallel synonyms (func l r) args (apply (func l' r') args)

variable {synonyms : List SynonymDecl}

namespace Parallel

variable {t : Ty} {args : List Ty}

/-- Nothing has to be rewritten. -/
theorem refl (t : Ty) (args : List Ty) : Parallel synonyms t args (Ty.apply t args) := by
  induction t generalizing args with
  | var name => exact .var name args
  | con name => exact .con name args
  | app l r ihl ihr => exact .app (ihr []) (ihl (r :: args))
  | func l r ihl ihr => exact .func (ihl []) (ihr []) args

/-- More arguments on the right stay as they are. -/
theorem extend (h : Parallel synonyms t args u) (extra : List Ty) :
    Parallel synonyms t (args ++ extra) (Ty.apply u extra) := by
  induction h with
  | var name args => rw [← apply_append]; exact .var name _
  | con name args => rw [← apply_append]; exact .con name _
  | unfold hd hlen more => rw [← apply_append, List.append_assoc]; exact .unfold hd hlen _
  | app hr _ _ ihl => exact .app hr ihl
  | func hl hr args => rw [← apply_append]; exact .func hl hr _

/-- Steps in the arguments come before the step in what is applied to them. -/
theorem after_args (hargs : List.Forall₂ (fun a a' => Parallel synonyms a [] a') args args')
    (h : Parallel synonyms t args' u) :
    Parallel synonyms (Ty.apply t args) [] u := by
  induction hargs generalizing t with
  | nil => exact h
  | cons ha _ ih => exact ih (.app ha h)

theorem apply_congr (ht : Parallel synonyms t [] t')
    (hargs : List.Forall₂ (fun a a' => Parallel synonyms a [] a') args args') :
    Parallel synonyms (Ty.apply t args) [] (Ty.apply t' args') :=
  after_args hargs (ht.extend args')

/-- Steps in the arguments are steps in what they are put into. -/
theorem instantiate {args args' : List Ty}
    (hargs : List.Forall₂ (fun a a' => Parallel synonyms a [] a') args args') (params : List Name)
    (t : Ty) : Parallel synonyms (t.instantiate params args) [] (t.instantiate params args') := by
  induction t with
  | var name =>
    unfold Ty.instantiate
    induction hargs generalizing params with
    | nil => exact refl _ []
    | @cons a a' _ _ ha _ ih =>
      cases params with
      | nil => exact refl _ []
      | cons p params =>
        simp only [List.zip_cons_cons, List.lookup_cons]
        cases name == p with
        | true => exact ha
        | false => exact ih params
  | con name => exact refl _ []
  | app l r ihl ihr => exact .app ihr (ihl.extend _)
  | func l r ihl ihr => exact .func ihl ihr []

end Parallel

/-- A synonym is found by its name. -/
theorem synonymNamed?_entry (hnames : (synonyms.map SynonymDecl.name).Nodup) (hd : d ∈ synonyms) :
    synonymNamed? (synonyms.map SynonymDecl.entry) d.name = some d.entry := by
  have hmem : d.entry ∈ synonyms.map SynonymDecl.entry := List.mem_map_of_mem hd
  obtain ⟨syn, hfound⟩ := Option.ne_none_iff_exists'.mp (synonymNamed?_ne_none hmem)
  obtain ⟨hsyn, hname⟩ := synonymNamed?_some hfound
  obtain ⟨e, he, rfl⟩ := List.mem_map.mp hsyn
  rw [← List.inj_on_of_nodup_map hnames he hd hname] at hfound ⊢
  exact hfound

/-- A synonym with enough arguments is unfolded with the first ones. -/
theorem expandOnto_entry (hnames : (synonyms.map SynonymDecl.name).Nodup) (hd : d ∈ synonyms)
    (hparams : (d.typeParams.map TypeParam.name).Nodup) {args : List Ty}
    (hle : d.typeParams.length ≤ args.length) :
    (con d.name).expandOnto (synonyms.map SynonymDecl.entry) SynonymEntry.unfold args
      = apply (d.meaning (args.take d.typeParams.length)) (args.drop d.typeParams.length) := by
  have hcount : d.entry.typeParams.length = d.typeParams.length := by
    rw [SynonymDecl.entry, List.length_map]
  unfold expandOnto
  rw [show (synonyms.map SynonymDecl.entry).find? (·.name = d.name) =
    some d.entry from synonymNamed?_entry hnames hd]
  simp only
  rw [hcount, if_pos hle, unfold_entry hparams (by rw [List.length_take, Nat.min_eq_left hle])]

/-- One level of an expansion is a parallel step of a synonym, too. -/
theorem Parallel.expandOnto_con (hnames : (synonyms.map SynonymDecl.name).Nodup)
    (hparams : ∀ d ∈ synonyms, (d.typeParams.map TypeParam.name).Nodup) (name : Name)
    (args : List Ty) :
    Parallel synonyms (.con name) args
      ((Ty.con name).expandOnto (synonyms.map SynonymDecl.entry) SynonymEntry.unfold args) := by
  by_cases hunfolds : ∃ d ∈ synonyms, d.name = name ∧ d.typeParams.length ≤ args.length
  · obtain ⟨d, hd, rfl, hle⟩ := hunfolds
    rw [expandOnto_entry hnames hd (hparams d hd) hle]
    have hstep := Parallel.unfold hd (by rw [List.length_take, Nat.min_eq_left hle])
      (args.drop d.typeParams.length)
    rwa [List.take_append_drop] at hstep
  · unfold expandOnto
    split
    · next syn hfind =>
      obtain ⟨hsyn, rfl⟩ := synonymNamed?_some hfind
      obtain ⟨d, hd, rfl⟩ := List.mem_map.mp hsyn
      have hfew : ¬ d.entry.typeParams.length ≤ args.length := by
        rw [SynonymDecl.entry, List.length_map]
        exact fun hle => hunfolds ⟨d, hd, rfl, hle⟩
      rw [if_neg hfew]
      exact .con d.entry.name args
    · exact .con name args

/-- **One level of an expansion can be reached from every parallel step**, as it unfolds all that
there is to unfold. -/
theorem Parallel.complete (hnames : (synonyms.map SynonymDecl.name).Nodup)
    (hparams : ∀ d ∈ synonyms, (d.typeParams.map TypeParam.name).Nodup) {t : Ty} {args : List Ty}
    (h : Parallel synonyms t args u)
    (hargs : List.Forall₂ (fun a a' => Parallel synonyms a [] a') args args') :
    Parallel synonyms u []
      (t.expandOnto (synonyms.map SynonymDecl.entry) SynonymEntry.unfold args') := by
  induction h generalizing args' with
  | var name args => exact after_args hargs (.var name args')
  | con name args => exact after_args hargs (expandOnto_con hnames hparams name args')
  | @unfold d args hd hlen extra =>
    -- the synonym is unfolded with the same number of arguments after they have been rewritten
    have hused := List.forall₂_take d.typeParams.length hargs
    have hrest := List.forall₂_drop d.typeParams.length hargs
    rw [← hlen, List.take_left, hlen] at hused
    rw [← hlen, List.drop_left, hlen] at hrest
    have hle : d.typeParams.length ≤ args'.length := by
      rw [← hargs.length_eq, List.length_append, hlen]
      exact Nat.le_add_right _ _
    rw [expandOnto_entry hnames hd (hparams d hd) hle]
    exact apply_congr (Parallel.instantiate hused _ d.rhs) hrest
  | app hr _ ihr ihl => exact ihl (.cons (ihr .nil) hargs)
  | func _ _ args ihl ihr => exact apply_congr (.func (ihl .nil) (ihr .nil) []) hargs

/-! ## Confluence -/

theorem apply_rewrites {t : Ty} (h : Rewrites synonyms t t') (args : List Ty) :
    Rewrites synonyms (apply t args) (apply t' args) := by
  induction args generalizing t t' with
  | nil => exact h
  | cons a rest ih => exact ih (.fn h a)

theorem head_rewrites {t : Ty} (h : ReflTransGen (Rewrites synonyms) t t') (args : List Ty) :
    ReflTransGen (Rewrites synonyms) (apply t args) (apply t' args) :=
  h.lift (apply · args) fun _ _ hstep => apply_rewrites hstep args

theorem arg_rewrites (l : Ty) {r r' : Ty} (h : ReflTransGen (Rewrites synonyms) r r')
    (args : List Ty) :
    ReflTransGen (Rewrites synonyms) (apply (app l r) args) (apply (app l r') args) :=
  head_rewrites (h.lift (app l) fun _ _ hstep => .arg l hstep) args

theorem func_rewrites {l l' r r' : Ty} (hl : ReflTransGen (Rewrites synonyms) l l')
    (hr : ReflTransGen (Rewrites synonyms) r r') (args : List Ty) :
    ReflTransGen (Rewrites synonyms) (apply (func l r) args) (apply (func l' r') args) := by
  have hdom : ReflTransGen (Rewrites synonyms) (func l r) (func l' r) :=
    hl.lift (func · r) fun _ _ hstep => .dom hstep r
  have hcod : ReflTransGen (Rewrites synonyms) (func l' r) (func l' r') :=
    hr.lift (func l') fun _ _ hstep => .cod l' hstep
  exact head_rewrites (hdom.trans hcod) args

/-- A step is a parallel step. -/
theorem Rewrites.parallel {t : Ty} (h : Rewrites synonyms t u) : Parallel synonyms t [] u := by
  induction h with
  | @unfold d args hd hlen =>
    have hstep := Parallel.unfold hd hlen []
    rw [List.append_nil] at hstep
    exact hstep.after_args (List.forall₂_same.mpr fun a _ => Parallel.refl a [])
  | fn _ r ih => exact .app (Parallel.refl r []) (ih.extend [r])
  | arg l _ ih => exact .app ih (Parallel.refl l _)
  | dom _ r ih => exact .func ih (Parallel.refl r []) []
  | cod l _ ih => exact .func (Parallel.refl l []) ih []

/-- A parallel step is a sequence of steps. -/
theorem Parallel.rewrites {t : Ty} {args : List Ty} (h : Parallel synonyms t args u) :
    ReflTransGen (Rewrites synonyms) (Ty.apply t args) u := by
  induction h with
  | var name args => exact .refl
  | con name args => exact .refl
  | unfold hd hlen extra =>
    rw [apply_append]
    exact .single (apply_rewrites (.unfold hd hlen) extra)
  | app _ _ ihr ihl => exact (arg_rewrites _ ihr _).trans ihl
  | func _ _ args ihl ihr => exact func_rewrites ihl ihr args

theorem rewrites_of_parallel {t : Ty} (h : ReflTransGen (fun x y => Parallel synonyms x [] y) t u) :
    ReflTransGen (Rewrites synonyms) t u := by
  induction h with
  | refl => exact .refl
  | tail _ hstep ih => exact ih.trans hstep.rewrites

/-- What one type is rewritten to in two ways can be rewritten to one type again. -/
theorem confluent (hnames : (synonyms.map SynonymDecl.name).Nodup)
    (hparams : ∀ d ∈ synonyms, (d.typeParams.map TypeParam.name).Nodup) {t v : Ty}
    (hu : ReflTransGen (Rewrites synonyms) t u) (hv : ReflTransGen (Rewrites synonyms) t v) :
    Join (ReflTransGen (Rewrites synonyms)) u v := by
  have hdiamond : ∀ a b c : Ty, Parallel synonyms a [] b → Parallel synonyms a [] c →
      ∃ d, ReflGen (fun x y => Parallel synonyms x [] y) b d ∧
        ReflTransGen (fun x y => Parallel synonyms x [] y) c d :=
    fun a b c hb hc =>
      ⟨_, .single (hb.complete hnames hparams .nil), .single (hc.complete hnames hparams .nil)⟩
  obtain ⟨w, huw, hvw⟩ := church_rosser hdiamond (hu.lift id fun _ _ hstep => hstep.parallel)
    (hv.lift id fun _ _ hstep => hstep.parallel)
  exact ⟨w, rewrites_of_parallel huw, rewrites_of_parallel hvw⟩

/-- A normal form is not rewritten any more. -/
theorem Normal.eq_of_rewrites {t : Ty} (ht : t.Normal synonyms)
    (h : ReflTransGen (Rewrites synonyms) t u) : t = u := by
  rcases h.cases_head with rfl | ⟨v, hstep, _⟩
  · rfl
  · exact absurd hstep (ht v)

/-- A normal form that can be reached is the only one. -/
theorem isNormalForm_of_reached (hnames : (synonyms.map SynonymDecl.name).Nodup)
    (hparams : ∀ d ∈ synonyms, (d.typeParams.map TypeParam.name).Nodup) {t : Ty}
    (hreached : ReflTransGen (Rewrites synonyms) t u) (hnormal : u.Normal synonyms) :
    IsNormalForm synonyms t u where
  reached := hreached
  normal := hnormal
  unique := by
    intro v hv hvnormal
    obtain ⟨w, huw, hvw⟩ := confluent hnames hparams hreached hv
    rw [hvnormal.eq_of_rewrites hvw, hnormal.eq_of_rewrites huw]

/-- A type that mentions no synonym is normal. -/
theorem normal_of_notMem {t : Ty} (h : ∀ d ∈ synonyms, d.name ∉ t.conOccs) : t.Normal synonyms := by
  intro u hstep
  induction hstep with
  | @unfold d args hd _ => exact h d hd (by simp [conOccs_apply, conOccs])
  | fn _ r ih | dom _ r ih => exact ih fun d hd hmem => h d hd (List.mem_append.mpr (.inl hmem))
  | arg l _ ih | cod l _ ih => exact ih fun d hd hmem => h d hd (List.mem_append.mpr (.inr hmem))

/-! ## Expansions -/

/-- One level of an expansion rewrites, if what the synonyms are unfolded to does. -/
theorem rewrites_expandOnto {unfolded : SynonymEntry → List Ty → Ty}
    (hunfolded : ∀ syn ∈ available, ∀ args, args.length = syn.typeParams.length →
      ReflTransGen (Rewrites synonyms) (apply (con syn.name) args) (unfolded syn args)) (t : Ty)
        (args : List Ty) :
    ReflTransGen (Rewrites synonyms) (apply t args) (t.expandOnto available unfolded args) := by
  induction t generalizing args with
  | var name => exact .refl
  | con name =>
    unfold expandOnto
    split
    · next syn hfind =>
      obtain ⟨hsyn, rfl⟩ := synonymNamed?_some hfind
      split
      · next hle =>
        have hhead := hunfolded syn hsyn (args.take syn.typeParams.length)
          (by rw [List.length_take, Nat.min_eq_left hle])
        have hall := head_rewrites hhead (args.drop syn.typeParams.length)
        rwa [← apply_append, List.take_append_drop] at hall
      · exact .refl
    · exact .refl
  | app l r ihl ihr => exact (arg_rewrites l (ihr []) args).trans (ihl (_ :: args))
  | func l r ihl ihr => exact func_rewrites (ihl []) (ihr []) args

/-- **Expansion rewrites.** -/
theorem rewrites_expandWithin (hparams : ∀ d ∈ synonyms, (d.typeParams.map TypeParam.name).Nodup)
    (depth : Nat) (hsub : ∀ syn ∈ available, ∃ d ∈ synonyms, syn = d.entry) (t : Ty) :
    ReflTransGen (Rewrites synonyms) t (t.expandWithin depth available) := by
  induction depth generalizing available t with
  | zero => exact .refl
  | succ depth ih =>
    refine rewrites_expandOnto (fun syn hsyn args hlen => ?_) t []
    obtain ⟨d, hd, rfl⟩ := hsub syn hsyn
    have hcount : args.length = d.typeParams.length := by
      rw [hlen, SynonymDecl.entry, List.length_map]
    refine .head (.unfold hd hcount) ?_
    rw [← unfold_entry (hparams d hd) hcount]
    exact ih (fun other hother => hsub other (List.mem_filter.mp hother).1) _

/-- An expansion is a sequence of unfoldings. -/
theorem rewrites_expand (hparams : ∀ d ∈ synonyms, (d.typeParams.map TypeParam.name).Nodup)
    (hsub : ∀ syn ∈ available, ∃ d ∈ synonyms, syn = d.entry) (t : Ty) :
    ReflTransGen (Rewrites synonyms) t (t.expand available) :=
  rewrites_expandWithin hparams available.length hsub t

end Ty

/-! ## Recursive components -/

theorem Environment.get?_addDatas_of_notMem {datas : List DataDecl} {name : Name}
    (h : name ∉ datas.map DataDecl.name) (env : Environment) :
    (datas.foldl Environment.addData env).types.get? name = env.types.get? name := by
  induction datas generalizing env with
  | nil => rfl
  | cons d rest ih =>
    rw [List.map_cons, List.mem_cons, not_or] at h
    rw [List.foldl_cons, ih h.2, addData, types_addType, types_foldl_addValue, Table.get?_insert]
    exact if_neg (Ne.symm h.1)

namespace TypeGroup

/-- A data type whose fields are expanded to types without synonyms has its fields in normal
form. -/
theorem normalizes_expandFields {synonyms : List SynonymDecl}
    (hnames : (synonyms.map SynonymDecl.name).Nodup)
    (hparams : ∀ d ∈ synonyms, (d.typeParams.map TypeParam.name).Nodup)
    {available : List SynonymEntry}
    (hsub : ∀ syn ∈ available, ∃ d ∈ synonyms, syn = d.entry) {d : DataDecl}
    (hgone : ∀ c ∈ d.constructors, ∀ t ∈ c.fields, ∀ syn ∈ synonyms,
      syn.name ∉ (t.expand available).conOccs) :
    d.Normalizes synonyms (expandFields (Ty.expand available) d) where
  name := rfl
  typeParams := rfl
  span := rfl
  constructors := by
    refine List.forall₂_map_right_iff.mpr (List.forall₂_same.mpr fun c hc => ⟨rfl, rfl, ?_⟩)
    refine List.forall₂_map_right_iff.mpr (List.forall₂_same.mpr fun t ht => ?_)
    exact Ty.isNormalForm_of_reached hnames hparams (Ty.rewrites_expand hparams hsub t)
      (Ty.normal_of_notMem (hgone c hc t ht))

/-- **The data types of a recursive component have their fields in normal form.** If a component
whose synonyms always stand with all their arguments is converted, then its first sentence holds its
data types, where each field is the normal form of the field as declared under the component's own
synonyms, and mentions none of them; all else in a data type is as declared. The synonyms follow as
declared, and other types stay registered as they were. -/
theorem recursive_normalForms (decls : List TypeDecl) (hnames : (decls.map TypeDecl.name).Nodup)
    (hparams : ∀ d ∈ synonymDecls decls, (d.typeParams.map TypeParam.name).Nodup)
    (hsat : ∀ d ∈ decls, d.Saturated (synonymArity decls)) (s s' : Session)
    (sentences : List Sentence) (h : toSentences (.recursive decls) s = .ok sentences s') :
    ∃ expanded, sentences = .dataTypes expanded :: (synonymDecls decls).map .synonym ∧
      List.Forall₂ (DataDecl.Normalizes (synonymDecls decls)) (dataDecls decls) expanded ∧
      (∀ d ∈ expanded, ∀ c ∈ d.constructors, ∀ t ∈ c.fields, ∀ syn ∈ synonymDecls decls,
        syn.name ∉ t.conOccs) ∧
      ∀ name ∉ decls.map TypeDecl.name, s'.env.types.get? name = s.env.types.get? name := by
  obtain ⟨hacyclic, expanded, hexpanded, rfl, henv'⟩ := recursiveToSentences_ok h
  have hsyn := nodup_synonymDecls hnames
  -- no synonym is left, so the expanded fields are normal forms
  have hgone : ∀ d ∈ expanded, ∀ c ∈ d.constructors, ∀ t ∈ c.fields, ∀ syn ∈ synonymDecls decls,
      syn.name ∉ t.conOccs := by
    intro d hd c hc t ht syn hsynonym hmem
    have hmention : syn.name ∈ (Sentence.dataTypes expanded).mentionedTypes :=
      List.mem_flatMap.mpr ⟨d, hd, List.mem_flatMap.mpr ⟨c, hc, List.mem_flatMap.mpr ⟨t, ht, hmem⟩⟩⟩
    rw [hexpanded] at hmention
    exact (mentioned_of_recursive hnames (fun _ hd => hd) hnames hsat hacyclic hmention).1
      (List.mem_map_of_mem hsynonym)
  refine ⟨expanded, rfl, ?_, hgone, fun name hname => ?_⟩
  · subst hexpanded
    refine List.forall₂_map_right_iff.mpr (List.forall₂_same.mpr fun d hd => ?_)
    refine normalizes_expandFields hsyn hparams
      (fun syn hmem => (Environment.mem_local_synonyms hsyn).mp hmem) fun c hc t ht => ?_
    exact hgone _ (List.mem_map_of_mem hd) _ (List.mem_map_of_mem hc) _ (List.mem_map_of_mem ht)
  · -- all that is registered are the types of the component
    have hdatas : name ∉ expanded.map DataDecl.name := by
      rw [hexpanded, List.map_map]
      intro hmem
      obtain ⟨d, hd, rfl⟩ := List.mem_map.mp hmem
      exact hname (List.mem_map_of_mem (mem_dataDecls.mp hd))
    have hsynonyms : name ∉ (synonymDecls decls).map SynonymDecl.name := by
      intro hmem
      obtain ⟨d, hd, rfl⟩ := List.mem_map.mp hmem
      exact hname (List.mem_map_of_mem (mem_synonymDecls.mp hd))
    rw [henv', Environment.get?_addDatas_of_notMem hdatas,
      Environment.get?_addSynonyms_of_notMem hsynonyms]

/-- `type Kids a = List (Rose a)`, `type Grid a = Kids (Kids a)` and
`data Rose a = MkRose a (Grid (Pair a))`: synonyms of synonyms, one of them in its own argument,
around a type from elsewhere. -/
def nestedKids : List TypeDecl :=
  [.synonym
    { name := "Kids", typeParams := [{ name := "a" }]
      rhs := .app (.con "List") (.app (.con "Rose") (.var "a")) },
    .synonym
      { name := "Grid", typeParams := [{ name := "a" }]
        rhs := .app (.con "Kids") (.app (.con "Kids") (.var "a")) },
    .data
      { name := "Rose", typeParams := [{ name := "a" }]
        constructors :=
          [{ name := "MkRose"
             fields := [.var "a", .app (.con "Grid") (.app (.con "Pair") (.var "a"))] }] }]

/-- The second field of `MkRose` comes out as `List (Rose (List (Rose (Pair a))))`. -/
theorem nestedKids_normalForms :
    ∃ rose s', toSentences (.recursive nestedKids) {}
        = .ok (.dataTypes [rose] :: (synonymDecls nestedKids).map .synonym) s' ∧
      rose.constructors.flatMap Constructor.fields =
        [.var "a", .app (.con "List") (.app (.con "Rose")
        (.app (.con "List") (.app (.con "Rose") (.app (.con "Pair") (.var "a")))))] ∧
      List.Forall₂ (DataDecl.Normalizes (synonymDecls nestedKids))
        (dataDecls nestedKids) [rose] := by
  have hsat : ∀ d ∈ nestedKids, d.Saturated (synonymArity nestedKids) := by
    simp [nestedKids, TypeDecl.Saturated, Ty.Saturated, synonymArity, synonymDecls]
  refine ⟨_, _, rfl, rfl, ?_⟩
  obtain ⟨expanded, hsentences, hnormal, _⟩ :=
    recursive_normalForms nestedKids (by decide) (by decide) hsat {} _ _ rfl
  rw [← Sentence.dataTypes.inj (List.cons.inj hsentences).1] at hnormal
  exact hnormal

end TypeGroup

end StructRec
