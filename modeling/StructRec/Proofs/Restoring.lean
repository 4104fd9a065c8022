import StructRec.Proofs.Pairings
import StructRec.Proofs.Unfolding

/-!
# StructRec — calls that stand for right-hand sides

A function that is applied to types and variables for all of its parameters stands for its
right-hand side, with the variables for the parameters. `Nameless.Restores` relates a term to the
one in which all such calls have been put back; any other reference to one of the functions is left
out of it. Terms are seen without bound names, so an argument may be the variable of a binder
outside of the term (`Nameless.Variable`).
-/

namespace StructRec

/-- The variables decide what two changes of types in a row do. -/
theorem Ty.subst_subst_eq {s s' s'' : Table Ty} (ty : Ty)
    (h : ∀ a ∈ ty.varOccs, ((var a).subst s).subst s' = (var a).subst s'') :
    (ty.subst s).subst s' = ty.subst s'' := by
  induction ty with
  | var a => exact h a (List.mem_singleton.mpr rfl)
  | con name => rfl
  | app l r ihl ihr =>
    rw [varOccs, List.forall_mem_append] at h
    exact congrArg₂ app (ihl h.1) (ihr h.2)
  | func l r ihl ihr =>
    rw [varOccs, List.forall_mem_append] at h
    exact congrArg₂ func (ihl h.1) (ihr h.2)

namespace Nameless

variable {ty : Ty} {types : List Ty} {f : Name}

/-! ## Arguments for parameters -/

/-- A variable as an argument. -/
inductive Variable where
  /-- The variable of a binder around the call. -/
  | bound (index : Nat)
  | free (name : Name)

namespace Variable

/-- The variable under so many more binders. -/
def term (depth : Nat) : Variable → Nameless
  | bound i => .bound (depth + i)
  | free n => .free n

/-- The variable where names are bound. -/
def capture (names : List Name) (depth : Nat) : Variable → Variable
  | bound i => bound i
  | free n =>
    match binderIndex? n names with
    | some i => bound (depth + i)
    | none => free n

/-- Capturing a variable, further inside. -/
theorem term_capture (v : Variable) (names : List Name) (depth inner : Nat) :
    (v.term inner).capture names (depth + inner) = (v.capture names depth).term inner := by
  cases v with
  | bound i => rfl
  | free n =>
    change captureVar names (depth + inner) n = (Variable.capture names depth (free n)).term inner
    rw [captureVar, capture]
    cases binderIndex? n names with
    | some i => exact congrArg Nameless.bound (by omega)
    | none => rfl

/-- What is a variable with names captured was one before. -/
theorem exists_of_capture {t : Nameless} {v : Variable} {names : List Name} {depth : Nat}
    (h : t.capture names depth = v.term 0) :
    ∃ w : Variable, t = w.term 0 ∧ w.capture names depth = v := by
  cases t with
  | bound i =>
    cases v with
    | bound j =>
      refine ⟨bound i, congrArg Nameless.bound (Nat.zero_add i).symm, congrArg bound ?_⟩
      rw [← Nat.zero_add j]
      exact Nameless.bound.inj h
    -- a free variable is captured by one of the names, or stays free
    | free n => cases h
  | free n =>
    refine ⟨free n, rfl, ?_⟩
    have hterm := (term_capture (free n) names depth 0).symm.trans h
    revert hterm
    cases (free n).capture names depth <;> cases v <;> intro hterm
    · exact congrArg bound (by simpa using Nameless.bound.inj hterm)
    · cases hterm
    · cases hterm
    · exact congrArg free (Nameless.free.inj hterm)
  | typeApp fn ty => cases v <;> cases h
  | node former parts => cases v <;> cases h

end Variable

section

variable {α : Type} {n m : Name} {params params' : List Name} {args : List α}

/-- The argument for a parameter; of several parameters of one name the last one counts. -/
def argument? (n : Name) : List Name → List α → Option α
  | p :: params, a :: args => (argument? n params args).or (if p = n then some a else none)
  | _, _ => none

theorem argument?_of_notMem (h : n ∉ params) (args : List α) : argument? n params args = none := by
  induction params generalizing args with
  | nil => rfl
  | cons p params ih =>
    rw [List.mem_cons, not_or] at h
    cases args with
    | nil => rfl
    | cons a args => rw [argument?, ih h.2, if_neg (Ne.symm h.1), Option.none_or]

theorem argument?_cons_of_ne {p : Name} (h : p ≠ n) (a : α) :
    argument? n (p :: params) (a :: args) = argument? n params args := by
  rw [argument?, if_neg h, Option.or_none]

theorem argument?_cons_self (h : n ∉ params) (a : α) :
    argument? n (n :: params) (a :: args) = some a := by
  rw [argument?, argument?_of_notMem h, if_pos rfl, Option.none_or]

/-- Arguments are counted as binders are, from the last. -/
theorem argument?_eq_bind (h : args.length = params.length) :
    argument? n params args = (binderIndex? n params).bind (args.reverse[·]?) := by
  induction params generalizing args with
  | nil => rfl
  | cons p params ih =>
    cases args with
    | nil => cases h
    | cons a args =>
      have hlength : args.length = params.length := Nat.succ.inj h
      rw [argument?, ih hlength, binderIndex?, List.reverse_cons]
      -- a later parameter of the same name comes first
      cases hindex : binderIndex? n params with
      | some i =>
        have hlt : i < args.reverse.length := by
          rw [List.length_reverse, hlength]
          exact binderIndex?_lt hindex
        simp only [Option.some_or, Option.bind_some, List.getElem?_append_left hlt,
          List.getElem?_eq_getElem hlt]
      | none =>
        split
        · simp [← hlength]
        · rfl

/-- Parameters in the same place have the same argument. -/
theorem argument?_congr (hindex : binderIndex? m params' = binderIndex? n params)
    (hlength' : args.length = params'.length) (hlength : args.length = params.length) :
    argument? m params' args = argument? n params args := by
  rw [argument?_eq_bind hlength', argument?_eq_bind hlength, hindex]

/-- Every parameter has an argument. -/
theorem exists_argument (h : n ∈ params) (hlength : args.length = params.length) :
    ∃ a, argument? n params args = some a := by
  obtain ⟨i, hindex⟩ := exists_binderIndex h
  have hlt : i < args.reverse.length := by
    rw [List.length_reverse, hlength]
    exact binderIndex?_lt hindex
  exact ⟨_, (argument?_eq_bind hlength).trans
    (by rw [hindex, Option.bind_some, List.getElem?_eq_getElem hlt])⟩

/-- A table of parameters with arguments looks up the last one too. -/
theorem get?_ofList_zip (params : List Name) (args : List α) (n : Name) :
    (Table.ofList (params.zip args)).get? n = argument? n params args := by
  rw [Table.get?_ofList]
  induction params generalizing args with
  | nil => rfl
  | cons p params ih =>
    cases args with
    | nil => rfl
    | cons a args =>
      rw [argument?, ← ih, List.zip_cons_cons, List.reverse_cons, List.find?_append]
      cases (params.zip args).reverse.find? (·.1 = n) with
      | some entry => rfl
      | none =>
        by_cases h : p = n
        · simp [h]
        · simp [h]

end

/-- What a variable becomes where parameters get arguments. -/
def fill (params : List Name) (args : List Variable) (depth : Nat) (n : Name) : Nameless :=
  ((argument? n params args).map (Variable.term depth)).getD (free n)

/-- What a type becomes where type parameters get types. -/
def fillTy (params : List Name) (types : List Ty) (ty : Ty) : Ty :=
  ty.subst (Table.ofList (params.zip types))

/-- Put types for type parameters and variables for parameters. -/
def supply (typeParams : List Name) (types : List Ty) (params : List Name) (args : List Variable)
    (t : Nameless) : Nameless :=
  t.mapFree (fill params args) (fillTy typeParams types) 0

theorem fill_of_notMem {params : List Name} {n : Name} (h : n ∉ params) (args : List Variable)
    (depth : Nat) : fill params args depth n = free n := by
  rw [fill, argument?_of_notMem h]
  rfl

/-- Parameters that stand for themselves. -/
theorem fill_self (params : List Name) (depth : Nat) (n : Name) :
    fill params (params.map .free) depth n = free n := by
  induction params with
  | nil => rfl
  | cons p params ih =>
    rw [fill] at ih ⊢
    rw [List.map_cons, argument?]
    cases hlater : argument? n params (params.map Variable.free) with
    | some v => rwa [hlater] at ih
    | none =>
      rw [Option.none_or]
      split
      · next heq => exact congrArg free heq
      · rfl

theorem fillTy_var (params : List Name) (types : List Ty) (a : Name) :
    fillTy params types (.var a) = (argument? a params types).getD (.var a) := by
  rw [fillTy, Ty.subst, get?_ofList_zip]

theorem fillTy_of_disjoint {params : List Name} (h : ∀ a ∈ ty.varOccs, a ∉ params)
    (types : List Ty) : fillTy params types ty = ty := by
  have hsubst : ty.subst (Table.ofList (params.zip types)) = ty.subst {} :=
    Ty.subst_congr ty fun a ha => by
      rw [get?_ofList_zip, argument?_of_notMem (h a ha)]
      rfl
  rw [fillTy, hsubst, Ty.subst_empty]

theorem supply_nil (t : Nameless) : supply [] [] [] [] t = t :=
  (mapFree_congr (fun _ _ _ => rfl) fun ty _ => Ty.subst_empty ty).trans (mapFree_self t 0)

/-- An argument for the first parameter. The argument is not mistaken for one of the other
parameters. -/
theorem supply_value {typeParams : List Name} {params : List Name} {p x : Name} (hp : p ∉ params)
    (hx : x ∉ params) (args : List Variable) (t : Nameless) :
    supply typeParams types params args (t.subst (fun n => if p = n then free x else free n) id)
      = supply typeParams types (p :: params) (.free x :: args) t := by
  rw [supply, supply, subst, mapFree_mapFree]
  refine mapFree_congr (fun n _ depth => ?_) fun _ _ => rfl
  by_cases heq : p = n
  · subst heq
    rw [if_pos rfl, fill, argument?_cons_self hp]
    exact fill_of_notMem hx args depth
  · rw [if_neg heq, fill, argument?_cons_of_ne heq]
    rfl

/-- A type for the first type parameter. -/
theorem supply_type {typeParams : List Name} {params : List Name} {args : List Variable} {a : Name}
    (ha : a ∉ typeParams) (hty : ∀ b ∈ ty.varOccs, b ∉ typeParams) (t : Nameless) :
    supply typeParams types params args (t.subst free (Subst.singleType a ty).applyTy)
      = supply (a :: typeParams) (ty :: types) params args t := by
  rw [supply, supply, subst, mapFree_mapFree]
  refine mapFree_congr (fun _ _ _ => rfl) fun τ _ => Ty.subst_subst_eq τ fun b _ => ?_
  have hget : ((Subst.singleType a ty).types).get? b = if a = b then some ty else none :=
    Table.get?_insert _ _ _ _
  change fillTy typeParams types (((Subst.singleType a ty).types.get? b).getD (.var b)) =
    fillTy _ _ (.var b)
  rw [hget, fillTy_var]
  by_cases heq : a = b
  · subst heq
    rw [if_pos rfl, argument?_cons_self ha]
    exact fillTy_of_disjoint hty types
  · rw [if_neg heq, argument?_cons_of_ne heq]
    exact fillTy_var typeParams types b

/-- Type parameters that stand for themselves. -/
theorem fillTy_self (params : List TypeParam) (ty : Ty) :
    fillTy (params.map TypeParam.name) (params.map TypeParam.toTy) ty = ty := by
  -- a parameter stands for itself, also where one of the same name comes later
  have hself : ∀ a, (argument? a (params.map TypeParam.name) (params.map TypeParam.toTy)).getD
      (.var a) = .var a := by
    intro a
    induction params with
    | nil => rfl
    | cons p params ih =>
      rw [List.map_cons, List.map_cons]
      by_cases heq : p.name = a
      · rw [argument?, if_pos heq]
        cases hrest : argument? a (params.map TypeParam.name) (params.map TypeParam.toTy) with
        | none => exact congrArg Ty.var heq
        | some ty =>
          rw [hrest] at ih
          exact ih
      · rw [argument?_cons_of_ne heq]
        exact ih
  induction ty with
  | var a => rw [fillTy_var, hself]
  | con name => rfl
  | app l r ihl ihr => exact congrArg₂ Ty.app ihl ihr
  | func l r ihl ihr => exact congrArg₂ Ty.func ihl ihr

/-- What is done to free variables from some depth on. -/
theorem mapFree_add (f : Nat → Name → Nameless) (g : Ty → Ty) (t : Nameless) (outer depth : Nat) :
    t.mapFree f g (outer + depth) = t.mapFree (fun depth n => f (outer + depth) n) g depth := by
  induction t generalizing depth with
  | bound i => rfl
  | free n => rfl
  | typeApp fn ty ih => exact congrArg (typeApp · (g ty)) (ih depth)
  | node former parts ih =>
    rw [mapFree_node, mapFree_node]
    congr 1
    refine List.map_congr_left fun part hpart => congrArg (Prod.mk part.1) ?_
    rw [Nat.add_assoc]
    exact ih part hpart _

/-- Binding names after arguments have been put in is binding the names of the arguments. -/
theorem capture_fill {t : Nameless} {params names : List Name} {args : List Variable}
    (h : ∀ n ∈ t.freeNames, n ∉ params → n ∉ names) (hlength : args.length = params.length)
    (depth : Nat) :
    (t.mapFree (fill params args) id 0).capture names depth
      = t.mapFree (fill params (args.map (Variable.capture names depth))) id 0 := by
  rw [capture, ← Nat.add_zero depth, mapFree_add, mapFree_mapFree]
  refine mapFree_congr (fun n hn inner => ?_) fun _ _ => rfl
  rw [← mapFree_add]
  change (fill params args inner n).capture names (depth + inner) = _
  -- a parameter gets a captured argument; other names are not captured
  by_cases hparam : n ∈ params
  · have hmap : argument? n params (args.map (Variable.capture names (depth + 0)))
        = (argument? n params args).map (Variable.capture names depth) := by
      rw [argument?_eq_bind hlength, argument?_eq_bind (by rwa [List.length_map]),
        ← List.map_reverse]
      cases binderIndex? n params with
      | none => rfl
      | some i => exact List.getElem?_map
    obtain ⟨i, hindex⟩ := exists_binderIndex hparam
    rw [fill, fill, hmap, argument?_eq_bind hlength, hindex]
    have hlt : i < args.reverse.length := by
      rw [List.length_reverse, hlength]
      exact binderIndex?_lt hindex
    simp only [Option.bind_some, List.getElem?_eq_getElem hlt, Option.map_some, Option.getD_some]
    exact Variable.term_capture _ names depth inner
  · rw [fill_of_notMem hparam, fill_of_notMem hparam]
    exact captureVar_of_notMem (h n hn hparam) _

/-! ## Calls -/

/-- A function is applied to types, and then to variables. -/
inductive Applied (f : Name) : List Ty → List Variable → Nameless → Prop
  | head : Applied f [] [] (free f)
  | type {types : List Ty} {t : Nameless} (ty : Ty) (h : Applied f types [] t) :
      Applied f (types ++ [ty]) [] (typeApp t ty)
  | value {types : List Ty} {args : List Variable} {t : Nameless} (arg : Variable)
    (h : Applied f types args t) : Applied f types (args ++ [arg]) (app t (arg.term 0))

theorem Applied.mem_freeNames {args : List Variable} {t : Nameless} (h : Applied f types args t) :
    f ∈ t.freeNames := by
  induction h with
  | head => exact List.mem_singleton.mpr rfl
  | type ty _ ih => exact ih
  | value arg _ ih => exact List.mem_append_left _ ih

/-- The free variables of a call are the function and its arguments. -/
theorem Applied.freeNames {x : Name} {args : List Variable} {t : Nameless}
    (h : Applied f types args t) (hx : x ∈ t.freeNames) : x = f ∨ .free x ∈ args := by
  induction h with
  | head => exact .inl (List.mem_singleton.mp hx)
  | type ty _ ih => exact ih hx
  | value arg _ ih =>
    rw [app, freeNames_node, List.flatMap_cons, List.flatMap_singleton, List.mem_append] at hx
    rcases hx with hx | hx
    · exact (ih hx).imp_right (List.mem_append_left _)
    · cases arg with
      | bound i => cases hx
      | free n =>
        obtain rfl := List.mem_singleton.mp hx
        exact .inr (List.mem_append_right _ List.mem_cons_self)

/-- Binders may capture the arguments of a call, but not its head. -/
theorem Applied.capture {args : List Variable} {t : Nameless} {names : List Name}
    (h : Applied f types args t) (hf : f ∉ names) (depth : Nat) :
    Applied f types (args.map (Variable.capture names depth)) (t.capture names depth) := by
  induction h with
  | head =>
    change Applied f [] [] (captureVar names depth f)
    rw [captureVar_of_notMem hf]
    exact .head
  | type ty _ ih => exact .type ty ih
  | @value _ args t arg _ ih =>
    rw [List.map_append]
    have hnode : (app t (arg.term 0)).capture names depth
        = app (t.capture names depth) ((arg.capture names depth).term 0) := by
      rw [← Variable.term_capture]
      exact capture_node
    rw [hnode]
    exact .value _ ih

section

variable {t : Nameless} {names : List Name} {depth : Nat}

/-- What is free after a capture was free before. -/
theorem exists_of_capture_free (h : t.capture names depth = free f) : t = free f ∧ f ∉ names := by
  cases t with
  | free n =>
    change captureVar names depth n = free f at h
    by_cases hmem : n ∈ names
    · obtain ⟨i, hindex⟩ := exists_binderIndex hmem
      rw [captureVar_of_index hindex] at h
      cases h
    · rw [captureVar_of_notMem hmem] at h
      obtain rfl := free.inj h
      exact ⟨rfl, hmem⟩
  | bound i => cases h
  | typeApp fn ty => cases h
  | node former parts => cases h

theorem exists_of_capture_typeApp {u : Nameless} (h : t.capture names depth = typeApp u ty) :
    ∃ fn, t = typeApp fn ty ∧ fn.capture names depth = u := by
  cases t with
  | typeApp fn ty' =>
    obtain ⟨hfn, rfl⟩ := typeApp.inj h
    exact ⟨fn, rfl, hfn⟩
  | free n =>
    change captureVar names depth n = _ at h
    rw [captureVar] at h
    split at h <;> cases h
  | bound i => cases h
  | node former parts => cases h

/-- A node comes from a node, part by part. -/
theorem exists_of_capture_node {former : Former} {parts : List (Nat × Nameless)}
    (h : t.capture names depth = node former parts) :
    ∃ parts₀, t = node former parts₀ ∧
      parts₀.map (fun part => (part.1, part.2.capture names (depth + part.1))) = parts := by
  cases t with
  | node former' parts₀ =>
    rw [capture_node] at h
    obtain ⟨rfl, hparts⟩ := node.inj h
    exact ⟨parts₀, rfl, hparts⟩
  | free n =>
    change captureVar names depth n = _ at h
    rw [captureVar] at h
    split at h <;> cases h
  | bound i => cases h
  | typeApp fn ty => cases h

theorem exists_of_capture_app {u a : Nameless} (h : t.capture names depth = app u a) :
    ∃ fn arg, t = app fn arg ∧ fn.capture names depth = u ∧ arg.capture names depth = a := by
  obtain ⟨parts, rfl, hparts⟩ := exists_of_capture_node h
  obtain ⟨⟨_, fn⟩, _, rfl, hfn, hrest⟩ := List.map_eq_cons_iff.mp hparts
  obtain ⟨⟨_, arg⟩, _, rfl, harg, hnil⟩ := List.map_eq_cons_iff.mp hrest
  obtain rfl := List.map_eq_nil_iff.mp hnil
  obtain ⟨rfl, hfn⟩ := Prod.mk.inj hfn
  obtain ⟨rfl, harg⟩ := Prod.mk.inj harg
  exact ⟨fn, arg, rfl, hfn, harg⟩

end

/-- A call comes from a call with the same function. -/
theorem Applied.uncapture {args : List Variable} {t : Nameless} {names : List Name} {depth : Nat}
    (h : Applied f types args (t.capture names depth)) :
    f ∉ names ∧ ∃ args', Applied f types args' t ∧
      args'.map (Variable.capture names depth) = args := by
  generalize hu : t.capture names depth = u at h
  induction h generalizing t with
  | head =>
    obtain ⟨rfl, hf⟩ := exists_of_capture_free hu
    exact ⟨hf, [], .head, rfl⟩
  | type ty _ ih =>
    obtain ⟨fn, rfl, hfn⟩ := exists_of_capture_typeApp hu
    obtain ⟨hf, args', happlied, hargs⟩ := ih hfn
    obtain rfl := List.map_eq_nil_iff.mp hargs
    exact ⟨hf, [], .type _ happlied, rfl⟩
  | value arg _ ih =>
    obtain ⟨fn, a, rfl, hfn, ha⟩ := exists_of_capture_app hu
    obtain ⟨hf, args', happlied, rfl⟩ := ih hfn
    obtain ⟨w, rfl, rfl⟩ := Variable.exists_of_capture ha
    exact ⟨hf, args' ++ [w], .value w happlied, List.map_append⟩

/-- A call ends with an argument. -/
theorem Applied.exists_app {args : List Variable} {t : Nameless} (h : Applied f types args t)
    (hargs : args ≠ []) : ∃ fn arg, t = app fn arg := by
  cases h with
  | head => exact absurd rfl hargs
  | type ty h => exact absurd rfl hargs
  | value arg h => exact ⟨_, _, rfl⟩

/-- **The second term is the first with its calls put back.** A call gives all types as they are
named, and a variable for every parameter. -/
inductive Restores (table : Name → Option FuncDecl) : Nameless → Nameless → Prop
  | bound (i : Nat) : Restores table (bound i) (bound i)
  | free {n : Name} (h : table n = none) : Restores table (free n) (free n)
  | typeApp {t t' : Nameless} (ty : Ty) (h : Restores table t t') :
      Restores table (typeApp t ty) (typeApp t' ty)
  | node {parts parts' : List (Nat × Nameless)} (former : Former)
      (hcounts : parts.map Prod.fst = parts'.map Prod.fst)
      (h : ∀ pair ∈ parts.zip parts', Restores table pair.1.2 pair.2.2) :
      Restores table (node former parts) (node former parts')
  | call {f : Name} {d : FuncDecl} {args : List Variable} {t : Nameless} (hdecl : table f = some d)
      (h : Applied f (d.typeParams.map TypeParam.toTy) args t)
      (hlength : args.length = d.params.length) (hargs : args ≠ [])
      (hvars : ∀ n, .free n ∈ args → table n = none) :
      Restores table t (d.rhs.nameless.mapFree (fill d.paramNames args) id 0)

/-- No function that a term refers to uses one of the names. -/
def AvoidsCalled (table : Name → Option FuncDecl) (names : List Name) (t : Nameless) : Prop :=
  ∀ f ∈ t.freeNames, ∀ d, table f = some d → ∀ n ∈ d.rhs.freeOccs, n ∉ d.paramNames → n ∉ names

/-- A part and the part with its calls put back. -/
def RestoresPart (table : Name → Option FuncDecl) (part part' : Nat × Nameless) : Prop :=
  part.1 = part'.1 ∧ Restores table part.2 part'.2

namespace Restores

variable {table : Name → Option FuncDecl} {names : List Name} {t t' : Nameless}
variable {parts parts' : List (Nat × Nameless)}

theorem of_parts (former : Former) (h : List.Forall₂ (RestoresPart table) parts parts') :
    Restores table (.node former parts) (.node former parts') := by
  refine .node former ?_ fun pair hpair => ?_
  · induction h with
    | nil => rfl
    | cons hpart _ ih => exact congrArg₂ List.cons hpart.1 ih
  · exact (List.forall₂_iff_zip.mp h).2 hpair |>.2

theorem forall₂_of_node (hcounts : parts.map Prod.fst = parts'.map Prod.fst)
    (h : ∀ pair ∈ parts.zip parts', Restores table pair.1.2 pair.2.2) :
    List.Forall₂ (RestoresPart table) parts parts' := by
  induction parts generalizing parts' with
  | nil =>
    obtain rfl := List.map_eq_nil_iff.mp hcounts.symm
    exact .nil
  | cons part rest ih =>
    obtain ⟨part', rest', rfl, hcount, hrest⟩ := List.map_eq_cons_iff.mp hcounts.symm
    obtain ⟨hfirst, hlater⟩ := List.forall_mem_cons.mp h
    exact .cons ⟨hcount.symm, hfirst⟩ (ih hrest.symm hlater)

/-- A term without references to the functions stays. -/
theorem of_none (h : ∀ n ∈ t.freeNames, table n = none) : Restores table t t := by
  induction t with
  | bound i => exact .bound i
  | free n => exact .free (h n (List.mem_singleton.mpr rfl))
  | typeApp fn ty ih => exact .typeApp ty (ih h)
  | node former parts ih =>
    rw [freeNames_node] at h
    refine of_parts former
      (List.forall₂_same.mpr fun part hpart => ⟨rfl, ih part hpart fun n hn => ?_⟩)
    exact h n (List.mem_flatMap.mpr ⟨part, hpart, hn⟩)

/-- **Under binders.** -/
theorem capture (h : Restores (hide table names) t t') (havoids : AvoidsCalled table names t)
    (depth : Nat) : Restores table (t.capture names depth) (t'.capture names depth) := by
  induction h generalizing depth with
  | bound i => exact .bound i
  | @free n hn =>
    change Restores table (captureVar names depth n) (captureVar names depth n)
    -- a variable that becomes bound stands for nothing any more
    by_cases hmem : n ∈ names
    · obtain ⟨i, hindex⟩ := exists_binderIndex hmem
      rw [captureVar_of_index hindex]
      exact .bound _
    · rw [captureVar_of_notMem hmem]
      rw [hide, if_neg hmem] at hn
      exact .free hn
  | typeApp ty _ ih => exact .typeApp ty (ih havoids depth)
  | @node parts parts' former hcounts h ih =>
    rw [capture_node, capture_node]
    refine .node former (by rw [List.map_map, List.map_map]; exact hcounts) fun pair hpair => ?_
    rw [List.zip_map] at hpair
    obtain ⟨⟨part, part'⟩, hmem, rfl⟩ := List.mem_map.mp hpair
    have hcount : part.1 = part'.1 :=
      ((List.forall₂_iff_zip.mp (forall₂_of_node hcounts h)).2 hmem).1
    change Restores table (part.2.capture names (depth + part.1))
      (part'.2.capture names (depth + part'.1))
    rw [← hcount]
    refine ih (part, part') hmem (fun f hf => havoids f ?_) _
    rw [freeNames_node]
    exact List.mem_flatMap.mpr ⟨part, (List.of_mem_zip hmem).1, hf⟩
  | @call f d args t hdecl happlied hlength hargs hvars =>
    -- a call of a function that the binders do not hide; they may bind its arguments
    have hf : f ∉ names := by
      intro hmem
      rw [hide, if_pos hmem] at hdecl
      cases hdecl
    rw [hide, if_neg hf] at hdecl
    rw [capture_fill
      (fun n hn => havoids f happlied.mem_freeNames d hdecl n (Expr.freeNames_nameless d.rhs ▸ hn))
      (hlength.trans (length_binderNames d.params).symm)]
    refine .call hdecl (happlied.capture hf depth) (by rwa [List.length_map]) (by simpa using hargs)
      fun n hn => ?_
    obtain ⟨v, hv, heq⟩ := List.mem_map.mp hn
    cases v with
    | bound i => cases heq
    | free m =>
      rw [Variable.capture] at heq
      split at heq
      · cases heq
      · next hindex =>
        obtain rfl := Variable.free.inj heq
        have hm := hvars m hv
        rwa [hide, if_neg (binderIndex?_eq_none.mp hindex)] at hm

theorem exists_parts {depth : Nat} (h : List.Forall₂ (fun part part' =>
      ∃ t', Restores table part.2 t' ∧
        (part.1, t'.capture names (depth + part.1)) = part') parts parts') :
    ∃ restored, List.Forall₂ (RestoresPart table) parts restored ∧
      restored.map (fun part => (part.1, part.2.capture names (depth + part.1))) = parts' := by
  induction h with
  | nil => exact ⟨[], .nil, rfl⟩
  | @cons part _ _ _ hfirst _ ih =>
    obtain ⟨t', ht', rfl⟩ := hfirst
    obtain ⟨restored, hrestores, rfl⟩ := ih
    exact ⟨(part.1, t') :: restored, .cons ⟨rfl, ht'⟩ hrestores, rfl⟩

/-- **Out of binders.** The names of the binders do not matter: what is put back does not use
them. -/
theorem uncapture {depth : Nat} {u : Nameless} (h : Restores table (t.capture names depth) u)
    (havoids : AvoidsCalled table names t) :
    ∃ t', Restores (hide table names) t t' ∧ t'.capture names depth = u := by
  generalize hcapture : t.capture names depth = c at h
  induction h generalizing t depth with
  | bound i =>
    obtain ⟨v, rfl, hv⟩ :=
      Variable.exists_of_capture (v := .bound i) (hcapture.trans (congrArg _ (Nat.zero_add i).symm))
    cases v with
    | bound j => exact ⟨.bound (0 + j), .bound _, hcapture⟩
    | free n =>
      refine ⟨.free n, .free ?_, hcapture⟩
      by_contra hne
      have hmem : n ∉ names := fun hmem => hne (if_pos hmem)
      rw [Variable.capture, binderIndex?_eq_none.mpr hmem] at hv
      cases hv
  | @free n hn =>
    obtain ⟨rfl, hmem⟩ := exists_of_capture_free hcapture
    exact ⟨.free n, .free ((if_neg hmem).trans hn), hcapture⟩
  | typeApp ty _ ih =>
    obtain ⟨fn, rfl, hfn⟩ := exists_of_capture_typeApp hcapture
    obtain ⟨fn', hfn', hcapture'⟩ := ih (t := fn) havoids hfn
    exact ⟨.typeApp fn' ty, .typeApp ty hfn', congrArg (Nameless.typeApp · ty) hcapture'⟩
  -- each part of the node was captured under its own number of binders
  | @node parts parts' former hcounts h ih =>
    obtain ⟨parts₀, rfl, rfl⟩ := exists_of_capture_node hcapture
    have hparts : List.Forall₂ (fun part part' => ∃ t', Restores (hide table names) part.2 t' ∧
        (part.1, t'.capture names (depth + part.1)) = part') parts₀ parts' := by
      have hboth := (List.forall₂_map_left_iff.mp (forall₂_of_node hcounts h))
      rw [List.zip_map_left] at ih
      rw [List.forall₂_iff_zip] at hboth ⊢
      refine ⟨hboth.1, fun {part part'} hmem => ?_⟩
      obtain ⟨t', ht', hcapture'⟩ :=
        ih _ (List.mem_map_of_mem hmem) (t := part.2) (fun f hf => havoids f (by
          rw [freeNames_node]
          exact List.mem_flatMap.mpr ⟨part, (List.of_mem_zip hmem).1, hf⟩)) rfl
      exact ⟨t', ht', Prod.ext (hboth.2 hmem).1 hcapture'⟩
    obtain ⟨parts₀', hrestores, rfl⟩ := exists_parts hparts
    exact ⟨.node former parts₀', of_parts former hrestores, capture_node⟩
  | @call f d args t hdecl happlied hlength hargs hvars =>
    -- the arguments that are bound here become variables again, in the call and in what it stands
    -- for
    subst hcapture
    obtain ⟨hf, args', happlied', rfl⟩ := happlied.uncapture
    rw [List.length_map] at hlength
    refine ⟨d.rhs.nameless.mapFree (fill d.paramNames args') id 0,
      .call ((if_neg hf).trans hdecl) happlied' hlength
      (by simpa using hargs) fun n hn =>
        ?_, capture_fill (fun n hn => ?_) (hlength.trans (length_binderNames _).symm) depth⟩
    · by_cases hmem : n ∈ names
      · exact if_pos hmem
      · refine (if_neg hmem).trans (hvars n (List.mem_map.mpr ⟨_, hn, ?_⟩))
        rw [Variable.capture, binderIndex?_eq_none.mpr hmem]
    · exact havoids f happlied'.mem_freeNames d hdecl n (Expr.freeNames_nameless d.rhs ▸ hn)

/-- Only an application can be a call: any other node has its parts restored. -/
theorem parts_of_node {former : Former} (h : Restores table (.node former parts) t)
    (hformer : former ≠ .app) :
    ∃ parts', t = .node former parts' ∧ List.Forall₂ (RestoresPart table) parts parts' := by
  cases h with
  | node _ hcounts h => exact ⟨_, rfl, forall₂_of_node hcounts h⟩
  | call _ happlied _ hargs _ =>
    obtain ⟨fn, arg, heq⟩ := happlied.exists_app hargs
    exact absurd (node.inj heq).1 hformer

end Restores

end Nameless

/-! ## Computations with a result -/

namespace Compile

variable {α β : Type}

/-- From this state the computation succeeds, with such a result and such a state. -/
def Yields (x : Compile α) (s : Session) (P : α → Session → Prop) : Prop :=
  ∃ a s', x s = .ok a s' ∧ P a s'

namespace Yields

variable {x : Compile α} {f : α → Compile β} {s : Session} {P : α → Session → Prop}
  {Q : β → Session → Prop}

theorem pure {a : α} (h : P a s) : Yields (Pure.pure a) s P := ⟨a, s, rfl, h⟩

/-- One part after the other, from where the first ended. -/
theorem bind (hx : x.Yields s P) (hf : ∀ a s₁, P a s₁ → (f a).Yields s₁ Q) :
    (x >>= f).Yields s Q := by
  obtain ⟨a, s₁, hrun, ha⟩ := hx
  obtain ⟨b, s₂, hrun', hb⟩ := hf a s₁ ha
  exact ⟨b, s₂, bind_ok.mpr ⟨a, s₁, hrun, hrun'⟩, hb⟩

/-- Generating names always succeeds. -/
theorem lift_bind {x : Naming α} (hf : ∀ a s₁, x s = (a, s₁) → (f a).Yields s₁ Q) :
    Yields (liftM x >>= f) s Q := by
  obtain ⟨b, s₂, hrun, hb⟩ := hf (x s).1 (x s).2 rfl
  exact ⟨b, s₂, bind_ok.mpr ⟨_, _, lift_ok.mpr rfl, hrun⟩, hb⟩

end Yields

end Compile

/-! ## Calls in the descent -/

namespace Inline

variable {c c' : Counters} {ctx : Context} {d : FuncDecl} {p : Pending} {σ σ' : Session}
  {types : List Ty} {args : List Nameless.Variable} {depth limit : Nat} {e : Expr} {t : Nameless}

/-- **Fresh type parameters** are new, and stand in the places of the old ones. -/
theorem freshTypeParams_index {s s' : Subst} {params : List TypeParam} {fresh : List Name}
    (h : freshTypeParams s params σ = ((s', fresh), σ')) :
    σ.counters.Draws σ'.counters fresh ∧ fresh.length = params.length ∧
      ∀ a ∈ params.map TypeParam.name, ∃ x, s'.types.get? a = some (.var x) ∧
        binderIndex? x fresh = binderIndex? a (params.map TypeParam.name) := by
  induction params generalizing s fresh σ with
  | nil =>
    obtain ⟨heq, rfl⟩ := Naming.pure_eq.mp h
    obtain ⟨_, rfl⟩ := Prod.mk.inj heq
    exact ⟨.nil le_rfl, rfl, List.forall_mem_nil _⟩
  | cons p rest ih =>
    simp only [freshTypeParams, Naming.bind_eq, Naming.pure_eq] at h
    obtain ⟨x, σ₁, hfresh, ⟨s₁, fresh'⟩, σ₂, hrest, heq, rfl⟩ := h
    obtain ⟨rfl, rfl⟩ := Prod.mk.inj heq
    obtain ⟨hdraws, hlength, hindex⟩ := ih hrest
    have hall : σ.counters.Draws σ₂.counters (x :: fresh') := (freshName_draws hfresh).append hdraws
    refine ⟨hall, congrArg (· + 1) hlength, fun a ha => ?_⟩
    by_cases hlater : a ∈ rest.map TypeParam.name
    · obtain ⟨y, hget, hy⟩ := hindex a hlater
      exact ⟨y, hget, binderIndex?_cons_later _ _ hlater hy⟩
    · -- no later type parameter of this name takes the place of this one
      obtain rfl : a = p.name := (List.mem_cons.mp ha).resolve_right hlater
      have hget : s₁.types.get? p.name = some (.var x) := by
        rw [(freshTypeParams_spec hrest).2.1 p.name hlater]
        exact (Table.get?_insert _ _ _ _).trans (if_pos rfl)
      exact ⟨x, hget, binderIndex?_cons_first hlater (List.nodup_cons.mp hall.nodup).1
        (by rw [hlength, List.length_map])⟩

/-- A call that waits for the types and arguments that it has not got yet. -/
structure Awaits (d : FuncDecl) (types : List Ty) (args : List Nameless.Variable) (p : Pending)
    (c c' : Counters) : Prop where
  typeParams : c.Draws c' p.typeParams
  params : c.Draws c' (binderNames p.params)
  body : p.body.Settled c'
  typeCount : types.length + p.typeParams.length = d.typeParams.length
  count : args.length + p.params.length = d.params.length
  supply : ∀ types' args', types'.length = p.typeParams.length → args'.length = p.params.length →
    p.body.nameless.supply p.typeParams types' (binderNames p.params) args'
      = d.rhs.nameless.supply d.typeParamNames (types ++ types') d.paramNames (args ++ args')

/-- **A function with fresh parameters** waits for everything. -/
theorem instantiate_awaits (h : instantiate d σ = (p, σ'))
    (hparams : ∀ n ∈ d.paramNames, σ.counters.Settled n) (hrhs : d.rhs.Settled σ.counters)
    (htypes : ∀ ty ∈ d.rhs.nameless.typeArgs, ∀ a ∈ ty.varOccs, σ.counters.Settled a) :
    Awaits d [] [] p σ.counters σ'.counters := by
  simp only [instantiate, Naming.bind_eq, Naming.pure_eq] at h
  obtain ⟨⟨s, fresh⟩, σ₁, hfresh, ⟨renames, params⟩, σ₂, henter, body, σ₃, hbody, rfl, rfl⟩ := h
  obtain ⟨hexprs, hgrows⟩ := freshTypeParams_exprs hfresh
  obtain ⟨hdraws, hlength, hindex⟩ := freshTypeParams_index hfresh
  obtain ⟨_, hkept, _⟩ := freshTypeParams_spec hfresh
  have hnone : ∀ n, s.exprs.get? n = none := fun n => by rw [hexprs]; rfl
  have hdraws' := Subst.enterBinders_draws henter fun n hn => hn
  have hparams₁ : ∀ n ∈ binderNames d.params, σ₁.counters.Settled n :=
    fun n hn => (hparams n hn).mono hgrows
  have hentered := (Subst.enters_of_enterBinders henter).entered hparams₁
  obtain ⟨htypesEq, horigin⟩ := Subst.enterBinders_origin henter
  have hrenames : renames.Settled σ₂.counters := by
    intro n r hr
    rcases horigin n r hr with hold | ⟨note, m, hm, rfl⟩
    · rw [hnone n] at hold
      cases hold
    · exact Expr.settled_var note (hentered.settled m hm)
  obtain ⟨hgrows', hnameless, hsettled⟩ := Subst.apply_replaces hbody hrenames
    (hrhs.mono (hgrows.trans hentered.grows))
  refine ⟨hdraws.mono le_rfl (hentered.grows.trans hgrows'), hdraws'.mono hgrows hgrows',
    hsettled, ?_, ?_, fun types' args' htypes' hargs' => ?_⟩
  · exact (Nat.zero_add _).trans hlength
  · exact (Nat.zero_add _).trans hentered.length_eq
  · change body.nameless.supply fresh types' (binderNames params) args' = _
    change types'.length = fresh.length at htypes'
    change args'.length = params.length at hargs'
    rw [hnameless, Nameless.supply, Nameless.supply, Nameless.subst, Nameless.mapFree_mapFree]
    refine Nameless.mapFree_congr (fun n hn depth => ?_) fun ty hty =>
      Ty.subst_subst_eq ty fun a ha => ?_
    -- what the fresh names are given in the end is what the parameters are given, for values and
    -- for types
    · by_cases hparam : n ∈ d.paramNames
      · -- a parameter has its new name in the same place, so it gets the same argument
        obtain ⟨m, himage, hm⟩ :=
          Subst.enterBinders_index henter hparams₁ (fun n _ _ => hnone n) n hparam
        have hcount : args'.length = (binderNames params).length :=
          hargs'.trans (length_binderNames params).symm
        have hcount' : args'.length = d.paramNames.length :=
          hargs'.trans (hentered.length_eq.trans (length_binderNames d.params).symm)
        obtain ⟨v, hv⟩ := Nameless.exists_argument hparam hcount'
        have hv' : Nameless.argument? m (binderNames params) args' = some v :=
          (Nameless.argument?_congr hm hcount hcount').trans hv
        rw [himage]
        change Nameless.fill _ _ _ _ = Nameless.fill _ _ _ _
        rw [Nameless.fill, Nameless.fill, List.nil_append, hv, hv']
        rfl
      · have hfresh' : n ∉ binderNames params := fun hmem =>
          hdraws'.new n hmem ((hrhs.free n (Expr.freeNames_nameless d.rhs ▸ hn)).mono hgrows)
        rw [Subst.image_of_none ((hentered.kept n (.inl hparam)).trans (hnone n)),
          Nameless.fill_of_notMem hparam]
        exact Nameless.fill_of_notMem hfresh' args' depth
    · rw [htypesEq]
      change Nameless.fillTy fresh types' ((s.types.get? a).getD (.var a)) =
        Nameless.fillTy _ _ (.var a)
      by_cases hparam : a ∈ d.typeParamNames
      · obtain ⟨x, hget, hx⟩ := hindex a hparam
        have hcount : types'.length = d.typeParamNames.length :=
          htypes'.trans (hlength.trans (List.length_map _).symm)
        obtain ⟨ty', hty'⟩ := Nameless.exists_argument hparam hcount
        have hx' : Nameless.argument? x fresh types' = some ty' :=
          (Nameless.argument?_congr hx htypes' hcount).trans hty'
        rw [hget, Option.getD_some, Nameless.fillTy_var, Nameless.fillTy_var,
          List.nil_append, hty', hx']
        rfl
      · have hfresh' : a ∉ fresh := fun hmem => hdraws.new a hmem (htypes ty hty a ha)
        rw [hkept a hparam, Nameless.fillTy_var, Nameless.argument?_of_notMem hparam]
        exact (Nameless.fillTy_var _ _ a).trans (by rw [Nameless.argument?_of_notMem hfresh'])

namespace Awaits

/-- The next type. -/
theorem applyType (h : Awaits d types [] p c σ.counters)
    (hcount : types.length < d.typeParams.length) {ty : Ty} (hty : ∀ a ∈ ty.varOccs, c.Settled a)
    (note : Note) :
    (p.applyType note ty).Yields σ fun p' σ' => Awaits d (types ++ [ty]) [] p' c σ'.counters := by
  obtain ⟨hdraws, hparams, hbody, htypeCount, hparamCount, hsupply⟩ := h
  obtain ⟨typeParams, params, body⟩ := p
  cases typeParams with
  | nil => exact absurd htypeCount (Nat.ne_of_lt hcount)
  | cons a typeParams =>
    refine .lift_bind fun body' σ' hrun => .pure ?_
    have hsingle : (Subst.singleType a ty).Settled σ.counters := by
      intro n r hr
      cases hr
    obtain ⟨hgrows, hnameless, hbody'⟩ := Subst.apply_replaces hrun hsingle hbody
    obtain ⟨ha, hlater⟩ := hdraws.of_cons
    have hnames : binderNames
        (params.map fun b => { b with ty := b.ty.map (Subst.singleType a ty).applyTy })
        = binderNames params := List.map_map
    refine ⟨hlater.mono le_rfl hgrows, ?_, hbody', ?_, ?_, fun types' args' htypes' hargs' => ?_⟩
    · rw [hnames]
      exact hparams.mono le_rfl hgrows
    · rw [List.length_append, Nat.add_assoc, Nat.add_comm [ty].length]
      exact htypeCount
    · rw [List.length_map]
      exact hparamCount
    · rw [List.length_map] at hargs'
      rw [hnames, hnameless, List.append_assoc]
      -- the other type parameters are new, so the type does not mention them
      refine (Nameless.supply_type ha (fun b hb hmem => hlater.new b hmem (hty b hb))
        body.nameless).trans ?_
      exact hsupply (ty :: types') args' (congrArg (· + 1) htypes') hargs'

/-- The next argument, which is a variable. -/
theorem applyValue {σ₁ : Session} (h : Awaits d types args p c σ₁.counters)
    (hσ : σ₁.counters ≤ σ.counters) (htypes : types.length = d.typeParams.length)
    (hcount : args.length < d.params.length) {x : Name} (hx : c.Settled x) (note note' : Note) :
    (p.applyValue note (.var note' x)).Yields σ fun p' σ' =>
      Awaits d types (args ++ [.free x]) p' c σ'.counters := by
  obtain ⟨hdraws, hparams, hbody, htypeCount, hparamCount, hsupply⟩ := h
  obtain ⟨typeParams, params, body⟩ := p
  -- no type is missing any more
  obtain rfl : typeParams = [] := List.eq_nil_of_length_eq_zero (by
    change types.length + typeParams.length = _ at htypeCount
    omega)
  cases params with
  | nil => exact absurd hparamCount (Nat.ne_of_lt hcount)
  | cons b params =>
    refine .lift_bind fun body' σ' hrun => .pure ?_
    have hsingle : (Subst.single b.name (.var note' x)).Settled σ.counters :=
      .single (Expr.settled_var note' (hx.mono (hdraws.le.trans hσ)))
    obtain ⟨hgrows, hnameless, hbody'⟩ := Subst.apply_replaces hrun hsingle (hbody.mono hσ)
    obtain ⟨hb, hlater⟩ := hparams.of_cons
    have hgrows' := hσ.trans hgrows
    refine ⟨.nil (hdraws.le.trans hgrows'), hlater.mono le_rfl hgrows', hbody', htypeCount, ?_,
      fun types' args' htypes' hargs' => ?_⟩
    · rw [List.length_append, Nat.add_assoc, Nat.add_comm [_].length]
      exact hparamCount
    · -- the argument is put in for the first parameter that is left
      have hsubst : body'.nameless =
          body.nameless.subst (fun n => if b.name = n then .free x else .free n) id := by
        rw [hnameless]
        exact Nameless.subst_congr (fun n _ => Subst.image_single b.name (.var note' x) n)
          fun ty _ => Ty.subst_empty ty
      change body'.nameless.supply [] types' (binderNames params) args' = _
      rw [hsubst, List.append_assoc]
      refine (Nameless.supply_value hb (fun hmem => hlater.new x hmem hx) args' body.nameless).trans
        ?_
      exact hsupply types' (.free x :: args') htypes' (congrArg (· + 1) hargs')

/-- A call with all types and arguments is put back. -/
theorem finish (h : Awaits d (d.typeParams.map TypeParam.toTy) args p c c')
    (hargs : args.length = d.params.length) :
    ∃ e', p = { body := e' } ∧
      e'.nameless = d.rhs.nameless.mapFree (Nameless.fill d.paramNames args) id 0 := by
  obtain ⟨_, _, _, htypeCount, hparamCount, hsupply⟩ := h
  obtain ⟨typeParams, params, body⟩ := p
  rw [List.length_map] at htypeCount
  obtain rfl : typeParams = [] := List.eq_nil_of_length_eq_zero (by
    change d.typeParams.length + typeParams.length = _ at htypeCount
    omega)
  obtain rfl : params = [] := List.eq_nil_of_length_eq_zero (by
    change args.length + params.length = _ at hparamCount
    omega)
  refine ⟨body, rfl, ?_⟩
  have hbody := hsupply [] [] rfl rfl
  rw [List.append_nil, List.append_nil] at hbody
  refine (Nameless.supply_nil body.nameless).symm.trans (hbody.trans ?_)
  exact Nameless.mapFree_congr (fun _ _ _ => rfl) fun ty _ => Nameless.fillTy_self d.typeParams ty

end Awaits

/-! ## The descent -/

/-- The functions to inline do not refer to each other, and their type variables are settled. -/
structure Context.Flat (c : Counters) (ctx : Context) : Prop extends ctx.Hygienic c where
  plain : ∀ n d, ctx.decls.get? n = some d → ∀ x ∈ d.rhs.freeOccs, x ∉ d.paramNames →
    ctx.decls.get? x = none
  typeParams : ∀ n d, ctx.decls.get? n = some d → ∀ a ∈ d.typeParamNames, c.Settled a
  types : ∀ n d, ctx.decls.get? n = some d → ∀ ty ∈ d.rhs.nameless.typeArgs,
    ∀ a ∈ ty.varOccs, c.Settled a

theorem Context.Flat.mono (h : ctx.Flat c) (hle : c ≤ c') : ctx.Flat c' where
  toHygienic := h.toHygienic.mono hle
  plain := h.plain
  typeParams n d hd a ha := (h.typeParams n d hd a ha).mono hle
  types n d hd ty hty a ha := (h.types n d hd ty hty a ha).mono hle

/-- The functions that a term refers to can be unfolded, and are not larger than the limit. -/
def Calls (limit : Nat) (ctx : Context) (t : Nameless) : Prop :=
  ∀ f ∈ t.freeNames, ∀ d, ctx.decl? f = some d → f ∉ ctx.active ∧ d.rhs.size ≤ limit

/-- The calls in the parts of a node. -/
theorem Calls.parts {former : Former} {parts : List (Nat × Nameless)}
    (h : Calls limit ctx (.node former parts)) : ∀ part ∈ parts, Calls limit ctx part.2 := by
  intro part hpart f hf
  refine h f ?_
  rw [Nameless.freeNames_node]
  exact List.mem_flatMap.mpr ⟨part, hpart, hf⟩

/-- A descent of this depth restores the calls in an expression. -/
def DescendRestores (depth : Nat) : Prop :=
  ∀ {ctx : Context} {e : Expr} {t : Nameless} {σ : Session} {limit : Nat},
    Nameless.Restores ctx.decl? e.nameless t →
    ctx.Flat σ.counters → e.Settled σ.counters → Calls limit ctx e.nameless →
      e.size + limit ≤ depth →
    (descend depth ctx e).Yields σ fun p σ' =>
      σ.counters ≤ σ'.counters ∧ ∃ e', p = { body := e' } ∧ e'.nameless = t

/-- A descent whose result is closed. -/
theorem DescendRestores.value (h : DescendRestores depth)
    (hrestores : Nameless.Restores ctx.decl? e.nameless t) (hctx : ctx.Flat σ.counters)
    (he : e.Settled σ.counters) (hcalls : Calls limit ctx e.nameless)
    (hsize : e.size + limit ≤ depth) :
    Compile.Yields (do (← descend depth ctx e).close) σ fun e' σ' =>
      σ.counters ≤ σ'.counters ∧ e'.nameless = t := by
  refine (h hrestores hctx he hcalls hsize).bind fun p σ' hp => ?_
  obtain ⟨hgrows, e', rfl, hnameless⟩ := hp
  exact .pure ⟨hgrows, hnameless⟩

/-- A part without binders. -/
theorem DescendRestores.part (h : DescendRestores depth) {part : Nat × Nameless}
    (hpart : Nameless.RestoresPart ctx.decl? (0, e.nameless) part) (hctx : ctx.Flat σ.counters)
    (he : e.Settled σ.counters) (hcalls : Calls limit ctx e.nameless)
    (hsize : e.size + limit ≤ depth) :
    Compile.Yields (do (← descend depth ctx e).close) σ fun e' σ' =>
      σ.counters ≤ σ'.counters ∧ (0, e'.nameless) = part := by
  obtain ⟨e', σ', hrun, hgrows, hnameless⟩ := h.value hpart.2 hctx he hcalls hsize
  exact ⟨e', σ', hrun, hgrows, Prod.ext hpart.1 hnameless⟩

theorem avoidsCalled_of_avoids {names : List Name} (h : Nameless.Avoids ctx.closures names)
    (t : Nameless) : Nameless.AvoidsCalled ctx.decl? names t := by
  intro f _ d hd n hn hparam
  refine h f d.closure (by rw [Context.closures, hd]; rfl) n ?_
  rw [FuncDecl.freeNames_closure]
  exact List.mem_filter.mpr ⟨hn, decide_eq_true hparam⟩

/-- Binders hide functions. -/
theorem Context.decl?_shadow_eq (ctx : Context) (binders : List Binder) :
    (ctx.shadow binders).decl? = Nameless.hide ctx.decl? (binderNames binders) :=
  funext (ctx.decl?_shadow binders)

/-- A part under binders that made way. -/
theorem DescendRestores.under (h : DescendRestores depth) {binders : List Binder}
    {names : List Name} {e₁ : Expr} {part : Nat × Nameless}
    (hpart : Nameless.RestoresPart ctx.decl? (e.nameless.under names) part)
    (hctx : ctx.Flat σ.counters) (he₁ : e₁.Settled σ.counters)
    (hunder : e₁.nameless.under (binderNames binders) = e.nameless.under names)
    (havoids : Nameless.Avoids ctx.closures (binderNames binders))
    (hcalls : Calls limit ctx (e.nameless.under names).2) (hsize : e₁.size + limit ≤ depth) :
    Compile.Yields (do (← descend depth (ctx.shadow binders) e₁).close) σ fun e' σ' =>
      σ.counters ≤ σ'.counters ∧ e'.nameless.under (binderNames binders) = part := by
  obtain ⟨hcount, hrestores⟩ := hpart
  rw [← hunder] at hcount hrestores hcalls
  obtain ⟨t, ht, hcapture⟩ := hrestores.uncapture (avoidsCalled_of_avoids havoids _)
  rw [← Context.decl?_shadow_eq] at ht
  have hctx' : (ctx.shadow binders).Flat σ.counters := { hctx with }
  -- calls of hidden functions are not called so any more
  have hcalls' : Calls limit (ctx.shadow binders) e₁.nameless := by
    intro f hf d hd
    rw [Context.decl?_shadow] at hd
    split at hd
    · cases hd
    · next hmem =>
      refine hcalls f ?_ d hd
      rw [Nameless.freeNames_under]
      exact List.mem_filter.mpr ⟨hf, decide_eq_true hmem⟩
  obtain ⟨e', σ', hrun, hgrows, hnameless⟩ := h.value ht hctx' he₁ hcalls' hsize
  refine ⟨e', σ', hrun, hgrows, Prod.ext hcount ?_⟩
  rw [← hcapture, ← hnameless]
  rfl

/-- **A reference** is unfolded. Its right-hand side refers to no function, so inlining leaves it as
it is. -/
theorem DescendRestores.unfold (h : DescendRestores depth) {note : Note} {f : Name}
    (hdecl : ctx.decl? f = some d) (hactive : f ∉ ctx.active) (hctx : ctx.Flat σ.counters)
    (hsize : d.rhs.size ≤ depth) :
    (descend (depth + 1) ctx (.var note f)).Yields σ fun p σ' =>
      Awaits d [] [] p σ.counters σ'.counters := by
  have hget := Context.get?_of_decl? hdecl
  rw [descend]
  simp only [hdecl, if_neg hactive]
  refine .lift_bind fun p σ₁ hinstantiate => ?_
  have hawaits :=
    instantiate_awaits hinstantiate (hctx.params f d hget) (hctx.rhs f d hget) (hctx.types f d hget)
  obtain ⟨_, _, _, hinst⟩ :=
    instantiate_spec hinstantiate (hctx.params f d hget) (hctx.rhs f d hget)
  have hctx' : Context.Flat σ₁.counters { ctx.shadow p.params with active := f :: ctx.active } :=
    { hctx.mono hawaits.params.le with }
  have hnone : ∀ n ∈ p.body.nameless.freeNames,
      Context.decl? { ctx.shadow p.params with active := f :: ctx.active } n = none := by
    intro n hn
    change (ctx.shadow p.params).decl? n = none
    rw [Context.decl?_shadow]
    split
    · rfl
    · next hmem =>
      -- what is free in the body is so in the right-hand side, apart from the parameters
      have hfree : n ∈ (p.body.nameless.capture (binderNames p.params) 0).freeNames := by
        rw [Nameless.freeNames_capture]
        exact List.mem_filter.mpr ⟨hn, decide_eq_true hmem⟩
      rw [hinst.capture, Nameless.freeNames_subst, Nameless.freeNames_capture,
        Expr.freeNames_nameless] at hfree
      obtain ⟨m, hm, hn'⟩ := List.mem_flatMap.mp hfree
      obtain rfl := List.mem_singleton.mp hn'
      obtain ⟨hocc, hparam⟩ := List.mem_filter.mp hm
      have hplain := hctx.plain f d hget n hocc (of_decide_eq_true hparam)
      unfold Context.decl?
      rw [hplain, ite_self]
  have hcalls : Calls 0 { ctx.shadow p.params with active := f :: ctx.active } p.body.nameless := by
    intro n hn d' hd'
    rw [hnone n hn] at hd'
    cases hd'
  obtain ⟨body, σ₂, hrun, hgrows, hnameless⟩ := h.value (.of_none hnone) hctx' hinst.body hcalls
    ((congrArg (· + 0) (instantiate_size hinstantiate)).trans_le hsize)
  refine ⟨{ p with body }, σ₂, Compile.bind_ok.mpr ⟨body, σ₂, hrun, rfl⟩, ?_⟩
  obtain ⟨p₁, σ₃, hdescend, hclose⟩ := Compile.bind_ok.mp hrun
  obtain ⟨_, hsettled, _⟩ :=
    DescendInlines.value (descend_inlines depth) hdescend hclose hctx'.toHygienic hinst.body
  refine ⟨hawaits.typeParams.mono le_rfl hgrows, hawaits.params.mono le_rfl hgrows, hsettled,
    hawaits.typeCount, hawaits.count, fun types' args' htypes' hargs' => ?_⟩
  change body.nameless.supply _ _ _ _ = _
  rw [hnameless]
  exact hawaits.supply types' args' htypes' hargs'

/-! Expressions by their terms. -/

theorem exists_of_nameless_free {n : Name} (h : e.nameless = .free n) :
    ∃ note, e = .var note n := by
  cases e with
  | var note name => exact ⟨note, congrArg (Expr.var note) (Nameless.free.inj h)⟩
  | con | intLit | undefined | error | app | typeApp | cond | case | lam | letRec => cases h

theorem exists_of_nameless_typeApp {ty : Ty} (h : e.nameless = .typeApp t ty) :
    ∃ note fn, e = .typeApp note fn ty ∧ fn.nameless = t := by
  cases e with
  | typeApp note fn ty' =>
    obtain ⟨hfn, rfl⟩ := Nameless.typeApp.inj h
    exact ⟨note, fn, rfl, hfn⟩
  | var | con | intLit | undefined | error | app | cond | case | lam | letRec => cases h

theorem exists_of_nameless_app {a : Nameless} (h : e.nameless = .app t a) :
    ∃ note fn arg, e = .app note fn arg ∧ fn.nameless = t ∧ arg.nameless = a := by
  cases e with
  | app note fn arg =>
    obtain ⟨_, hparts⟩ := Nameless.node.inj h
    obtain ⟨hfn, hrest⟩ := List.cons.inj hparts
    exact ⟨note, fn, arg, rfl, (Prod.mk.inj hfn).2, (Prod.mk.inj (List.cons.inj hrest).1).2⟩
  | var | con | intLit | undefined | error | typeApp | cond | case | lam | letRec => cases h

/-- An argument that is a variable is written as one. -/
theorem exists_of_nameless_variable {v : Nameless.Variable} (h : e.nameless = v.term 0) :
    ∃ note n, e = .var note n ∧ v = .free n := by
  cases v with
  | bound i => cases e <;> cases h
  | free n =>
    obtain ⟨note, rfl⟩ := exists_of_nameless_free h
    exact ⟨note, n, rfl, rfl⟩

/-- **A call** gets its types and arguments one by one. -/
theorem descend_call {f : Name} (ih : ∀ lower < depth, DescendRestores lower)
    (happlied : Nameless.Applied f types args e.nameless) (hdecl : ctx.decl? f = some d)
    (hactive : f ∉ ctx.active) (hctx : ctx.Flat σ.counters) (he : e.Settled σ.counters)
    (htypes : ∀ ty ∈ types, ∀ a ∈ ty.varOccs, σ.counters.Settled a)
    (hvars : ∀ n, .free n ∈ args → ctx.decl? n = none)
    (htypeCount : types.length ≤ d.typeParams.length)
    (htotal : args ≠ [] → types.length = d.typeParams.length)
    (hcount : args.length ≤ d.params.length) (hsize : e.size + d.rhs.size ≤ depth) :
    (descend depth ctx e).Yields σ fun p σ' => Awaits d types args p σ.counters σ'.counters := by
  generalize ht : e.nameless = t at happlied
  induction happlied generalizing e depth with
  | head =>
    obtain ⟨note, rfl⟩ := exists_of_nameless_free ht
    obtain ⟨lower, rfl⟩ : ∃ lower, depth = lower + 1 :=
      ⟨depth - 1, by rw [Expr.size] at hsize; omega⟩
    exact DescendRestores.unfold (ih lower (Nat.lt_succ_self _)) hdecl hactive hctx
      (by rw [Expr.size] at hsize; omega)
  | @type types t ty _ ihfn =>
    obtain ⟨note, fn, rfl, hfn⟩ := exists_of_nameless_typeApp ht
    rw [Expr.size] at hsize
    obtain ⟨lower, rfl⟩ : ∃ lower, depth = lower + 1 := ⟨depth - 1, by omega⟩
    rw [List.forall_mem_append, List.forall_mem_singleton] at htypes
    rw [List.length_append, List.length_singleton] at htypeCount
    rw [descend]
    refine (ihfn (fun k hk => ih k (Nat.lt_succ_of_lt hk)) he.2.1 htypes.1 hvars (by omega)
      (fun h => absurd rfl h) hcount (by omega) hfn).bind fun p σ₁ hp => ?_
    exact hp.applyType (by omega) htypes.2 note
  | @value types args t v _ ihfn =>
    obtain ⟨note, fn, arg, rfl, hfn, harg⟩ := exists_of_nameless_app ht
    obtain ⟨note', x, rfl, rfl⟩ := exists_of_nameless_variable harg
    simp only [Expr.size] at hsize
    obtain ⟨lower, rfl⟩ : ∃ lower, depth = lower + 2 := ⟨depth - 2, by have := fn.size_pos; omega⟩
    have htotal' := htotal (List.append_ne_nil_of_right_ne_nil _ (List.cons_ne_nil _ _))
    rw [List.length_append, List.length_singleton] at hcount
    have hx : ctx.decl? x = none := hvars x (List.mem_append_right _ List.mem_cons_self)
    rw [descend]
    refine (ihfn (fun k hk => ih k (Nat.lt_succ_of_lt hk)) he.2.1 htypes
      (fun n hn => hvars n (List.mem_append_left _ hn))
      htypeCount (fun _ => htotal') (by omega) (by omega) hfn).bind fun p σ₁ hp => ?_
    -- the argument is a variable that is no function, so it stays
    have hvalue : Compile.Yields (do (← descend (lower + 1) ctx (.var note' x)).close) σ₁
          fun arg' σ₂ =>
        arg' = .var note' x ∧ σ₂ = σ₁ := by
      rw [descend]
      simp only [hx]
      exact ⟨_, _, rfl, rfl, rfl⟩
    refine hvalue.bind fun arg' σ₂ harg' => ?_
    obtain ⟨rfl, rfl⟩ := harg'
    exact hp.applyValue le_rfl htotal' (by omega)
      (Expr.Settled.free he.2.2 x (List.mem_singleton.mpr rfl)) note note'

/-- The call is at the top. -/
theorem descend_called {f : Name} (ih : ∀ lower < depth, DescendRestores lower)
    (hdecl : ctx.decl? f = some d)
    (happlied : Nameless.Applied f (d.typeParams.map TypeParam.toTy) args e.nameless)
    (hlength : args.length = d.params.length) (hvars : ∀ n, .free n ∈ args → ctx.decl? n = none)
    (hctx : ctx.Flat σ.counters) (he : e.Settled σ.counters) (hcalls : Calls limit ctx e.nameless)
    (hsize : e.size + limit ≤ depth) :
    (descend depth ctx e).Yields σ fun p σ' => σ.counters ≤ σ'.counters ∧ ∃ e', p = { body := e' } ∧
      e'.nameless = d.rhs.nameless.mapFree (Nameless.fill d.paramNames args) id 0 := by
  obtain ⟨hactive, hlimit⟩ := hcalls f happlied.mem_freeNames d hdecl
  have htypes : ∀ ty ∈ d.typeParams.map TypeParam.toTy, ∀ a ∈ ty.varOccs, σ.counters.Settled a := by
    rw [List.forall_mem_map]
    intro p hp a ha
    obtain rfl := List.mem_singleton.mp ha
    exact hctx.typeParams f d (Context.get?_of_decl? hdecl) p.name (List.mem_map_of_mem hp)
  obtain ⟨p, σ', hrun, hawaits⟩ :=
    descend_call ih happlied hdecl hactive hctx he htypes hvars (List.length_map _).le
      (fun _ => List.length_map _) hlength.le (by omega)
  exact ⟨p, σ', hrun, hawaits.params.le, hawaits.finish hlength⟩

/-- An alternative, whose binders make way first. -/
theorem DescendRestores.alt (h : DescendRestores depth) {pattern : Pattern} {rhs : Expr}
    {part : Nat × Nameless}
    (hpart : Nameless.RestoresPart ctx.decl? (rhs.nameless.under pattern.names) part)
    (hctx : ctx.Flat σ.counters)
    (hbinders : ∀ b ∈ pattern.binders, b.Uses σ.counters.Settled fun _ => True)
    (hrhs : rhs.Settled σ.counters) (hcalls : Calls limit ctx (rhs.nameless.under pattern.names).2)
    (hsize : rhs.size + limit ≤ depth) :
    Compile.Yields (do
      let (renames, binders) ← (ctx.avoidCapture pattern.binders : Naming (Subst × List Binder))
      let rhs ← (renames.apply rhs : Naming Expr)
      let rhs ← (do (← descend depth (ctx.shadow binders) rhs).close)
      return (pattern.withBinders binders, rhs) : Compile (Pattern × Expr)) σ fun alt σ' =>
        σ.counters ≤ σ'.counters ∧
          (alt.1.shape, alt.2.nameless.under alt.1.names) = (pattern.shape, part) := by
  refine .lift_bind fun entered σ₁ hcapture => .lift_bind fun rhs₁ σ₂ hrename => ?_
  obtain ⟨hopens, hlength, havoids⟩ :=
    avoidCapture_opens hcapture hctx.toHygienic (Expr.binders_settled_iff.mp hbinders)
      (Expr.Settled.free hrhs)
  obtain ⟨hgrows, hrhs₁, hunder⟩ := Opens.apply_same hopens hrename le_rfl hrhs (List.Subset.refl _)
  have hsize₁ :=
    (Subst.apply_renames hrename (Subst.enterBinders_refreshes hcapture).isRenaming).size
  have hgrows₂ := hopens.grows.trans hgrows
  refine (h.under hpart (hctx.mono hgrows₂) hrhs₁ hunder havoids hcalls (by omega)).bind
    fun rhs' σ₃ hrhs' => .pure ⟨?_, ?_⟩
  · exact hgrows₂.trans hrhs'.1
  · refine Prod.ext (pattern.shape_withBinders _) ?_
    rw [← hrhs'.2, Pattern.names_withBinders hlength]

/-- Alternatives one after the other. -/
theorem DescendRestores.alts (h : DescendRestores depth) {alts : Alts}
    {parts : List (Nat × Nameless)}
    (hparts : List.Forall₂ (Nameless.RestoresPart ctx.decl?) (Expr.namelessAlts alts) parts)
    (hctx : ctx.Flat σ.counters) (halts : Expr.UsesAlts σ.counters.Settled (fun _ => True) alts)
    (hcalls : ∀ part ∈ Expr.namelessAlts alts, Calls limit ctx part.2)
    (hsize : ∀ alt ∈ alts, alt.2.size + limit ≤ depth) :
    Compile.Yields (alts.mapM fun (alt : Pattern × Expr) => (do
      let (renames, binders) ← (ctx.avoidCapture alt.1.binders : Naming (Subst × List Binder))
      let rhs ← (renames.apply alt.2 : Naming Expr)
      let rhs ← (do (← descend depth (ctx.shadow binders) rhs).close)
      return (alt.1.withBinders binders, rhs) : Compile (Pattern × Expr))) σ fun alts' σ' =>
        σ.counters ≤ σ'.counters ∧ alts'.map (·.1.shape) = alts.map (·.1.shape) ∧
          Expr.namelessAlts alts' = parts := by
  induction alts generalizing parts σ with
  | nil =>
    cases hparts
    rw [List.mapM_nil]
    exact .pure ⟨le_rfl, rfl, rfl⟩
  | cons alt rest ih =>
    obtain _ | ⟨hpart, hlater⟩ := hparts
    rw [List.forall_mem_cons] at hsize
    obtain ⟨hcalls₁, hcalls₂⟩ := List.forall_mem_cons.mp hcalls
    rw [List.mapM_cons]
    refine (h.alt hpart hctx halts.1 halts.2.1 hcalls₁ hsize.1).bind fun alt' σ₁ halt' => ?_
    refine (ih hlater (hctx.mono halt'.1) (Expr.settledAlts_mono halts.2.2 halt'.1)
      hcalls₂ hsize.2).bind fun rest' σ₂ hrest' => .pure ⟨halt'.1.trans hrest'.1, ?_, ?_⟩
    · exact congrArg₂ List.cons (Prod.mk.inj halt'.2).1 hrest'.2.1
    · exact congrArg₂ List.cons (Prod.mk.inj halt'.2).2 hrest'.2.2

/-- Parts under the same binders one after the other. -/
theorem DescendRestores.parts (h : DescendRestores depth) {binders : List Binder}
    {names : List Name} {es es₁ : List Expr}
    {parts : List (Nat × Nameless)} (hrenamed : List.Forall₂ (fun e e₁ => e₁.Settled σ.counters ∧
      e₁.nameless.under (binderNames binders) = e.nameless.under names) es es₁)
    (hparts : List.Forall₂
      (fun e part => Nameless.RestoresPart ctx.decl? (e.nameless.under names) part) es parts)
    (hctx : ctx.Flat σ.counters) (havoids : Nameless.Avoids ctx.closures (binderNames binders))
    (hcalls : ∀ e ∈ es, Calls limit ctx (e.nameless.under names).2)
    (hsize : ∀ e₁ ∈ es₁, e₁.size + limit ≤ depth) :
    Compile.Yields (es₁.mapM fun e => do (← descend depth (ctx.shadow binders) e).close)
      σ fun es' σ' =>
      σ.counters ≤ σ'.counters ∧ es'.map (·.nameless.under (binderNames binders)) = parts := by
  induction es generalizing es₁ parts σ with
  | nil =>
    cases hrenamed
    cases hparts
    rw [List.mapM_nil]
    exact .pure ⟨le_rfl, rfl⟩
  | cons e rest ih =>
    obtain _ | ⟨⟨he₁, hunder⟩, hrenamed⟩ := hrenamed
    obtain _ | ⟨hpart, hparts⟩ := hparts
    rw [List.forall_mem_cons] at hcalls hsize
    rw [List.mapM_cons]
    refine (h.under hpart hctx he₁ hunder havoids hcalls.1 hsize.1).bind fun e' σ₁ he' => ?_
    refine (ih (hrenamed.imp fun _ _ hrest => ⟨hrest.1.mono he'.1, hrest.2⟩) hparts
      (hctx.mono he'.1) hcalls.2
      hsize.2).bind fun rest' σ₂ hrest' =>
        .pure ⟨he'.1.trans hrest'.1, congrArg₂ List.cons he'.2 hrest'.2⟩

/-- **Inlining restores calls.** By induction on the depth of the descent. -/
theorem descend_restores (depth : Nat) : DescendRestores depth := by
  induction depth using Nat.strong_induction_on with
  | _ depth ih =>
    intro ctx e t σ limit hrestores hctx he hcalls hsize
    cases depth with
    | zero =>
      -- the depth is at least the size
      have hpos := e.size_pos
      omega
    | succ depth =>
      have hlower : DescendRestores depth := ih depth (Nat.lt_succ_self depth)
      -- a call may go through several applications, so it uses the induction hypothesis further
      -- down
      have hcalled : ∀ {f : Name} {d : FuncDecl} {args : List Nameless.Variable},
          ctx.decl? f = some d →
          Nameless.Applied f (d.typeParams.map TypeParam.toTy) args e.nameless →
            args.length = d.params.length →
          (∀ n, .free n ∈ args → ctx.decl? n = none) → _ := fun hdecl happlied hlength hvars =>
        descend_called ih hdecl happlied hlength hvars hctx he hcalls hsize
      cases e with
      | var note n =>
        cases hrestores with
        | free hnone =>
          rw [descend]
          simp only [hnone]
          exact .pure ⟨le_rfl, _, rfl, rfl⟩
        | call hdecl happlied hlength _ hvars => exact hcalled hdecl happlied hlength hvars
      | con note name | intLit note value | undefined note | error note message =>
        obtain ⟨parts, rfl, hparts⟩ := hrestores.parts_of_node Former.noConfusion
        cases hparts
        exact .pure ⟨le_rfl, _, rfl, rfl⟩
      -- an application is part of a call, or stays one
      | app note fn arg =>
        cases hrestores with
        | node _ hcounts h =>
          rw [Expr.size] at hsize
          obtain _ | ⟨hfn, _ | ⟨harg, _ | _⟩⟩ := Nameless.Restores.forall₂_of_node hcounts h
          obtain ⟨hcalls₁, hcalls₂⟩ := List.forall_mem_cons.mp hcalls.parts
          rw [List.forall_mem_singleton] at hcalls₂
          rw [descend]
          refine (hlower hfn.2 hctx he.2.1 hcalls₁ (by omega)).bind fun p σ₁ hp => ?_
          obtain ⟨hgrows, fn', rfl, hfn'⟩ := hp
          refine (hlower.part harg (hctx.mono hgrows) (Expr.Settled.mono he.2.2 hgrows) hcalls₂
            (by omega)).bind fun arg' σ₂ harg' => .pure ⟨hgrows.trans harg'.1, _, rfl, ?_⟩
          have hfn'' : (0, fn'.nameless) = _ := Prod.ext hfn.1 hfn'
          rw [Expr.nameless, hfn'', harg'.2]
        | call hdecl happlied hlength _ hvars => exact hcalled hdecl happlied hlength hvars
      | typeApp note fn ty =>
        rw [Expr.size] at hsize
        cases hrestores with
        | typeApp _ hfn =>
          rw [descend]
          refine (hlower hfn hctx he.2.1 hcalls (by omega)).bind fun p σ₁ hp => ?_
          obtain ⟨hgrows, fn', rfl, hfn'⟩ := hp
          exact .pure ⟨hgrows, _, rfl, congrArg (Nameless.typeApp · ty) hfn'⟩
        | call hdecl happlied hlength _ hvars => exact hcalled hdecl happlied hlength hvars
      | cond note test thenBranch elseBranch =>
        rw [Expr.size] at hsize
        obtain ⟨parts, rfl, hparts⟩ := hrestores.parts_of_node Former.noConfusion
        obtain _ | ⟨htest, _ | ⟨hthen, _ | ⟨helse, _ | _⟩⟩⟩ := hparts
        obtain ⟨hcalls₁, hlater⟩ := List.forall_mem_cons.mp hcalls.parts
        obtain ⟨hcalls₂, hcalls₃⟩ := List.forall_mem_cons.mp hlater
        rw [List.forall_mem_singleton] at hcalls₃
        rw [descend]
        refine (hlower.part htest hctx he.2.1 hcalls₁ (by omega)).bind fun test' σ₁ htest' => ?_
        refine (hlower.part hthen (hctx.mono htest'.1) (Expr.Settled.mono he.2.2.1 htest'.1) hcalls₂
          (by omega)).bind fun then' σ₂ hthen' => ?_
        have hgrows := htest'.1.trans hthen'.1
        refine (hlower.part helse (hctx.mono hgrows) (Expr.Settled.mono he.2.2.2 hgrows) hcalls₃
          (by omega)).bind fun else' σ₃ helse' => .pure ⟨hgrows.trans helse'.1, _, rfl, ?_⟩
        rw [Expr.nameless, htest'.2, hthen'.2, helse'.2]
      | case note scrutinee alts =>
        rw [Expr.size] at hsize
        obtain ⟨parts, rfl, hparts⟩ := hrestores.parts_of_node Former.noConfusion
        obtain _ | ⟨hscrutinee, halts⟩ := hparts
        obtain ⟨hcalls₁, hcalls₂⟩ := List.forall_mem_cons.mp hcalls.parts
        rw [descend]
        refine (hlower.part hscrutinee hctx he.2.1 hcalls₁ (by omega)).bind
          fun scrutinee' σ₁ hscrutinee' => ?_
        refine (hlower.alts halts (hctx.mono hscrutinee'.1)
          (Expr.settledAlts_mono he.2.2 hscrutinee'.1) hcalls₂
          fun alt halt => ?_).bind fun alts' σ₂ halts' =>
            .pure ⟨hscrutinee'.1.trans halts'.1, _, rfl, ?_⟩
        · have := Expr.size_le_sizeAlts halt
          omega
        · rw [Expr.nameless, hscrutinee'.2, halts'.2.1, halts'.2.2]
      -- the binder makes way first, which changes nothing without names
      | lam note params body =>
        rw [Expr.size] at hsize
        obtain ⟨parts, rfl, hparts⟩ := hrestores.parts_of_node Former.noConfusion
        obtain _ | ⟨hbody, _ | _⟩ := hparts
        have hcalls' := List.forall_mem_singleton.mp hcalls.parts
        rw [descend]
        refine .lift_bind fun entered σ₁ hcapture => .lift_bind fun body₁ σ₂ hrename => ?_
        obtain ⟨hopens, _, havoids⟩ :=
          avoidCapture_opens hcapture hctx.toHygienic (Expr.binders_settled_iff.mp he.2.1)
            (Expr.Settled.free he.2.2)
        obtain ⟨hgrows, hbody₁, hunder⟩ :=
          Opens.apply_same hopens hrename le_rfl he.2.2 (List.Subset.refl _)
        have hsize₁ :=
          (Subst.apply_renames hrename (Subst.enterBinders_refreshes hcapture).isRenaming).size
        have hgrows₂ := hopens.grows.trans hgrows
        refine (hlower.under hbody (hctx.mono hgrows₂) hbody₁ hunder havoids hcalls'
          (by omega)).bind fun body' σ₃ hbody' => .pure ⟨hgrows₂.trans hbody'.1, _, rfl, ?_⟩
        rw [Expr.nameless, hbody'.2]
      | letRec note binds body =>
        rw [Expr.size] at hsize
        obtain ⟨parts, rfl, hparts⟩ := hrestores.parts_of_node Former.noConfusion
        rw [Expr.namelessRhss_eq] at hparts
        obtain ⟨parts, part, rfl, hrhss, hbody⟩ := hparts.exists_concat
        rw [List.forall₂_map_left_iff] at hrhss
        obtain ⟨hcalls₁, hcalls₂⟩ := List.forall_mem_append.mp hcalls.parts
        rw [List.forall_mem_singleton] at hcalls₂
        rw [Expr.namelessRhss_eq, List.forall_mem_map] at hcalls₁
        have hrhss₀ := Expr.usesRhss_iff.mp he.2.2.1
        -- all right-hand sides and the body are renamed together
        have hoccs : ∀ n ∈ (Binds.rhss binds).flatMap Expr.freeOccs ++ body.freeOccs,
            σ.counters.Settled n := by
          refine List.forall_mem_append.mpr ⟨fun n hn => ?_, Expr.Settled.free he.2.2.2⟩
          obtain ⟨rhs, hrhs, hn⟩ := List.mem_flatMap.mp hn
          exact Expr.Settled.free (hrhss₀ rhs hrhs) n hn
        rw [descend]
        refine .lift_bind fun entered σ₁ hcapture => .lift_bind fun rhss₁ σ₂ hrenames =>
          .lift_bind fun body₁ σ₃ hrename => ?_
        obtain ⟨hopens, hlength, havoids⟩ := avoidCapture_opens hcapture hctx.toHygienic
          (Expr.binders_settled_iff.mp he.2.1) hoccs
        obtain ⟨hgrows₁, hrhss₁⟩ :=
          Opens.applyAll_same hopens hrenames le_rfl hrhss₀ fun rhs hrhs n hn =>
            List.mem_append_left _ (List.mem_flatMap.mpr ⟨rhs, hrhs, hn⟩)
        obtain ⟨hgrows₂, hbody₁, hunder⟩ :=
          Opens.apply_same hopens hrename hgrows₁ he.2.2.2 (List.subset_append_right _ _)
        have hrenaming := (Subst.enterBinders_refreshes hcapture).isRenaming
        have hgrows := hopens.grows.trans (hgrows₁.trans hgrows₂)
        refine (hlower.parts (hrhss₁.imp fun _ _ hrhs => ⟨hrhs.1.mono hgrows₂, hrhs.2⟩) hrhss
          (hctx.mono hgrows) havoids hcalls₁ fun rhs₁ hrhs₁ => ?_).bind fun rhss' σ₄ hrhss' => ?_
        · obtain ⟨rhs, hrhs, hrenamed⟩ := Subst.applyAll_renames hrenames hrenaming rhs₁ hrhs₁
          have hle := Expr.size_le_sizeBinds hrhs
          rw [hrenamed.size]
          omega
        · have hsize₁ := (Subst.apply_renames hrename hrenaming).size
          refine (hlower.under hbody (hctx.mono (hgrows.trans hrhss'.1)) (hbody₁.mono hrhss'.1)
            hunder havoids hcalls₂
            (by omega)).bind fun body' σ₅ hbody' =>
              .pure ⟨hgrows.trans (hrhss'.1.trans hbody'.1), _, rfl, ?_⟩
          have hzip : rhss'.length = entered.2.length := by
            have hcount := congrArg List.length hrhss'.2
            rw [List.length_map, ← hrhss.length_eq] at hcount
            rw [hcount, hlength, Binds.rhss, Binds.binders, List.length_map, List.length_map]
          change (Expr.letRec _ (entered.2.zip rhss') body').nameless = _
          rw [Expr.nameless, Expr.namelessRhss_eq, Binds.names_zip hzip, Binds.rhss_zip hzip,
            hrhss'.2, hbody'.2]

theorem size_le_rhsSizes {decls : List FuncDecl} (h : d ∈ decls) : d.rhs.size ≤ rhsSizes decls := by
  induction decls with
  | nil => cases h
  | cons first rest ih =>
    rw [rhsSizes]
    rcases List.mem_cons.mp h with rfl | h
    · omega
    · exact (ih h).trans (Nat.le_add_left _ _)

end Inline

/-- **Inlining functions that do not refer to each other** puts their calls back. -/
theorem inlineExpr_restores {decls : List FuncDecl} {e : Expr} {t : Nameless} {σ : Session}
    (hdecls : (Inline.Context.ofDecls decls).Flat σ.counters) (he : e.Settled σ.counters)
    (hrestores : Nameless.Restores (Inline.Context.ofDecls decls).decl? e.nameless t) :
    ∃ e' σ', inlineExpr decls e σ = .ok e' σ' ∧ e'.nameless = t := by
  have hcalls : Inline.Calls (Inline.rhsSizes (Inline.Context.ofDecls decls).decls.values)
      (Inline.Context.ofDecls decls) e.nameless := fun _ _ _ hd =>
    ⟨List.not_mem_nil, Inline.size_le_rhsSizes
      (Table.mem_values_of_get? (Inline.Context.get?_of_decl? hd))⟩
  obtain ⟨e', σ', hrun, _, hnameless⟩ :=
    Inline.DescendRestores.value (Inline.descend_restores _) hrestores hdecls he hcalls le_rfl
  exact ⟨e', σ', hrun, hnameless⟩

end StructRec
