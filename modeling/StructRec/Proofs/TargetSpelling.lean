import StructRec.Proofs.Conversions

/-!
# StructRec — target spellings of emitted functions

The target language spells the mark of a generated name as an underscore. Generated names stay
different from each other and from all registered names in this spelling, so from all functions of
the module. They are not compared with parameters and local binders: a variable of the source may be
spelled like a generated name that ends up beside it.
-/

namespace StructRec

variable {functions : List Name}

/-! ## Names that are spelled apart -/

/-- A name without a mark, or a generated one that the target language does not spell like one of
these functions. -/
def Name.IsApart (functions : List Name) (n : Name) : Prop :=
  n.isMarked = false ∨
    ((∃ r k, '@' ∉ r.toList ∧ n = Name.numbered r k) ∧ ∀ f ∈ functions, f.target ≠ n.target)

/-- Generated names are apart from the functions that are registered meanwhile. -/
theorem supplies_isApart (functions : List Name) : Supplies functions (Name.IsApart functions) := by
  intro wanted n σ σ' hfresh hregisters
  obtain ⟨k, rfl⟩ := freshName_numbered hfresh
  obtain ⟨_, _, _, _, hunused⟩ := freshName_spec hfresh
  refine .inr ⟨⟨wanted.root, k, Name.mark_notMem_root wanted, rfl⟩, fun f hf heq => ?_⟩
  have hname : f ∈ σ.env.names :=
    List.mem_append_right _ ((Table.contains_iff_mem_keys _ _).mp (hregisters f hf))
  have hused : σ.env.usesTarget (Name.numbered wanted.root k).target = true :=
    List.any_eq_true.mpr ⟨f, hname, decide_eq_true heq⟩
  rw [hunused] at hused
  cases hused

/-- Two names of one spelling are equal, unless one is generated and the other is a name of the
source that is no function. -/
theorem Name.IsApart.eq_of_target {x y : Name} (hx : x.IsApart functions)
    (hy : y.IsApart functions) (hspelled : x.target = y.target)
    (hlocal : ∀ g n : Name, (g = x ∧ n = y ∨ g = y ∧ n = x) → g.isMarked = true →
      n.isMarked = false → n ∉ functions →
      g.target ≠ n) : x = y := by
  -- a generated name beside a name of the source
  have hclash : ∀ g n : Name, (g = x ∧ n = y ∨ g = y ∧ n = x) → g.target = n.target →
      n.isMarked = false →
      (∃ r k, '@' ∉ r.toList ∧ g = Name.numbered r k) →
        (∀ f ∈ functions, f.target ≠ g.target) → False := by
    rintro g n hpair hsame hn ⟨r, k, _, rfl⟩ hfunctions
    refine hlocal _ n hpair (Name.isMarked_numbered r k) hn
      (fun hmem => hfunctions n hmem hsame.symm) ?_
    rw [hsame, Name.target_of_unmarked hn]
  rcases hx with hx | ⟨hx, hfunctions⟩ <;> rcases hy with hy | ⟨hy, hfunctions'⟩
  · rwa [Name.target_of_unmarked hx, Name.target_of_unmarked hy] at hspelled
  · exact (hclash y x (.inr ⟨rfl, rfl⟩) hspelled.symm hx hy hfunctions').elim
  · exact (hclash x y (.inl ⟨rfl, rfl⟩) hspelled hy hx hfunctions).elim
  · obtain ⟨r, j, hr, rfl⟩ := hx
    obtain ⟨r', k, hr', rfl⟩ := hy
    obtain ⟨rfl, rfl⟩ := Name.target_numbered_injective hr hr' hspelled
    rfl

/-! ## Names of a function -/

namespace FuncDecl

/-- The names that printing a function spells: its own, its parameters, its local binders and its
variables. -/
def printedNames (d : FuncDecl) : List Name :=
  d.name :: (d.paramNames ++ (d.rhs.boundNames ++ d.rhs.freeOccs))

/-- Different names of a function have different target spellings. -/
def TargetDistinct (d : FuncDecl) : Prop :=
  ∀ x ∈ d.printedNames, ∀ y ∈ d.printedNames, x.target = y.target → x = y

/-- No generated name in a function is spelled like a variable of the source beside it that is none
of these functions. -/
def AvoidsLocals (functions : List Name) (d : FuncDecl) : Prop :=
  ∀ g ∈ d.printedNames, ∀ n ∈ d.printedNames, g.isMarked = true → n.isMarked = false →
    n ∉ functions → g.target ≠ n

instance (functions : List Name) (d : FuncDecl) : Decidable (d.AvoidsLocals functions) :=
  inferInstanceAs (Decidable (∀ g ∈ d.printedNames, ∀ n ∈ d.printedNames, _ → _ → _ → _))

/-- Printed are the names that a function uses. -/
theorem forall_printedNames_iff {N : Name → Prop} {d : FuncDecl} :
    (∀ n ∈ d.printedNames, N n) ↔ d.Uses N fun _ => True := by
  have hparams : (∀ n ∈ d.paramNames, N n) ↔
      ∀ b ∈ d.params, b.Uses N (d.InScopeTypes fun _ => True) := by
    rw [paramNames, binderNames, List.forall_mem_map]
    exact forall₂_congr fun b _ =>
      ⟨fun hname => ⟨hname, fun _ _ => .inl trivial⟩, fun hb => hb.name⟩
  rw [printedNames, List.forall_mem_cons, List.forall_mem_append, List.forall_mem_append, hparams]
  constructor
  · rintro ⟨hname, hparams, hbound, hfree⟩
    exact ⟨hname, hparams, fun _ _ => .inl trivial,
      (Expr.uses_iff d.rhs).mpr ⟨hfree, hbound, fun _ _ => .inl trivial⟩⟩
  · intro h
    obtain ⟨hfree, hbound, _⟩ := (Expr.uses_iff d.rhs).mp h.rhs
    exact ⟨h.name, h.params, hbound, hfree⟩

/-- If all names are apart, clashes with variables of the source are the only ones. -/
theorem targetDistinct_iff {d : FuncDecl} (h : ∀ n ∈ d.printedNames, n.IsApart functions) :
    d.TargetDistinct ↔ d.AvoidsLocals functions := by
  constructor
  · intro hdistinct g hg n hn hmarked hunmarked _ hspelled
    have heq : g = n :=
      hdistinct g hg n hn (hspelled.trans (Name.target_of_unmarked hunmarked).symm)
    rw [heq, hunmarked] at hmarked
    cases hmarked
  · intro havoids x hx y hy hspelled
    refine (h x hx).eq_of_target (h y hy) hspelled ?_
    rintro g n (⟨rfl, rfl⟩ | ⟨rfl, rfl⟩)
    · exact havoids g hx n hy
    · exact havoids g hy n hx

end FuncDecl

/-! ## Modules -/

/-- Names along the conversion of the function components of a module. -/
theorem Processed.uses {N : Name → Prop} (hN : Supplies functions N)
    {components : List (Component FuncDecl)} {s s' : Session} {sentences : List Sentence}
    (h : Processed Component.funcsToSentences components s sentences s')
    (hdecls : ∀ d ∈ components.flatMap Component.decls, d.Uses N fun _ => True)
    (hs : s.env.Registers functions) :
    ∀ d ∈ Sentence.funcDeclsOfAll sentences, d.Uses N fun _ => True := by
  induction h with
  | nil => nofun
  | @converted c rest s s₁ s' sentences later hconvert _ ih =>
    rw [List.flatMap_cons, List.forall_mem_append] at hdecls
    rw [Sentence.funcDeclsOfAll_append, List.forall_mem_append]
    cases c with
    | single d =>
      obtain ⟨rfl, rfl⟩ := Compile.pure_ok.mp hconvert
      exact ⟨hdecls.1, ih hdecls.2 hs⟩
    | recursive decls =>
      obtain ⟨hregisters, huses⟩ :=
        groupToSentences_uses hN (Compile.locate_ok.mp hconvert) hdecls.1 hs
      exact ⟨huses, ih hdecls.2 hregisters⟩
  -- a skipped component leaves nothing behind
  | skipped henv _ ih =>
    rw [List.flatMap_cons, List.forall_mem_append] at hdecls
    rw [← henv] at hs
    exact ih hdecls.2 hs

/-- **Target spellings keep the names of an emitted function apart** exactly if none of its
generated names is spelled like a local variable of the source beside it. -/
theorem convertModule_targetDistinct_iff {m : Module} {keepGoing : Bool} {conversion : Conversion}
    {s s' : Session} (hunmarked : ∀ d ∈ m.funcDecls, ∀ n ∈ d.printedNames, n.isMarked = false)
    (h : convertModule keepGoing m s = .ok conversion s') {d : FuncDecl}
    (hd : d ∈ Sentence.funcDeclsOfAll conversion.sentences) :
    d.TargetDistinct ↔ d.AvoidsLocals (m.funcDecls.map FuncDecl.name) := by
  refine FuncDecl.targetDistinct_iff (FuncDecl.forall_printedNames_iff.mpr ?_)
  generalize hsentences : conversion.sentences = sentences at hd
  have hrun := convertModule_ok h
  rw [hsentences] at hrun
  obtain ⟨hregistered, htypes, hfuncs⟩ := hrun
  obtain ⟨hadds, hdefines⟩ := htypes.types
  -- the functions are registered before the types, and types take no function away
  have hregisters := hadds.registers (hregistered ▸ m.registers_registered s.env _)
  rw [Sentence.funcDeclsOfAll_append, Sentence.funcDeclsOfAll_types hdefines, List.nil_append] at hd
  refine hfuncs.uses (supplies_isApart _) (fun d hd => ?_) hregisters d hd
  have hmem : d ∈ m.funcDecls := (Dependency.flatMap_components_perm m.funcDecls).mem_iff.mp hd
  exact FuncDecl.forall_printedNames_iff.mp fun n hn => .inl (hunmarked d hmem n hn)

/-- A walk down a list, with a local variable that is spelled like the first helper of the
function. -/
def helperLikeLocal : Module where
  name := "HelperLikeLocal"
  funcDecls := [{ name := "f", params := [{ name := "x" }]
                  rhs := .case {} (.var {} "x") [(.con "Nil" [], .con {} "Zero"),
                    (.con "Cons" [{ name := "f_helper_0" }, { name := "ys" }],
                      .app {} (.var {} "f") (.var {} "ys"))] }]

/-- Its helper `f_helper@0` calls itself under that variable, so the printed call is one of the
variable. -/
theorem helperLikeLocal_not_targetDistinct :
    (∀ d ∈ helperLikeLocal.funcDecls, ∀ n ∈ d.printedNames, n.isMarked = false) ∧
      ∃ conversion s', convertModule false helperLikeLocal {} = .ok conversion s' ∧
        ∃ d ∈ Sentence.funcDeclsOfAll conversion.sentences, ¬ d.TargetDistinct := by
  have hunmarked : ∀ d ∈ helperLikeLocal.funcDecls, ∀ n ∈ d.printedNames,
    n.isMarked = false := by decide
  refine ⟨hunmarked, ?_⟩
  obtain ⟨conversion, s', h, hcheck⟩ := Compile.exists_of_succeedsWith
    (p :=
      fun conversion => (Sentence.funcDeclsOfAll conversion.sentences).any fun d =>
        decide (¬ d.AvoidsLocals ["f"]))
    (x := convertModule false helperLikeLocal) (s := {}) (by decide +kernel)
  obtain ⟨d, hd, hclash⟩ := List.any_eq_true.mp hcheck
  exact ⟨conversion, s', h, d, hd,
    (convertModule_targetDistinct_iff hunmarked h hd).not.mpr (of_decide_eq_true hclash)⟩

end StructRec
