import StructRec.Proofs.Registration
import StructRec.Proofs.TypeArguments

/-!
# StructRec — groups with pragmas

Where every function of a group has a pragma, the pragmas are taken at their word: nothing is known
of the calls in the group. Then a main function may still call the group outside of the cases on its
decreasing parameter. Such a call is harmless if it goes to an earlier function: the definitions of
the main functions stand in their order, and inlining them ends. If it goes to the function itself
or to a later one, either inlining fails or a definition refers to what is not defined yet. So
conversion succeeds, with definitions that refer to earlier ones only, exactly if the functions
refer back (`RefersBack`) outside of these cases.
-/

namespace StructRec

/-! ## References in order -/

/-- Functions with what they refer to: none refers to itself or to a later one. -/
def RefersBack : List (Name × List Name) → Prop
  | [] => True
  | (name, refs) :: rest => (∀ n ∈ name :: rest.map Prod.fst, n ∉ refs) ∧ RefersBack rest

instance decidableRefersBack : (xs : List (Name × List Name)) → Decidable (RefersBack xs)
  | [] => .isTrue trivial
  | (name, refs) :: rest =>
    let _ := decidableRefersBack rest
    inferInstanceAs (Decidable ((∀ n ∈ name :: rest.map Prod.fst, n ∉ refs) ∧ RefersBack rest))

/-- Only references among the functions count. -/
theorem refersBack_congr (f : Name → Name) (group : List Name) {xs ys : List (Name × List Name)}
    (h : List.Forall₂
      (fun x y => y.1 = f x.1 ∧ x.1 ∈ group ∧ ∀ n ∈ group, (f n ∈ y.2 ↔ n ∈ x.2)) xs ys) :
    RefersBack xs ↔ RefersBack ys := by
  induction h with
  | nil => exact Iff.rfl
  | @cons x y xs ys hfirst hrest ih =>
    have hnames : ys.map Prod.fst = (xs.map Prod.fst).map f := by
      rw [List.map_map]
      exact (hrest.map_eq_map fun _ _ h => h.1.symm).symm
    have hgroup : ∀ n ∈ x.1 :: xs.map Prod.fst, n ∈ group := by
      refine List.forall_mem_cons.mpr ⟨hfirst.2.1, List.forall_mem_map.mpr fun x' hx' => ?_⟩
      obtain ⟨y', _, hy'⟩ := hrest.exists_right hx'
      exact hy'.2.1
    refine and_congr ?_ ih
    have hcons : y.1 :: ys.map Prod.fst = (x.1 :: xs.map Prod.fst).map f := by
      rw [hnames, hfirst.1, List.map_cons]
    rw [hcons, List.forall_mem_map]
    exact forall₂_congr fun n hn => not_congr (hfirst.2.2 n (hgroup n hn)).symm

/-- A function refers to none of those from its place on. -/
theorem RefersBack.getElem {decls : List FuncDecl}
    (h : RefersBack (decls.map fun d => (d.name, d.freeVars))) {i : Nat} {d : FuncDecl}
    (hi : decls[i]? = some d) :
    ∀ n ∈ (decls.drop i).map FuncDecl.name, n ∉ d.freeVars := by
  induction decls generalizing i with
  | nil => cases hi
  | cons first rest ih =>
    cases i with
    | zero =>
      obtain rfl := Option.some.inj hi
      have hfirst := h.1
      rwa [List.map_map] at hfirst
    | succ i => exact ih h.2 hi

namespace Sentence

mutual

/-- No definition refers to itself or to a function that is defined later. Variables of the sections
around are given, and the functions defined after the sentence. -/
def InOrder (vars later : List Name) : Sentence → Prop
  | dataTypes _ | synonym _ | fixpoint _ => True
  | definition d => ∀ n ∈ d.freeVars, n ∉ vars → n ≠ d.name ∧ n ∉ later
  | .shared _ _ own sentences => AllInOrder (binderNames own ++ vars) later sentences

def AllInOrder (vars later : List Name) : List Sentence → Prop
  | [] => True
  | s :: rest => s.InOrder vars (funcNames rest ++ later) ∧ AllInOrder vars later rest

end

variable {vars later : List Name}

/-- Definitions are in order if each refers back. -/
theorem allInOrder_definitions {decls : List FuncDecl}
    (hvars : ∀ n ∈ decls.map FuncDecl.name, n ∉ vars)
    (hlater : ∀ d ∈ decls, ∀ n ∈ d.freeVars, n ∉ vars → n ∉ later) :
    AllInOrder vars later (decls.map .definition) ↔
      RefersBack (decls.map fun d => (d.name, d.freeVars)) := by
  -- the functions after the first are defined later than it
  induction decls with
  | nil => exact Iff.rfl
  | cons d rest ih =>
    rw [List.map_cons, List.forall_mem_cons] at hvars
    rw [List.forall_mem_cons] at hlater
    rw [List.map_cons, List.map_cons, AllInOrder, funcNames_definitions, RefersBack,
      ih hvars.2 hlater.2, List.map_map, InOrder]
    refine and_congr_left fun _ => ?_
    change (∀ n ∈ d.freeVars, n ∉ vars → n ≠ d.name ∧ n ∉ rest.map FuncDecl.name ++ later) ↔
      ∀ n ∈ d.name :: rest.map FuncDecl.name, n ∉ d.freeVars
    constructor
    · intro h
      refine List.forall_mem_cons.mpr ⟨fun hmem => (h _ hmem hvars.1).1 rfl, fun n hn hmem => ?_⟩
      exact (h n hmem (hvars.2 n hn)).2 (List.mem_append_left _ hn)
    · intro h n hmem hfree
      rw [List.forall_mem_cons] at h
      refine ⟨fun heq => h.1 (heq ▸ hmem), fun hother => ?_⟩
      exact (List.mem_append.mp hother).elim (fun hn => h.2 n hn hmem) (hlater.1 n hmem hfree)

end Sentence

/-! ## Groups without constant parameters -/

/-- What the functions of a group refer to outside of the cases on their decreasing parameters. -/
def outerReferences (decls : List FuncDecl) (positions : List Nat) : List (Name × List Name) :=
  (decls.zip positions).map fun p => (p.1.name, p.1.outerVars p.2)

namespace Split

/-- A group that can be split: its functions are distinct and give each other their types. -/
structure Ready (c : Counters) (decls : List FuncDecl) (positions : List Nat) : Prop where
  nodup : (decls.map FuncDecl.name).Nodup
  settled : ∀ d ∈ decls, c.Settled d.name
  types : TypesApplied decls
  positions : List.Forall₂ (fun d i => i < d.arity) decls positions

section

variable {decls mains : List FuncDecl} {positions : List Nat} {σ σ' : Session}

/-- The main functions of a group. -/
abbrev Remainders (c : Counters) (decls : List FuncDecl) (positions : List Nat)
    (mains : List FuncDecl) : Prop :=
  List.Forall₂ (fun p main => Remainder c p.1 p.2 main) (decls.zip positions) mains

/-- A main function is what remains of a function of the group. -/
theorem exists_of_main {c : Counters} (hmains : Remainders c decls positions mains)
    {main : FuncDecl} (hmain : main ∈ mains) : ∃ d ∈ decls, ∃ i, Remainder c d i main := by
  obtain ⟨p, hp, hremainder⟩ := hmains.exists_left hmain
  exact ⟨p.1, (List.of_mem_zip hp).1, p.2, hremainder⟩

namespace Ready

variable {c : Counters}

theorem map_zip (h : Ready c decls positions) :
    (decls.zip positions).map (·.1.name) = decls.map FuncDecl.name := by
  change (decls.zip positions).map (FuncDecl.name ∘ Prod.fst) = _
  rw [← List.map_map, List.map_fst_zip h.positions.length_eq.le]

theorem names_mains (h : Ready c decls positions) (hmains : Remainders c decls positions mains) :
    mains.map FuncDecl.name = decls.map FuncDecl.name := by
  rw [← h.map_zip]
  exact (hmains.map_eq_map fun _ _ hmain => hmain.name.symm).symm

/-- What is left of a function refers to what the function refers to outside of its cases. -/
theorem refersBack_iff (h : Ready c decls positions) (hmains : Remainders c decls positions mains) :
    RefersBack (outerReferences decls positions) ↔
      RefersBack (mains.map fun d => (d.name, d.freeVars)) := by
  refine refersBack_congr id (decls.map FuncDecl.name) ?_
  rw [outerReferences, List.forall₂_map_left_iff, List.forall₂_map_right_iff]
  refine hmains.with_mem.imp fun p main hmain => ⟨hmain.2.name, ?_, fun n hn => ?_⟩
  · exact List.mem_map_of_mem (List.of_mem_zip hmain.1.1).1
  · obtain ⟨d, hd, rfl⟩ := List.mem_map.mp hn
    exact hmain.2.freeVars d.name (h.settled d hd)

/-- Main functions that refer back can be inlined. -/
theorem inOrder (h : Ready c decls positions) (hmains : Remainders c decls positions mains)
    (hback : RefersBack (mains.map fun d => (d.name, d.freeVars))) : Inline.InOrder mains := by
  refine ⟨h.names_mains hmains ▸ h.nodup,
    fun i main hi x hx hparam => ⟨fun hmem => ?_, fun main' hmain' hname => ?_⟩⟩
  · have hfree : x.1 ∈ main.freeVars :=
      List.mem_filter.mpr ⟨Expr.mem_freeOccs_of_mem_heads hx, decide_eq_true hparam⟩
    exact hback.getElem hi x.1 hmem hfree
  · obtain ⟨d, hd, _, hremainder⟩ := exists_of_main hmains (List.mem_of_getElem? hi)
    obtain ⟨g, hg, _, hremainder'⟩ := exists_of_main hmains hmain'
    have hname' : g.name = x.1 := hremainder'.name.symm.trans hname
    rw [FuncDecl.paramNames, hremainder.params] at hparam
    rw [hremainder'.typeParams]
    exact h.types d hd x (hremainder.heads x hx (hname' ▸ h.settled g hg) hparam) hparam g hg hname'

/-- The helpers of a group give the functions their types too, so they can be inlined into. -/
theorem inline_succeeds (h : Ready c decls positions) (hmains : Remainders c decls positions mains)
    (hback : RefersBack (mains.map fun d => (d.name, d.freeVars))) {helpers : List Helper}
    (hhelpers : ∀ x ∈ helpers, ∃ p ∈ decls.zip positions,
      HelperOf (paramScope p.1) (p.1.rhs.heads []) x) :
    (helpers.mapM fun x => inlineDecl mains x.decl).Succeeds
      (List.Forall₂ (fun (x : Helper) (d : FuncDecl) => d.params.length = x.decl.params.length)
        helpers) := by
  refine .mapM fun helper hhelper =>
    inlineDecl_succeeds (h.inOrder hmains hback) fun x hx hparam main hmain hname => ?_
  obtain ⟨p, hp, hof⟩ := hhelpers helper hhelper
  obtain ⟨hmem, hfree⟩ := hof.heads x hx hparam
  rw [isDefined_paramScope, decide_eq_false_iff_not] at hfree
  obtain ⟨g, hg, _, hremainder⟩ := exists_of_main hmains hmain
  rw [hremainder.typeParams]
  exact h.types p.1 (List.of_mem_zip hp).1 x hmem hfree g hg (hremainder.name.symm.trans hname)

end Ready

/-- Every helper has a body for the fixpoint. -/
theorem exists_bodies {helpers : List Helper} {inlined : List FuncDecl}
    (h : List.Forall₂ (fun (x : Helper) (d : FuncDecl) => d.params.length = x.decl.params.length)
      helpers inlined)
    (hcaptured : ∀ x ∈ helpers, x.decreasing < x.decl.arity) :
    ∃ bodies, List.Forall₂ (fun p b => IsBody p.1 p.2 b) (helpers.zip inlined) bodies := by
  induction h with
  | nil => exact ⟨[], .nil⟩
  | @cons x d helpers inlined hlength _ ih =>
    rw [List.forall_mem_cons] at hcaptured
    obtain ⟨bodies, hbodies⟩ := ih hcaptured.2
    have hindex : x.decreasing < d.params.length := hlength ▸ hcaptured.1
    let decreasing : DecreasingParam :=
      { index := x.decreasing, name := d.params[x.decreasing].name }
    refine ⟨{ decl := d, decreasing } :: bodies, .cons ⟨rfl, rfl, ?_⟩ hbodies⟩
    rw [FuncDecl.paramNames, binderNames, List.getElem?_map, List.getElem?_eq_getElem hindex]
    rfl

/-- **A group without constant parameters.** -/
theorem toSentences_inOrder_iff (h : Ready σ.counters decls positions) (vars later : List Name)
    (hvars : ∀ n ∈ decls.map FuncDecl.name, n ∉ vars) (hsettled : ∀ n ∈ later, σ.counters.Settled n)
    (hlater : ∀ p ∈ decls.zip positions, ∀ n ∈ p.1.outerVars p.2, n ∈ later → n ∈ vars) :
    (∃ sentences σ', toSentences decls positions σ = .ok sentences σ' ∧
      Sentence.AllInOrder vars later sentences) ↔
      RefersBack (outerReferences decls positions) := by
  have hpositions : ∀ p ∈ decls.zip positions, p.2 < p.1.arity := fun p hp =>
    (List.forall₂_iff_zip.mp h.positions).2 hp
  obtain ⟨helpers, mains, σ₁, hsplit, _, hhelpers, hmains⟩ := splitAll_remainder hpositions σ
  have hdefinitions : Sentence.AllInOrder vars later (mains.map .definition) ↔
      RefersBack (mains.map fun d => (d.name, d.freeVars)) := by
    refine Sentence.allInOrder_definitions (h.names_mains hmains ▸ hvars)
      fun main hmain n hn hfree hmem => hfree ?_
    obtain ⟨p, hp, hremainder⟩ := hmains.exists_left hmain
    exact hlater p hp n ((hremainder.freeVars n (hsettled n hmem)).mp hn) hmem
  rw [h.refersBack_iff hmains]
  constructor
  · rintro ⟨sentences, σ', hrun, horder⟩
    -- the run splits the group in the same way
    obtain @⟨helpers', mains', inlined, bodies, σ₁', σ₂, hsplit', hinline, hbodies⟩ :=
      toSentences_ok.mp hrun
    obtain ⟨heq, -⟩ := EStateM.Result.ok.inj (hsplit.symm.trans hsplit')
    obtain ⟨-, rfl⟩ := Prod.mk.inj heq
    exact hdefinitions.mp horder.2
  · intro hback
    obtain ⟨inlined, σ₂, hinline, hlength⟩ := h.inline_succeeds hmains hback hhelpers σ₁
    obtain ⟨bodies, hbodies⟩ := exists_bodies hlength fun x hx => by
      obtain ⟨p, _, hof⟩ := hhelpers x hx
      exact hof.captured
    exact ⟨_, _, toSentences_ok.mpr (.intro hsplit hinline hbodies), trivial,
      hdefinitions.mpr hback⟩

end

end Split

/-! ## Pragmas -/

namespace Decreasing

theorem ofPragma_congr {env env' : Environment} {d : FuncDecl}
    (h : env'.pragmas.get? d.name = env.pragmas.get? d.name) :
    ofPragma env' d = ofPragma env d := by
  unfold ofPragma
  rw [h]

/-- Where every function has a pragma, the pragmas are the choice. -/
theorem choose_of_pragmas {env : Environment} {decls : List FuncDecl} {positions : List Nat}
    (h : List.Forall₂ (fun d i => ofPragma env d = .ok (some i)) decls positions) :
    choose env decls = .ok positions := by
  have hpragmas : decls.mapM (ofPragma env) = .ok (positions.map some) := by
    induction h with
    | nil => rfl
    | cons hfirst _ ih =>
      rw [List.mapM_cons, hfirst, ih]
      rfl
  have hfixed : (positions.map some).mapM id = some positions := by
    clear h hpragmas
    induction positions with
    | nil => rfl
    | cons i rest ih =>
      rw [List.map_cons, List.mapM_cons, ih]
      rfl
  rw [choose, hpragmas]
  simp only [bind, Except.bind, hfixed]
  rfl

end Decreasing

namespace Hoist

variable {α : Type} {i : Nat}

/-- The position of a parameter among those that are not constant. -/
def innerPosition (positions : List Nat) (i : Nat) : Nat := i - (positions.filter (· < i)).length

/-- What stood at a position stands at the count of positions that are left before it. -/
theorem getElem?_filter_zipIdx (positions : List Nat) (xs : List α) (start i : Nat)
    (hi : start + i ∉ positions) :
    (((xs.zipIdx start).filter fun (_, k) => k ∉ positions).map
      Prod.fst)[((List.range' start i).filter (· ∉ positions)).length]?
      = xs[i]? := by
  induction xs generalizing start i with
  | nil => simp
  | cons x rest ih =>
    cases i with
    | zero => simp_all
    | succ i =>
      have hrest := ih (start + 1) i (by rwa [Nat.add_assoc, Nat.add_comm 1 i])
      rw [List.zipIdx_cons, List.range'_succ]
      by_cases hstart : start ∈ positions
      · simpa [hstart] using hrest
      · simpa [hstart] using hrest

/-- The inner position counts the positions that are left before it. -/
theorem length_filter_range (positions : List Nat) (hnodup : positions.Nodup) (i : Nat) :
    ((List.range i).filter (· ∉ positions)).length = innerPosition positions i := by
  have hperm : ((List.range i).filter (· ∈ positions)).Perm (positions.filter (· < i)) := by
    rw [List.perm_ext_iff_of_nodup (List.nodup_range.filter _) (hnodup.filter _)]
    intro k
    simp [and_comm]
  have hparts :=
    List.length_eq_length_filter_add (l := List.range i) (fun k => decide (k ∈ positions))
  rw [List.length_range, hperm.length_eq] at hparts
  have hnot : ((List.range i).filter fun k => !decide (k ∈ positions)) =
      (List.range i).filter (· ∉ positions) := by
    simp only [decide_not]
  rw [hnot] at hparts
  unfold innerPosition
  omega

/-- Dropping other elements moves an element down. -/
theorem getElem?_dropAt {positions : List Nat} (hnodup : positions.Nodup) (hi : i ∉ positions)
    (xs : List α) : (dropAt positions xs)[innerPosition positions i]? = xs[i]? := by
  rw [← length_filter_range positions hnodup, List.range_eq_range', dropAt]
  exact getElem?_filter_zipIdx positions xs 0 i (by rwa [Nat.zero_add])

/-- A pragma for a parameter that is not constant is one for the inner function too. -/
theorem innerPragma_of_ofPragma {env : Environment} {positions : List Nat} {d : FuncDecl}
    (h : Decreasing.ofPragma env d = .ok (some i)) (hi : i ∉ positions) :
    ∃ span, innerPragma env positions d =
      .ok (some { param := .index (innerPosition positions i), span }) := by
  obtain ⟨param, hparam⟩ : ∃ param, d.params[i]? = some param :=
    ⟨_, List.getElem?_eq_getElem (Decreasing.lt_of_ofPragma h)⟩
  unfold Decreasing.ofPragma at h
  unfold innerPragma
  split at h
  · cases h
  · next index span hpragma =>
    split at h
    · obtain rfl := Option.some.inj (Except.ok.inj h)
      refine ⟨span, ?_⟩
      rw [hpragma]
      simp only [Option.bind_some, hparam, Option.map_some, if_neg hi]
      rfl
    · cases h
  · -- a pragma by name is turned into one by position
    next name span hpragma =>
    split at h
    · next j hj =>
      obtain rfl := Option.some.inj (Except.ok.inj h)
      refine ⟨span, ?_⟩
      rw [hpragma]
      simp only [hj, Option.bind_some, hparam, Option.map_some, if_neg hi]
      rfl
    · cases h

section register

variable {positions : List Nat} {σ : Session}

/-- **An inner function takes over the pragma**, moved to its inner position. -/
theorem registerInner_succeeds {d : FuncDecl} (inner : FuncDecl)
    (h : Decreasing.ofPragma σ.env d = .ok (some i)) (hi : i ∉ positions) :
    ∃ σ' span, registerInner positions d inner σ = .ok () σ' ∧ σ'.counters = σ.counters ∧
      ∀ n, σ'.env.pragmas.get? n
        = if inner.name = n then some { param := .index (innerPosition positions i), span }
          else σ.env.pragmas.get? n := by
  let entry := { FuncEntry.ofDecl inner with
    needsFreeArgs := σ.env.needsFreeArgs d.name, isPartial := σ.env.isPartial d.name }
  have hkept : Decreasing.ofPragma (σ.env.addFunc entry) d = .ok (some i) :=
    (Decreasing.ofPragma_congr rfl).trans h
  obtain ⟨span, hspan⟩ := innerPragma_of_ofPragma hkept hi
  let pragma : PragmaEntry := { param := .index (innerPosition positions i), span }
  refine ⟨{ σ with env := (σ.env.addFunc entry).addPragma inner.name pragma }, span, ?_, rfl,
    fun n => ?_⟩
  · refine Compile.bind_ok.mpr ⟨(), { σ with env := σ.env.addFunc entry }, rfl, ?_⟩
    refine Compile.bind_ok.mpr ⟨σ.env.addFunc entry, _, rfl, ?_⟩
    rw [hspan]
    rfl
  · exact Table.get?_insert _ _ _ _

/-- Registering the inner functions gives them the pragmas of the functions. -/
theorem registerAll_succeeds {inner : FuncDecl → FuncDecl} {decls : List FuncDecl}
    {chosen : List Nat}
    (h : List.Forall₂
      (fun d i => Decreasing.ofPragma σ.env d = .ok (some i) ∧ i ∉ positions) decls chosen)
    (hnodup : (decls.map fun d => (inner d).name).Nodup)
    (hdistinct : ∀ d ∈ decls, ∀ d' ∈ decls, d.name ≠ (inner d').name) :
    ∃ σ', ((decls.zip (decls.map inner)).forM fun (d, inner) => registerInner positions d inner)
      σ = .ok () σ' ∧
      σ'.counters = σ.counters ∧
      (∀ n, n ∉ decls.map (fun d => (inner d).name) →
        σ'.env.pragmas.get? n = σ.env.pragmas.get? n) ∧
      List.Forall₂ (fun d i => ∃ span, σ'.env.pragmas.get? (inner d).name
        = some { param := .index (innerPosition positions i), span }) decls chosen := by
  induction decls generalizing σ chosen with
  | nil =>
    cases h
    exact ⟨σ, rfl, rfl, fun _ _ => rfl, .nil⟩
  | cons d rest ih =>
    cases h with
    | @cons _ i _ chosen hfirst hrest =>
      rw [List.map_cons, List.nodup_cons] at hnodup
      obtain ⟨σ₁, span, hrun, hcounters, hpragmas⟩ :=
        registerInner_succeeds (inner d) hfirst.1 hfirst.2
      -- the pragmas of the functions still to come are as before
      have hlater : List.Forall₂
          (fun d i => Decreasing.ofPragma σ₁.env d = .ok (some i) ∧ i ∉ positions) rest chosen := by
        refine hrest.with_mem.imp fun d' i' hd' =>
          ⟨(Decreasing.ofPragma_congr ?_).trans hd'.2.1, hd'.2.2⟩
        rw [hpragmas,
          if_neg (hdistinct d' (List.mem_cons_of_mem _ hd'.1.1) d List.mem_cons_self).symm]
      obtain ⟨σ', hrun', hcounters', hkept, hinner⟩ := ih hlater hnodup.2 fun d' hd' d'' hd'' =>
        hdistinct d' (List.mem_cons_of_mem _ hd') d'' (List.mem_cons_of_mem _ hd'')
      refine ⟨σ', Compile.bind_ok.mpr ⟨(), σ₁, hrun, hrun'⟩, hcounters'.trans hcounters,
        fun n hn => ?_, .cons ⟨span, ?_⟩ hinner⟩
      · rw [List.map_cons, List.mem_cons, not_or] at hn
        rw [hkept n hn.2, hpragmas, if_neg fun heq => hn.1 heq.symm]
      · rw [hkept _ hnodup.1, hpragmas, if_pos rfl]

end register

/-! ## Constant parameters -/

section constant

variable {decls : List FuncDecl} {p : Nat}

/-- Every function has a parameter at a constant position, and every call passes it on. -/
theorem of_mem_constantPositions (hp : p ∈ constantPositions decls) :
    (∀ d ∈ decls, p < d.params.length) ∧ ∀ d ∈ decls, ∀ call ∈ d.calls (decls.map FuncDecl.name),
      call.passesUnchanged p = true := by
  obtain ⟨hshare, hcalls⟩ := Bool.and_eq_true_iff.mp (List.mem_filter.mp hp).2
  refine ⟨fun d hd => ?_, fun d hd call hcall =>
    List.all_eq_true.mp hcalls call (List.mem_flatMap.mpr ⟨d, hd, hcall⟩)⟩
  cases decls with
  | nil => cases hd
  | cons first rest =>
    unfold shareParam at hshare
    simp only at hshare
    split at hshare
    · cases hshare
    · next name hname =>
      have hget := of_decide_eq_true (List.all_eq_true.mp hshare d hd)
      have hlt := (List.getElem?_eq_some_iff.mp hget).1
      rwa [FuncDecl.paramNames, length_binderNames] at hlt

theorem mapM_isSome {β : Type} {f : α → Option β} {xs : List α} (h : ∀ x ∈ xs, ∃ y, f x = some y) :
    ∃ ys, xs.mapM f = some ys := by
  induction xs with
  | nil => exact ⟨[], rfl⟩
  | cons x rest ih =>
    rw [List.forall_mem_cons] at h
    obtain ⟨y, hy⟩ := h.1
    obtain ⟨ys, hys⟩ := ih h.2
    refine ⟨y :: ys, ?_⟩
    rw [List.mapM_cons, hy, hys]
    rfl

theorem annotationAt?_isSome (h : ∀ d ∈ decls, p < d.params.length) :
    ∃ ty, annotationAt? p decls = some ty := by
  induction decls with
  | nil => exact ⟨none, rfl⟩
  | cons d rest ih =>
    rw [List.forall_mem_cons] at h
    rw [annotationAt?, List.getElem?_eq_getElem h.1]
    obtain ⟨name, ty, span⟩ := d.params[p]
    cases ty with
    | none => exact ih h.2
    | some ty => exact ⟨some ty, rfl⟩

/-- Constant arguments are there in every function. -/
theorem sectionVariables?_isSome {first : FuncDecl} (hfirst : decls.head? = some first) :
    ∃ vars, sectionVariables? decls (constantPositions decls) = some vars := by
  refine mapM_isSome fun p hp => ?_
  obtain ⟨hlength, _⟩ := of_mem_constantPositions hp
  obtain ⟨ty, hty⟩ := annotationAt?_isSome hlength
  obtain ⟨b, hb⟩ : ∃ b, first.params[p]? = some b :=
    ⟨_, List.getElem?_eq_getElem (hlength first (List.mem_of_mem_head? hfirst))⟩
  exact ⟨{ b with ty }, by simp [hfirst, hb, hty]⟩

/-- Every function has a definition after the section. -/
theorem wrapper?_isSome (plan : Plan) (hpositions : plan.positions = constantPositions decls) :
    ∃ wrappers, decls.mapM plan.wrapper? = some wrappers := by
  refine mapM_isSome fun d hd => ?_
  have hshared : ∃ shared, plan.positions.mapM (fun p => d.params[p]?) = some shared := by
    refine mapM_isSome fun p hp => ?_
    have hlt := (of_mem_constantPositions (hpositions ▸ hp)).1 d hd
    exact ⟨_, List.getElem?_eq_getElem hlt⟩
  obtain ⟨shared, hshared⟩ := hshared
  unfold Plan.wrapper?
  rw [hshared]
  exact ⟨_, rfl⟩

end constant

end Hoist

/-! ## Groups with pragmas -/

/-- A group of distinct functions without type parameters that are not applied to types either. No
name is marked, and every function has a pragma for a parameter that is not constant. -/
structure PragmaGroup (env : Environment) (decls : List FuncDecl) (positions : List Nat) :
    Prop where
  nodup : (decls.map FuncDecl.name).Nodup
  unmarked : ∀ d ∈ decls, ∀ n ∈ d.names, n.isMarked = false
  typeParams : ∀ d ∈ decls, d.typeParams = []
  typed : ∀ d ∈ decls, ∀ n ∈ d.rhs.typedHeads, n ∉ d.paramNames → n ∉ decls.map FuncDecl.name
  pragmas :
    List.Forall₂ (fun d i => Decreasing.ofPragma env d = .ok (some i) ∧ i ∉ constantPositions decls)
    decls positions

namespace PragmaGroup

variable {env : Environment} {decls : List FuncDecl} {positions : List Nat} {c : Counters}
  {d : FuncDecl}

theorem settled (h : PragmaGroup env decls positions) (hd : d ∈ decls) {n : Name}
    (hn : n ∈ d.names) : c.Settled n :=
  Counters.settled_of_unmarked (h.unmarked d hd n hn)

theorem settled_name (h : PragmaGroup env decls positions) (hd : d ∈ decls) : c.Settled d.name :=
  h.settled hd List.mem_cons_self

theorem settled_params (h : PragmaGroup env decls positions) (hd : d ∈ decls) :
    ∀ n ∈ d.paramNames, c.Settled n :=
  fun _ hn => h.settled hd (List.mem_cons_of_mem _ (List.mem_append_left _ hn))

theorem uses_rhs (h : PragmaGroup env decls positions) (hd : d ∈ decls) :
    d.rhs.Uses c.Settled fun _ => True := by
  refine (Expr.uses_iff _).mpr ⟨fun n hn => ?_, fun n hn => ?_, fun _ _ => trivial⟩
  · by_cases hparam : n ∈ d.paramNames
    · exact h.settled_params hd n hparam
    · refine h.settled hd
        (List.mem_cons_of_mem _ (List.mem_append_right _ (List.mem_append_left _ ?_)))
      exact FuncDecl.mem_references_iff.mpr (.inl ⟨hn, hparam⟩)
  · exact h.settled hd
      (List.mem_cons_of_mem _ (List.mem_append_right _ (List.mem_append_right _ hn)))

theorem typesApplied (h : PragmaGroup env decls positions) : TypesApplied decls :=
  fun d hd x hx hparam => typesFirst_of_untyped h.typeParams hx (h.typed d hd x.1 · hparam)

/-- A group with pragmas can be split. -/
theorem ready (h : PragmaGroup env decls positions) : Split.Ready c decls positions where
  nodup := h.nodup
  settled _ hd := h.settled_name hd
  types := h.typesApplied
  positions := h.pragmas.imp fun _ _ hd => Decreasing.lt_of_ofPragma hd.1

end PragmaGroup

namespace Hoist

section group

variable {decls : List FuncDecl} {positions : List Nat} {σ : Session} {c' : Counters}
  {entries : List (Name × Name)} {plan : Plan}

theorem passesUnchanged_of_constant (hpositions : plan.positions = constantPositions decls)
    {d : FuncDecl} (hd : d ∈ decls) :
    ∀ call ∈ d.calls (decls.map FuncDecl.name), ∀ p ∈ plan.positions,
      call.passesUnchanged p = true :=
  fun call hcall _ hp => (of_mem_constantPositions (hpositions ▸ hp)).2 d hd call hcall

/-- The pragma of a function points at the same parameter of the inner function. -/
theorem exists_param (h : PragmaGroup σ.env decls positions)
    (hpositions : plan.positions = constantPositions decls) {p : FuncDecl × Nat}
    (hp : p ∈ decls.zip positions) :
    ∃ param, p.1.params[p.2]? = some param ∧
      (plan.reduce p.1).params[innerPosition plan.positions p.2]? = some param := by
  obtain ⟨hpragma, hconstant⟩ := (List.forall₂_iff_zip.mp h.pragmas).2 hp
  have hparam : p.1.params[p.2]? = some _ :=
    List.getElem?_eq_getElem (Decreasing.lt_of_ofPragma hpragma)
  have hnodup : plan.positions.Nodup := hpositions ▸ List.nodup_range.filter _
  exact ⟨_, hparam, (getElem?_dropAt hnodup (hpositions ▸ hconstant) p.1.params).trans hparam⟩

theorem zip_reduced (f : FuncDecl → FuncDecl) (g : Nat → Nat) :
    (decls.map f).zip (positions.map g) = (decls.zip positions).map fun p => (f p.1, g p.2) :=
  List.zip_map ..

/-- **Inner functions refer back** if the functions do. -/
theorem PlanFor.refersBack_iff (hplan : PlanFor σ.counters c' decls entries plan)
    (h : PragmaGroup σ.env decls positions)
    (hpositions : plan.positions = constantPositions decls) :
    RefersBack
      (outerReferences (decls.map plan.reduce) (positions.map (innerPosition plan.positions))) ↔
      RefersBack (outerReferences decls positions) := by
  rw [outerReferences, outerReferences, zip_reduced, List.map_map]
  refine (refersBack_congr (fun g => (plan.innerNames.get? g).getD g)
    (decls.map FuncDecl.name) ?_).symm
  rw [List.forall₂_map_left_iff, List.forall₂_map_right_iff, List.forall₂_same]
  intro p hp
  have hd := (List.of_mem_zip hp).1
  refine ⟨rfl, List.mem_map_of_mem hd, List.forall_mem_map.mpr fun d' hd' => ?_⟩
  obtain ⟨param, hparam, hinner⟩ := exists_param h hpositions hp
  rw [hplan.get?_name h.nodup hd']
  exact reduce_outerVars (hplan.innerNames fun _ => h.settled_name) (h.settled_params hd)
    (h.uses_rhs hd)
    (passesUnchanged_of_constant hpositions hd) hparam hinner (hplan.get?_name h.nodup hd')

/-- **The inner group** can be split. -/
theorem PlanFor.reduced_ready {c : Counters} {chosen : List Nat}
    (hplan : PlanFor c c' decls entries plan) (hnodup : (decls.map FuncDecl.name).Nodup)
    (htypes : TypesApplied (decls.map plan.reduce))
    (hchosen : List.Forall₂ (fun d i => i < d.arity) (decls.map plan.reduce) chosen) :
    Split.Ready c' (decls.map plan.reduce) chosen := by
  have hnames := hplan.reduced_names hnodup
  refine ⟨hnames ▸ hplan.nodup, List.forall_mem_map.mpr fun d hd => (hplan.new _ ?_).2,
    htypes, hchosen⟩
  rw [← hnames]
  exact List.mem_map_of_mem (List.mem_map_of_mem hd)

/-- The inner functions of a group with pragmas can be split. -/
theorem PlanFor.ready (hplan : PlanFor σ.counters c' decls entries plan)
    (h : PragmaGroup σ.env decls positions)
    (hpositions : plan.positions = constantPositions decls)
    (hhoisted : plan.hoistedTypes =
      Table.ofList (decls.map fun d => (d.name, hoistedTypePositions plan.typeVars d))) :
    Split.Ready c' (decls.map plan.reduce) (positions.map (innerPosition plan.positions)) := by
  refine hplan.reduced_ready h.nodup ?_ ?_
  · refine hplan.typesApplied h.nodup hhoisted (fun d hd n hn _ hmem => ?_) h.typesApplied
    exact (hplan.new n hmem).1 (((Expr.uses_iff _).mp (h.uses_rhs hd)).1 n hn)
  · rw [List.forall₂_map_left_iff, List.forall₂_map_right_iff, List.forall₂_iff_zip]
    refine ⟨h.pragmas.length_eq, fun {d i} hp => ?_⟩
    obtain ⟨param, _, hinner⟩ := exists_param h hpositions hp
    exact (List.getElem?_eq_some_iff.mp hinner).1

/-- **The section of a group**, where the inner functions have been registered. -/
theorem PlanFor.split_inOrder_iff (hplan : PlanFor σ.counters c' decls entries plan)
    (h : PragmaGroup σ.env decls positions)
    (hpositions : plan.positions = constantPositions decls)
    (hhoisted : plan.hoistedTypes =
      Table.ofList (decls.map fun d => (d.name, hoistedTypePositions plan.typeVars d)))
    {σ₄ : Session} (hcounters : σ₄.counters = c') :
    (∃ inner σ₅, Split.toSentences (decls.map plan.reduce)
      (positions.map (innerPosition plan.positions)) σ₄ = .ok inner σ₅ ∧
      Sentence.AllInOrder (binderNames plan.vars) (decls.map FuncDecl.name) inner) ↔
      RefersBack (outerReferences decls positions) := by
  rw [← hplan.refersBack_iff h hpositions]
  have hinner := hplan.innerNames fun _ => h.settled_name
  refine Split.toSentences_inOrder_iff (hcounters ▸ hplan.ready h hpositions hhoisted) _ _
    (fun n hn hvar => ?_) (fun n hn => ?_) (fun p hp n hn hmem => ?_)
  · -- the variables of the section are parameters, and inner functions have new names
    obtain ⟨d, hd⟩ := hplan.nonempty
    rw [hplan.reduced_names h.nodup] at hn
    exact (hplan.new n hn).1 (h.settled_params hd n (hplan.mem_vars hd hvar))
  · obtain ⟨d, hd, rfl⟩ := List.mem_map.mp hn
    exact h.settled_name hd
  · obtain ⟨d', hd', rfl⟩ := List.mem_map.mp hmem
    rw [zip_reduced] at hp
    obtain ⟨q, hq, rfl⟩ := List.mem_map.mp hp
    have hd := (List.of_mem_zip hq).1
    obtain ⟨hparam, hdropped⟩ :=
      mem_paramNames_of_mem_outerVars hinner (h.settled_params hd) (h.uses_rhs hd)
        (passesUnchanged_of_constant hpositions hd) (hplan.get?_name h.nodup hd') hn
    exact (hplan.mem_params hd hparam).resolve_left hdropped

/-- Functions that refer to none of each other are in order. -/
theorem refersBack_of_disjoint {xs : List (Name × List Name)}
    (h : ∀ x ∈ xs, ∀ n ∈ xs.map Prod.fst, n ∉ x.2) : RefersBack xs := by
  induction xs with
  | nil => trivial
  | cons x rest ih =>
    rw [List.forall_mem_cons] at h
    exact ⟨h.1, ih fun y hy n hn => h.2 y hy n (List.mem_cons_of_mem _ hn)⟩

/-- The definitions after the section refer to inner functions only. -/
theorem PlanFor.wrappers_inOrder (hplan : PlanFor σ.counters c' decls entries plan)
    (h : PragmaGroup σ.env decls positions) {wrappers : List FuncDecl}
    (hwrappers : decls.mapM plan.wrapper? = some wrappers) :
    wrappers.map FuncDecl.name = decls.map FuncDecl.name ∧
      Sentence.AllInOrder [] [] (wrappers.map .definition) := by
  have hall := List.forall₂_of_mapM_eq_some hwrappers
  have hnames : wrappers.map FuncDecl.name = decls.map FuncDecl.name :=
    (hall.map_eq_map fun _ _ hw => (wrapper_spec hw).1.symm).symm
  refine ⟨hnames,
    (Sentence.allInOrder_definitions (fun _ _ => List.not_mem_nil) fun _ _ _ _ _ =>
      List.not_mem_nil).mpr ?_⟩
  refine refersBack_of_disjoint (List.forall_mem_map.mpr fun w hw n hn hmem => ?_)
  obtain ⟨d, hd, hwrapper⟩ := hall.exists_left hw
  obtain ⟨hfree, hparam⟩ := List.mem_filter.mp hmem
  obtain rfl :=
    (wrapper_spec hwrapper).2 n
      (FuncDecl.mem_references_iff.mpr (.inl ⟨hfree, of_decide_eq_true hparam⟩))
  rw [List.map_map] at hn
  change _ ∈ wrappers.map FuncDecl.name at hn
  rw [hnames] at hn
  obtain ⟨d', hd', hname⟩ := List.mem_map.mp hn
  exact (hplan.innerNames fun _ => h.settled_name).new d.name _ (hplan.get?_name h.nodup hd)
    (hname ▸ h.settled_name hd')

/-- **All inner functions are registered**, and their pragmas choose the arguments. -/
theorem PlanFor.register_succeeds (hplan : PlanFor σ.counters c' decls entries plan)
    (h : PragmaGroup σ.env decls positions) (hpositions : plan.positions = constantPositions decls)
    {σ₃ : Session} (hopened : σ₃.env.pragmas = σ.env.pragmas) :
    ∃ σ₄,
      ((decls.zip (decls.map plan.reduce)).forM fun (d, inner) =>
        registerInner plan.positions d inner) σ₃ = .ok () σ₄ ∧
      σ₄.counters = σ₃.counters ∧
      Decreasing.choose σ₄.env (decls.map plan.reduce) =
        .ok (positions.map (innerPosition plan.positions)) := by
  have hnames : decls.map (fun d => (plan.reduce d).name) = entries.map Prod.snd := by
    rw [← hplan.reduced_names h.nodup, List.map_map]
    rfl
  have hpragmas : List.Forall₂
      (fun d i => Decreasing.ofPragma σ₃.env d = .ok (some i) ∧ i ∉ plan.positions) decls
      positions := by
    refine h.pragmas.imp fun d i hd =>
      ⟨(Decreasing.ofPragma_congr ?_).trans hd.1, hpositions ▸ hd.2⟩
    rw [hopened]
  -- the names of inner functions are new, so no pragma that is still to be read is overwritten
  obtain ⟨σ₄, hrun, hcounters, _, hinner⟩ :=
    registerAll_succeeds hpragmas (hnames ▸ hplan.nodup) fun d hd d' hd' heq =>
      (hplan.innerNames fun _ => h.settled_name).new d'.name _ (hplan.get?_name h.nodup hd')
        (heq ▸ h.settled_name hd)
  refine ⟨σ₄, hrun, hcounters, Decreasing.choose_of_pragmas ?_⟩
  rw [List.forall₂_map_left_iff, List.forall₂_map_right_iff, List.forall₂_iff_zip]
  refine ⟨h.pragmas.length_eq, fun {d i} hp => ?_⟩
  obtain ⟨span, hpragma⟩ := (List.forall₂_iff_zip.mp hinner).2 hp
  obtain ⟨param, _, hparam⟩ := exists_param h hpositions hp
  rw [Decreasing.ofPragma, hpragma]
  exact if_pos (List.getElem?_eq_some_iff.mp hparam).1

/-- The definitions after the section refer to inner functions only. -/
theorem PlanFor.allInOrder_iff (hplan : PlanFor σ.counters c' decls entries plan)
    (h : PragmaGroup σ.env decls positions) {wrappers : List FuncDecl}
    (hwrappers : decls.mapM plan.wrapper? = some wrappers) (name : Name) (typeVars : List TypeParam)
    (inner : List Sentence) :
    Sentence.AllInOrder [] [] (.shared name typeVars plan.vars inner :: wrappers.map .definition) ↔
      Sentence.AllInOrder (binderNames plan.vars) (decls.map FuncDecl.name) inner := by
  obtain ⟨hnames, horder⟩ := hplan.wrappers_inOrder h hwrappers
  rw [Sentence.AllInOrder, Sentence.InOrder, Sentence.funcNames_definitions, hnames,
    List.append_nil, List.append_nil]
  exact and_iff_left horder

/-- **A group with constant parameters.** -/
theorem toSentences_inOrder_iff (h : PragmaGroup σ.env decls positions)
    (hsome : constantPositions decls ≠ []) :
    (∃ sentences σ', toSentences decls (constantPositions decls) σ = .ok sentences σ' ∧
      Sentence.AllInOrder [] [] sentences) ↔ RefersBack (outerReferences decls positions) := by
  have hopened : ∀ {entries : List (Name × Name)} {name wanted : Name} {vars : List Binder}
      {previous : List (Name × Option ValueEntry)} {σ₁ σ₂ σ₃ : Session},
      freshInnerNames decls σ = (entries, σ₁) →
      freshName wanted σ₁ = (name, σ₂) → openSection vars σ₂ = (previous, σ₃) →
        σ₃.counters = σ₂.counters ∧ σ₃.env.pragmas = σ.env.pragmas := by
    intro entries name wanted vars previous σ₁ σ₂ σ₃ hfresh hname hopen
    obtain ⟨hcounters, hpragmas⟩ := openSection_ok hopen
    rw [(freshName_spec hname).1, (freshInnerNames_spec hfresh).1] at hpragmas
    exact ⟨hcounters, hpragmas⟩
  constructor
  · rintro ⟨sentences, σ', hrun, horder⟩
    obtain @⟨plan, entries, first, name, previous, chosen, inner, wrappers, σ₁, σ₂, σ₃, σ₄, σ₅,
      hpositions, hvars, htypeVars,
      hnames, hhoisted, hfresh, hfirst, hname, hopen, hregister, hchoose, hsplit, hwrappers⟩ :=
        toSentences_ok.mp hrun
    have hplan := planFor_of_run hfresh hname hnames hpositions hvars hfirst
    obtain ⟨hcounters, hpragmas⟩ := hopened hfresh hname hopen
    -- the run is the one that is known to succeed
    obtain ⟨σ₄', hregister', hcounters', hchoose'⟩ := hplan.register_succeeds h hpositions hpragmas
    obtain ⟨-, rfl⟩ := EStateM.Result.ok.inj (hregister'.symm.trans hregister)
    obtain rfl := Except.ok.inj (hchoose.symm.trans hchoose')
    refine (hplan.split_inOrder_iff h hpositions hhoisted (hcounters'.trans hcounters)).mp
      ⟨inner, σ₅, hsplit, ?_⟩
    exact (hplan.allInOrder_iff h hwrappers name _ inner).mp horder
  · intro hback
    obtain ⟨first, hfirst⟩ : ∃ first, decls.head? = some first := by
      cases decls with
      | nil => exact absurd rfl hsome
      | cons first rest => exact ⟨first, rfl⟩
    obtain ⟨vars, hvars⟩ := sectionVariables?_isSome hfirst
    obtain ⟨entries, σ₁, hfresh⟩ : ∃ entries σ₁,
      freshInnerNames decls σ = (entries, σ₁) := ⟨_, _, rfl⟩
    obtain ⟨name, σ₂, hname⟩ : ∃ name σ₂,
      freshName (first.name.root ++ "_section") σ₁ = (name, σ₂) := ⟨_, _, rfl⟩
    obtain ⟨previous, σ₃, hopen⟩ : ∃ previous σ₃,
      openSection vars σ₂ = (previous, σ₃) := ⟨_, _, rfl⟩
    -- no step of the run can fail
    let plan : Plan := {
      positions := constantPositions decls, vars, typeVars := typeVarsOf vars
      innerNames := Table.ofList entries
      hoistedTypes :=
        Table.ofList (decls.map fun d => (d.name, hoistedTypePositions (typeVarsOf vars) d)) }
    have hplan : PlanFor σ.counters σ₂.counters decls entries plan :=
      planFor_of_run hfresh hname rfl rfl hvars hfirst
    obtain ⟨hcounters, hpragmas⟩ := hopened hfresh hname hopen
    obtain ⟨σ₄, hregister, hcounters', hchoose⟩ := hplan.register_succeeds h rfl hpragmas
    obtain ⟨inner, σ₅, hsplit, horder⟩ :=
      (hplan.split_inOrder_iff h rfl rfl (hcounters'.trans hcounters)).mpr hback
    obtain ⟨wrappers, hwrappers⟩ := wrapper?_isSome plan rfl
    refine ⟨_, _, toSentences_ok.mpr
      (.intro rfl hvars rfl rfl rfl hfresh hfirst hname hopen hregister hchoose hsplit hwrappers),
      ?_⟩
    exact (hplan.allInOrder_iff h hwrappers name _ inner).mpr horder

end group

end Hoist

/-- **Groups with pragmas.** -/
theorem groupToSentences_inOrder_iff {decls : List FuncDecl} {positions : List Nat} {σ : Session}
    (h : PragmaGroup σ.env decls positions) :
    (∃ sentences σ', groupToSentences decls σ = .ok sentences σ' ∧
      Sentence.AllInOrder [] [] sentences) ↔
      RefersBack (outerReferences decls positions) := by
  by_cases hconstant : constantPositions decls = []
  · -- the pragmas decide, so the run splits at their positions
    have hchoose : Decreasing.choose σ.env decls = .ok positions :=
      Decreasing.choose_of_pragmas (h.pragmas.imp fun _ _ hd => hd.1)
    have hready : Split.Ready σ.counters decls positions := h.ready
    rw [← Split.toSentences_inOrder_iff hready [] [] (fun _ _ => List.not_mem_nil) nofun
      fun _ _ _ _ hmem => hmem]
    refine exists₂_congr fun sentences σ' => and_congr_left fun _ => ?_
    rw [groupToSentences_ok]
    constructor
    · intro hrun
      cases hrun with
      | split _ hchoose' hrun =>
        obtain rfl := Except.ok.inj (hchoose.symm.trans hchoose')
        exact hrun
      | hoist hsome _ => exact absurd hconstant hsome
    · exact fun hrun => .split hconstant hchoose hrun
  · rw [← Hoist.toSentences_inOrder_iff h hconstant]
    refine exists₂_congr fun sentences σ' => and_congr_left fun _ => ?_
    rw [groupToSentences_ok]
    constructor
    · intro hrun
      cases hrun with
      | split hnone _ _ => exact absurd hnone hconstant
      | hoist _ hrun => exact hrun
    · exact fun hrun => .hoist hconstant hrun

/-- A function of a list that looks at `w` first: it takes the list apart, or leaves the list to
another function. -/
def lookFirst : FuncDecl where
  name := "f"
  params := [{ name := "c" }, { name := "x" }, { name := "w" }]
  rhs := .case {} (.var {} "w") [
    (.con "True" [], .app {} (.app {} (.var {} "g") (.var {} "c")) (.var {} "x")),
    (.con "False" [], .case {} (.var {} "x") [(.con "Nil" [], .var {} "c"),
      (.con "Cons" [{ name := "y" }, { name := "ys" }], .var {} "y")])]

/-- The other function takes the list apart at once. -/
def takeApart : FuncDecl where
  name := "g"
  params := [{ name := "c" }, { name := "x" }]
  rhs := .case {} (.var {} "x") [(.con "Nil" [], .var {} "c"),
    (.con "Cons" [{ name := "y" }, { name := "ys" }],
      .app {} (.app {} (.app {} (.var {} "f") (.var {} "c")) (.var {} "ys")) (.con {} "True"))]

/-- Pragmas for the lists that the two functions take. -/
def listPragmas : Environment :=
  (({} : Environment).addPragma "f" { param := .name "x", span := .generated }).addPragma "g"
    { param := .index 1, span := .generated }

/-- The functions share `c`. The first calls the second where it looks at `w`, so the second has to
be defined first. -/
theorem takeApart_inOrder_before_lookFirst :
    constantPositions [takeApart, lookFirst] = [0] ∧
      (∃ sentences s', groupToSentences [takeApart, lookFirst] { env := listPragmas } =
        .ok sentences s' ∧
        Sentence.AllInOrder [] [] sentences) ∧
      ¬ ∃ sentences s', groupToSentences [lookFirst, takeApart] { env := listPragmas } =
        .ok sentences s' ∧
        Sentence.AllInOrder [] [] sentences := by
  have hback : PragmaGroup listPragmas [takeApart, lookFirst] [1, 1] :=
    ⟨by decide, by decide, by decide, by decide,
      .cons ⟨rfl, by decide +kernel⟩ (.cons ⟨rfl, by decide +kernel⟩ .nil)⟩
  have hahead : PragmaGroup listPragmas [lookFirst, takeApart] [1, 1] :=
    ⟨by decide, by decide, by decide, by decide,
      .cons ⟨rfl, by decide +kernel⟩ (.cons ⟨rfl, by decide +kernel⟩ .nil)⟩
  refine ⟨by decide +kernel, (groupToSentences_inOrder_iff hback).mpr (by decide), fun h => ?_⟩
  exact absurd ((groupToSentences_inOrder_iff hahead).mp h) (by decide)

end StructRec
