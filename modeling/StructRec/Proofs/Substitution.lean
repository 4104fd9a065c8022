import StructRec.Proofs.GuardedCalls
import StructRec.Proofs.SubstitutionRuns
import StructRec.Proofs.Tables

/-!
# StructRec — substitution keeps expressions guarded

A substitution leads from one view to another if each variable that it replaces is a value, and its
replacement is guarded in the new view and known no less well there; variables that it leaves alone
are known no less well (`Subst.Maps`). Going under binders keeps this up: captured binders get fresh
names, which no replacement and no variable in scope has (`Subst.Entered.maps`).
-/

namespace StructRec

/-! ## Binders and their names -/

theorem length_binderNames (binders : List Binder) :
    (binderNames binders).length = binders.length := List.length_map _

/-- A pattern with other binders has their names. -/
theorem Pattern.names_withBinders {p : Pattern} {binders : List Binder}
    (h : binders.length = p.binders.length) :
    (p.withBinders binders).names = binderNames binders := by
  cases p with
  | con name vars => rfl
  | var b =>
    obtain ⟨b', rfl⟩ := List.length_eq_one_iff.mp h
    rfl
  | lit value => rw [List.length_eq_zero_iff.mp h]; rfl
  | wildcard => rw [List.length_eq_zero_iff.mp h]; rfl

theorem Pattern.size_withBinders (p : Pattern) (binders : List Binder) (size : Size) :
    (p.withBinders binders).size size = p.size size := by
  cases p with
  | var b => cases binders <;> rfl
  | _ => rfl

theorem Binds.names_zip {binders : List Binder} {rhss : List Expr}
    (h : rhss.length = binders.length) : Binds.names (binders.zip rhss) = binderNames binders := by
  rw [names, Binds.binders, List.map_fst_zip (by rw [h])]

theorem Binds.rhss_zip {binders : List Binder} {rhss : List Expr}
    (h : rhss.length = binders.length) : Binds.rhss (binders.zip rhss) = rhss :=
  List.map_snd_zip (by rw [h])

theorem flatMap_freeOccs_rhss (binds : Binds) :
    (Binds.rhss binds).flatMap Expr.freeOccs = Expr.freeOccsRhss binds := by
  induction binds with
  | nil => rfl
  | cons bind rest ih => exact congrArg (bind.2.freeOccs ++ ·) ih

theorem guardedRhss_iff {c : Counters} {v : View} {binds : Binds} :
    GuardedRhss c v binds ↔ ∀ r ∈ Binds.rhss binds, Guarded c v r [] := by
  induction binds with
  | nil => simp [GuardedRhss, Binds.rhss]
  | cons bind rest ih =>
    rw [GuardedRhss, ih, show Binds.rhss (bind :: rest) = bind.2 :: Binds.rhss rest from rfl,
      List.forall_mem_cons]

namespace Subst

variable {c c' : Counters} {v v' : View} {s s' : Subst} {captured names : List Name}
  {binders binders' : List Binder}
variable {sizes : List Size} {n : Name} {σ σ' : Session}

/-! ## Binders -/

/-- What renaming the captured ones of some binders yields: the captured ones are new, the others
stay, and the substitution leads every renamed variable to its new name. -/
structure Entered (captured : List Name) (s s' : Subst) (binders binders' : List Binder)
    (c c' : Counters) : Prop where
  grows : c ≤ c'
  length_eq : binders'.length = binders.length
  names : ∀ m ∈ binderNames binders', (m ∈ binderNames binders ∧ m ∉ captured) ∨ ¬ c.Settled m
  settled : ∀ m ∈ binderNames binders', c'.Settled m
  nodup : (binderNames binders).Nodup → (binderNames binders').Nodup
  kept : ∀ n, n ∉ binderNames binders ∨ n ∉ captured → s'.exprs.get? n = s.exprs.get? n
  bound : ∀ sizes : List Size, sizes.length = binders.length → ∀ v v' : View,
    ∀ n ∈ binderNames binders, n ∉ captured →
    (v'.binds ((binderNames binders').zip sizes)).facts n =
      (v.binds ((binderNames binders).zip sizes)).facts n
  renamed : ∀ sizes : List Size, sizes.length = binders.length → ∀ v v' : View,
    ∀ n ∈ binderNames binders, n ∈ captured → ∃ note m, s'.exprs.get? n = some (.var note m) ∧
      (v'.binds ((binderNames binders').zip sizes)).facts m =
        (v.binds ((binderNames binders).zip sizes)).facts n

theorem Entered.nil (captured : List Name) (s : Subst) (c : Counters) :
    Entered captured s s [] [] c c where
  grows := le_rfl
  length_eq := rfl
  names := nofun
  settled := nofun
  nodup h := h
  kept _ _ := rfl
  bound _ _ _ _ _ hn := nomatch hn
  renamed _ _ _ _ _ hn := nomatch hn

theorem binds_zip_cons (v : View) (b : Binder) (binders : List Binder) (size : Size)
    (sizes : List Size) :
    v.binds ((binderNames (b :: binders)).zip (size :: sizes))
      = (v.bind b.name size).binds ((binderNames binders).zip sizes) := rfl

theorem map_fst_zip_names (h : sizes.length = binders.length) :
    ((binderNames binders).zip sizes).map Prod.fst = binderNames binders :=
  List.map_fst_zip (by rw [length_binderNames, h])

theorem facts_binds_zip_of_notMem (v : View) (h : sizes.length = binders.length)
    (hn : n ∉ binderNames binders) :
    (v.binds ((binderNames binders).zip sizes)).facts n = v.facts n :=
  v.facts_binds_of_notMem (by rwa [map_fst_zip_names h])

/-- A binder that is not captured stays. -/
theorem Entered.cons_kept {b b' : Binder} (hname : b'.name = b.name) (hcaptured : b.name ∉ captured)
    (hsettled : c.Settled b.name) (h : Entered captured s s' binders binders' c c') :
    Entered captured s s' (b :: binders) (b' :: binders') c c' where
  grows := h.grows
  length_eq := congrArg (· + 1) h.length_eq
  names m hm := by
    rcases List.mem_cons.mp hm with rfl | hm
    · exact .inl ⟨hname ▸ List.mem_cons_self, hname ▸ hcaptured⟩
    · exact (h.names m hm).imp_left fun hold => ⟨List.mem_cons_of_mem _ hold.1, hold.2⟩
  settled m hm := by
    rcases List.mem_cons.mp hm with rfl | hm
    · exact hname ▸ hsettled.mono h.grows
    · exact h.settled m hm
  nodup hnodup := by
    obtain ⟨hfirst, hrest⟩ := List.nodup_cons.mp hnodup
    refine List.nodup_cons.mpr ⟨fun hmem => ?_, h.nodup hrest⟩
    rw [hname] at hmem
    exact (h.names _ hmem).elim (fun hold => hfirst hold.1) (fun hnew => hnew hsettled)
  kept n hn := by
    refine h.kept n ?_
    rcases hn with hn | hn
    · exact .inl fun hmem => hn (List.mem_cons_of_mem _ hmem)
    · exact .inr hn
  bound sizes hsizes v v' n hn hfree := by
    cases sizes with
    | nil => cases hsizes
    | cons size sizes =>
      have hlength : sizes.length = binders.length := Nat.succ.inj hsizes
      rw [binds_zip_cons, binds_zip_cons]
      by_cases hrest : n ∈ binderNames binders
      · exact h.bound sizes hlength _ _ n hrest hfree
      · -- the first binder is the only one of this name, before and after
        obtain rfl : n = b.name := (List.mem_cons.mp hn).resolve_right hrest
        have hrest' : b.name ∉ binderNames binders' := fun hmem =>
          (h.names _ hmem).elim (fun hold => hrest hold.1) (fun hnew => hnew hsettled)
        rw [facts_binds_zip_of_notMem _ (hlength.trans h.length_eq.symm) hrest',
          facts_binds_zip_of_notMem _ hlength hrest]
        exact (if_pos hname.symm).trans (if_pos rfl).symm
  renamed sizes hsizes v v' n hn hcap := by
    cases sizes with
    | nil => cases hsizes
    | cons size sizes =>
      have hrest : n ∈ binderNames binders :=
        (List.mem_cons.mp hn).resolve_left fun heq => hcaptured (heq ▸ hcap)
      exact h.renamed sizes (Nat.succ.inj hsizes) _ _ n hrest hcap

/-- A captured binder gets a name that was not settled before. -/
theorem Entered.cons_renamed {c₁ : Counters} {b b' : Binder} (hgrows : c ≤ c₁)
    (hnew : ¬ c.Settled b'.name) (hsettled' : c₁.Settled b'.name) (hcaptured : b.name ∈ captured)
    (hsettled : ∀ n ∈ binderNames binders, c.Settled n)
    (h : Entered captured (s.insert b.name b'.toExpr) s' binders binders' c₁ c') :
    Entered captured s s' (b :: binders) (b' :: binders') c c' where
  grows := hgrows.trans h.grows
  length_eq := congrArg (· + 1) h.length_eq
  names m hm := by
    rcases List.mem_cons.mp hm with rfl | hm
    · exact .inr hnew
    · refine (h.names m hm).imp (fun hold => ⟨List.mem_cons_of_mem _ hold.1, hold.2⟩)
        fun hunsettled hm' => ?_
      exact hunsettled (hm'.mono hgrows)
  settled m hm := by
    rcases List.mem_cons.mp hm with rfl | hm
    · exact hsettled'.mono h.grows
    · exact h.settled m hm
  nodup hnodup := by
    refine List.nodup_cons.mpr ⟨fun hmem => ?_, h.nodup (List.nodup_cons.mp hnodup).2⟩
    exact (h.names _ hmem).elim (fun hold => hnew (hsettled _ hold.1))
      (fun hnew' => hnew' hsettled')
  -- a name that is no binder, or is not captured, is not this one
  kept n hn := by
    have hne : n ≠ b.name := by
      rintro rfl
      rcases hn with hn | hn
      · exact hn List.mem_cons_self
      · exact hn hcaptured
    have hrest : n ∉ binderNames binders ∨ n ∉ captured :=
      hn.imp_left fun hn hmem => hn (List.mem_cons_of_mem _ hmem)
    rw [h.kept n hrest]
    exact (Table.get?_insert _ _ _ _).trans (if_neg hne.symm)
  bound sizes hsizes v v' n hn hfree := by
    cases sizes with
    | nil => cases hsizes
    | cons size sizes =>
      have hrest : n ∈ binderNames binders :=
        (List.mem_cons.mp hn).resolve_left fun heq => hfree (heq ▸ hcaptured)
      exact h.bound sizes (Nat.succ.inj hsizes) _ _ n hrest hfree
  renamed sizes hsizes v v' n hn hcap := by
    cases sizes with
    | nil => cases hsizes
    | cons size sizes =>
      have hlength : sizes.length = binders.length := Nat.succ.inj hsizes
      by_cases hrest : n ∈ binderNames binders
      · exact h.renamed sizes hlength _ _ n hrest hcap
      · -- the first binder is the last of this name, and no later binder has its new name
        obtain rfl : n = b.name := (List.mem_cons.mp hn).resolve_right hrest
        have hrest' : b'.name ∉ binderNames binders' := fun hmem =>
          (h.names _ hmem).elim (fun hold => hnew (hsettled _ hold.1))
            (fun hnew' => hnew' hsettled')
        refine ⟨_, b'.name, (h.kept _ (.inl hrest)).trans
          ((Table.get?_insert _ _ _ _).trans (if_pos rfl)), ?_⟩
        rw [binds_zip_cons, binds_zip_cons,
          facts_binds_zip_of_notMem _ (hlength.trans h.length_eq.symm) hrest',
          facts_binds_zip_of_notMem _ hlength hrest]
        exact (if_pos rfl).trans (if_pos rfl).symm

theorem length_enterBinders (h : enterBinders captured s binders σ = ((s', binders'), σ')) :
    binders'.length = binders.length := by
  replace h := enters_of_enterBinders h
  induction h with
  | nil => rfl
  | renamed _ _ _ ih | kept _ _ ih => exact congrArg (· + 1) ih

/-- **Renaming captured binders**: the new names are new, and lead to the same binders. -/
theorem Enters.entered (h : Enters captured s binders σ s' binders' σ')
    (hsettled : ∀ n ∈ binderNames binders, σ.counters.Settled n) :
    Entered captured s s' binders binders' σ.counters σ'.counters := by
  induction h with
  | nil => exact .nil captured _ _
  | renamed hcaptured hfresh _ ih =>
    obtain ⟨hb, hrest⟩ := List.forall_mem_cons.mp hsettled
    obtain ⟨_, hgrows, hnew, hsettled', _⟩ := freshName_spec hfresh
    exact .cons_renamed hgrows hnew hsettled' hcaptured hrest
      (ih fun n hn => (hrest n hn).mono hgrows)
  | kept hcaptured _ ih =>
    obtain ⟨hb, hrest⟩ := List.forall_mem_cons.mp hsettled
    exact .cons_kept rfl hcaptured hb (ih hrest)

/-! ## Substitutions between views -/

/-- At these names the substitution leads from the first view to the second. -/
structure Maps (c : Counters) (s : Subst) (v v' : View) (names : List Name) : Prop where
  replaced : ∀ n ∈ names, ∀ r, s.exprs.get? n = some r → ∀ k, v.facts n = some k →
    ∃ size, k = .value size ∧ size ≤ v'.sizeOf r ∧ Guarded c v' r []
  kept : ∀ n ∈ names, s.exprs.get? n = none → v.LeAt v' n
  settled : ∀ n k, v'.facts n = some k → c.Settled n
  markers : ∀ m, v.markers m → v'.markers m

theorem Maps.mono (h : s.Maps c v v' names) (hc : c ≤ c') : s.Maps c' v v' names where
  replaced n hn r hr k hk := by
    obtain ⟨size, hsize, hle, hguarded⟩ := h.replaced n hn r hr k hk
    exact ⟨size, hsize, hle, hguarded.mono hc r ⟨fun m _ => .refl v' m, fun _ hm => hm⟩ (.refl _)⟩
  kept := h.kept
  settled n k hk := (h.settled n k hk).mono hc
  markers := h.markers

theorem Maps.subset {names' : List Name} (h : s.Maps c v v' names) (hsub : names' ⊆ names) :
    s.Maps c v v' names' where
  replaced n hn := h.replaced n (hsub hn)
  kept n hn := h.kept n (hsub hn)
  settled := h.settled
  markers := h.markers

/-- A substitution that does the same at these names leads to the same view. -/
theorem Maps.congr (h : s.Maps c v v' names) (heq : ∀ n ∈ names, s'.exprs.get? n = s.exprs.get? n) :
    s'.Maps c v v' names where
  replaced n hn r hr := h.replaced n hn r ((heq n hn).symm.trans hr)
  kept n hn hnone := h.kept n hn ((heq n hn).symm.trans hnone)
  settled := h.settled
  markers := h.markers

/-- **Under binders.** The substitution does not replace the binders, and all free variables of its
replacements count as captured. -/
theorem Entered.maps (h : Entered captured s s' binders binders' c c')
    (hmaps : s.Maps c v v' (names.filter (· ∉ binderNames binders)))
    (hbinders : ∀ n ∈ binderNames binders, s.exprs.get? n = none)
    (hcaptured : ∀ n r, s.exprs.get? n = some r → ∀ x ∈ r.freeOccs, x ∈ captured)
    (hsizes : sizes.length = binders.length) :
    s'.Maps c' (v.binds ((binderNames binders).zip sizes))
      (v'.binds ((binderNames binders').zip sizes)) names := by
  have hsizes' := hsizes.trans h.length_eq.symm
  have hfilter : ∀ n ∈ names, n ∉ binderNames binders →
      n ∈ names.filter (· ∉ binderNames binders) := fun n hn hfree =>
    List.mem_filter.mpr ⟨hn, decide_eq_true hfree⟩
  -- names in scope that are no binders are hidden by no new binder
  have hvisible : ∀ x k, v'.facts x = some k → (x ∉ binderNames binders ∨ x ∈ captured) →
      x ∉ binderNames binders' := by
    intro x k hk hx hmem
    rcases h.names x hmem with ⟨hbinder, hfree⟩ | hnew
    · exact hx.elim (fun hx => hx hbinder) hfree
    · exact hnew (hmaps.settled x k hk)
  refine ⟨fun n hn r hr k hk => ?_, fun n hn hnone => ?_, fun n k hk => ?_, fun m hm => ?_⟩
  · by_cases hbinder : n ∈ binderNames binders
    · -- a captured binder is known under its new name as it was
      by_cases hcap : n ∈ captured
      · obtain ⟨note, m, hget, hfacts⟩ := h.renamed sizes hsizes v v' n hbinder hcap
        obtain rfl : r = .var note m := Option.some.inj (hr.symm.trans hget)
        obtain ⟨size, _, hsize, _⟩ :=
          View.facts_binds_of_mem v v (by rwa [map_fst_zip_names hsizes])
        obtain rfl : k = .value size := Option.some.inj (hk.symm.trans hsize)
        refine ⟨size, rfl, ?_, ⟨_, hfacts.trans hsize, trivial⟩⟩
        rw [View.sizeOf_var, hfacts, hsize]
        exact le_rfl
      · rw [h.kept n (.inr hcap), hbinders n hbinder] at hr
        cases hr
    · rw [h.kept n (.inl hbinder)] at hr
      rw [facts_binds_zip_of_notMem v hsizes hbinder] at hk
      obtain ⟨size, hsize, hle, hguarded⟩ := hmaps.replaced n (hfilter n hn hbinder) r hr k hk
      -- the replacement means the same inside, where nothing hides what it mentions
      have hleOn : v'.LeOn (v'.binds ((binderNames binders').zip sizes)) r.freeOccs := by
        refine ⟨fun x hx => ?_, fun m hm => by rwa [View.markers_binds]⟩
        obtain ⟨kx, hkx⟩ := (hguarded.scoped r).free x hx
        exact .of_eq
          (facts_binds_zip_of_notMem v' hsizes' (hvisible x kx hkx (.inr (hcaptured n r hr x hx))))
      exact ⟨size, hsize, hle.trans (View.sizeOf_mono hleOn),
        hguarded.mono h.grows r hleOn (.refl _)⟩
  · by_cases hbinder : n ∈ binderNames binders
    · by_cases hcap : n ∈ captured
      · obtain ⟨_, _, hget, _⟩ := h.renamed sizes hsizes v v' n hbinder hcap
        cases hnone.symm.trans hget
      · exact .of_eq (h.bound sizes hsizes v v' n hbinder hcap)
    · rw [h.kept n (.inl hbinder)] at hnone
      intro k hk
      rw [facts_binds_zip_of_notMem v hsizes hbinder] at hk
      obtain ⟨k', hk', hle⟩ := hmaps.kept n (hfilter n hn hbinder) hnone k hk
      rw [facts_binds_zip_of_notMem v' hsizes' (hvisible n k' hk' (.inl hbinder))]
      exact ⟨k', hk', hle⟩
  · by_cases hbinder : n ∈ binderNames binders'
    · exact h.settled n hbinder
    · rw [facts_binds_zip_of_notMem v' hsizes' hbinder] at hk
      exact (hmaps.settled n k hk).mono h.grows
  · rw [View.markers_binds] at hm ⊢
    exact hmaps.markers m hm

/-- A substitution of types alone leads from every view to itself. -/
theorem Maps.of_no_exprs (h : ∀ n, s.exprs.get? n = none)
    (hsettled : ∀ n k, v.facts n = some k → c.Settled n) : s.Maps c v v names where
  replaced n _ r hr := by
    rw [h n] at hr
    cases hr
  kept n _ _ := .refl v n
  settled := hsettled
  markers _ hm := hm

/-- Renaming binders alone. -/
theorem Entered.maps_of_no_exprs (h : Entered captured s s' binders binders' c c')
    (hnone : ∀ n, s.exprs.get? n = none) (hsettled : ∀ n k, v.facts n = some k → c.Settled n)
    (hsizes : sizes.length = binders.length) (names : List Name) :
    s'.Maps c' (v.binds ((binderNames binders).zip sizes))
      (v.binds ((binderNames binders').zip sizes)) names := by
  refine h.maps (.of_no_exprs hnone hsettled) (fun n _ => hnone n) (fun n r hr => ?_) hsizes
  rw [hnone n] at hr
  cases hr

theorem get?_restrictTo (s : Subst) (scope : List Expr) (n : Name) :
    (s.restrictTo scope).exprs.get? n =
      if scope.any (·.occursFree n) then s.exprs.get? n else none :=
  Table.get?_filterKeys _ _ _

/-- Restriction keeps what is needed in the scope. -/
theorem get?_restrictTo_of_mem (s : Subst) {scope : List Expr}
    (h : n ∈ scope.flatMap Expr.freeOccs) : (s.restrictTo scope).exprs.get? n = s.exprs.get? n := by
  obtain ⟨e, he, hn⟩ := List.mem_flatMap.mp h
  rw [get?_restrictTo, if_pos
    (List.any_eq_true.mpr ⟨e, he, (Expr.occursFree_iff_mem_freeOccs n e).mpr hn⟩)]

theorem get?_without (s : Subst) (names : List Name) (n : Name) :
    (s.without names).exprs.get? n = if n ∈ names then none else s.exprs.get? n := by
  refine (Table.get?_filterKeys _ _ _).trans ?_
  by_cases h : n ∈ names <;> simp [h]

theorem mem_replacementVars {x : Name} {r : Expr} (hr : s.exprs.get? n = some r)
    (hx : x ∈ r.freeOccs) : x ∈ s.replacementVars := by
  rw [replacementVars, Expr.mem_freeVarsOfAll]
  exact List.mem_flatMap.mpr ⟨r, Table.mem_values_of_get? hr, hx⟩

/-- Entering the scope of binders keeps up that the substitution leads from view to view. -/
theorem enter_maps {scope : List Expr} (h : s.enter binders scope σ = ((s', binders'), σ'))
    (hmaps : s.Maps σ.counters v v'
      ((scope.flatMap Expr.freeOccs).filter (· ∉ binderNames binders)))
    (hsettled : ∀ n ∈ binderNames binders, σ.counters.Settled n) (size : Size) :
    σ.counters ≤ σ'.counters ∧ binders'.length = binders.length ∧
      (∀ n ∈ binderNames binders', σ'.counters.Settled n) ∧
      s'.Maps σ'.counters (v.bindAll (binderNames binders) size)
        (v'.bindAll (binderNames binders') size)
        (scope.flatMap Expr.freeOccs) := by
  have hentered := (enters_of_enterBinders h).entered hsettled
  refine ⟨hentered.grows, hentered.length_eq, hentered.settled, ?_⟩
  have hinner : ((s.without (binderNames binders)).restrictTo scope).Maps σ.counters v v'
      ((scope.flatMap Expr.freeOccs).filter (· ∉ binderNames binders)) := by
    refine hmaps.congr fun n hn => ?_
    obtain ⟨hn, hfree⟩ := List.mem_filter.mp hn
    rw [get?_restrictTo_of_mem _ hn, get?_without, if_neg (of_decide_eq_true hfree)]
  have hresult := hentered.maps hinner
    (fun n hn => by rw [get?_restrictTo, get?_without, if_pos hn, ite_self])
    (fun n r hr x hx => mem_replacementVars hr hx)
      (List.length_replicate (n := binders.length) (a := size))
  rwa [View.binds_replicate v (length_binderNames binders).symm,
    View.binds_replicate v'
      (hentered.length_eq.symm.trans (length_binderNames binders').symm)] at hresult

/-! ## The substitution lemma -/

mutual

/-- **Substitution keeps expressions guarded**, and knows no less of the result than of the
expression. -/
theorem Runs.guarded {s : Subst} {v v' : View} {e e' : Expr} {σ σ' : Session} {args : List Size}
    (h : s.Runs e σ e' σ') (hmaps : s.Maps σ.counters v v' e.freeOccs)
    (hguarded : Guarded σ.counters v e args) :
    σ.counters ≤ σ'.counters ∧ v.sizeOf e ≤ v'.sizeOf e' ∧ Guarded σ'.counters v' e' args := by
  cases h with
  | @replaced _ _ n _ _ hget =>
    obtain ⟨k, hk, hadmits⟩ := hguarded
    obtain ⟨size, rfl, hle, hr⟩ := hmaps.replaced n (List.mem_singleton.mpr rfl) e' hget k hk
    refine ⟨le_rfl, ?_, hr.mono le_rfl e' ⟨fun m _ => .refl v' m, fun _ hm => hm⟩ (.nil _)⟩
    rw [View.sizeOf_var, hk]
    exact hle
  | @var _ _ n _ hget =>
    obtain ⟨k, hk, hadmits⟩ := hguarded
    obtain ⟨k', hk', hle⟩ := hmaps.kept n (List.mem_singleton.mpr rfl) hget k hk
    refine ⟨le_rfl, ?_, k', hk', hadmits.mono hle (.refl _)⟩
    rw [View.sizeOf_var, View.sizeOf_var, hk, hk']
    exact hle.size_le
  | con | intLit => exact ⟨le_rfl, le_rfl, trivial⟩
  | undefined | error => exact ⟨le_rfl, le_rfl, hmaps.markers _ hguarded⟩
  | @app _ _ fn fn' arg _ _ _ _ hfn harg =>
    have hmapsArg := hmaps.subset (List.subset_append_right fn.freeOccs arg.freeOccs)
    obtain ⟨hgrows, _, hfn'⟩ :=
      hfn.guarded (hmaps.subset (List.subset_append_left _ _)) hguarded.1
    obtain ⟨hgrows', hsize, harg'⟩ := harg.guarded (hmapsArg.mono hgrows) (hguarded.2.grow hgrows)
    -- more may be known of the argument than before, and the call is guarded all the more
    exact ⟨hgrows.trans hgrows', le_rfl,
      hfn'.mono hgrows' fn' (.refl _ _) (.cons hsize (.refl args)), harg'⟩
  | typeApp hfn =>
    obtain ⟨hgrows, _, hfn'⟩ := hfn.guarded hmaps hguarded
    exact ⟨hgrows, le_rfl, hfn'⟩
  | cond htest hthen helse =>
    have hmapsFirst := hmaps.subset (List.subset_append_left _ _)
    obtain ⟨hgrows₁, _, htest'⟩ :=
      htest.guarded (hmapsFirst.subset (List.subset_append_left _ _)) hguarded.1
    obtain ⟨hgrows₂, _, hthen'⟩ := hthen.guarded
      ((hmapsFirst.subset (List.subset_append_right _ _)).mono hgrows₁) (hguarded.2.1.grow hgrows₁)
    have hgrows := hgrows₁.trans hgrows₂
    obtain ⟨hgrows₃, _, helse'⟩ := helse.guarded
      ((hmaps.subset (List.subset_append_right _ _)).mono hgrows) (hguarded.2.2.grow hgrows)
    exact ⟨hgrows.trans hgrows₃, le_rfl, htest'.grow (hgrows₂.trans hgrows₃),
      hthen'.grow hgrows₃, helse'⟩
  -- the scrutinee may be known better, and then its fields are
  | @case _ _ _ _ alts _ _ _ _ hscrutinee halts =>
    obtain ⟨hgrows, hsize, hscrutinee'⟩ :=
      hscrutinee.guarded (hmaps.subset (List.subset_append_left _ _)) hguarded.1
    obtain ⟨hgrows', halts'⟩ := halts.guarded
      ((hmaps.subset (List.subset_append_right _ _)).mono hgrows)
      (hguarded.2.mono hgrows alts (.refl _ _) hsize)
    exact ⟨hgrows.trans hgrows', le_rfl, hscrutinee'.grow hgrows', halts'⟩
  | lam henter hbody =>
    obtain ⟨hgrows, _, hsettled, hmapsBody⟩ :=
      enter_maps henter (by rwa [List.flatMap_singleton]) hguarded.1 .any
    rw [List.flatMap_singleton] at hmapsBody
    obtain ⟨hgrows', _, hbody'⟩ := hbody.guarded hmapsBody (hguarded.2.grow hgrows)
    exact ⟨hgrows.trans hgrows', le_rfl, fun n hn => (hsettled n hn).mono hgrows', hbody'⟩
  | @letRec _ _ binds binders' rhss' body _ _ _ _ _ _ henter hrhss hbody =>
    have hscope : (Binds.rhss binds ++ [body]).flatMap Expr.freeOccs =
        Expr.freeOccsRhss binds ++ body.freeOccs := by
      rw [List.flatMap_append, List.flatMap_singleton, flatMap_freeOccs_rhss]
    obtain ⟨hgrows₁, hlength, hsettled, hmapsInner⟩ :=
      enter_maps henter (by rw [hscope]; exact hmaps) hguarded.1 .any
    rw [hscope] at hmapsInner
    obtain ⟨hgrows₂, hlength', hrhss'⟩ := hrhss.guarded
      (hmapsInner.subset (List.subset_append_left _ _)) (hguarded.2.1.grow hgrows₁)
    obtain ⟨hgrows₃, _, hbody'⟩ := hbody.guarded
      ((hmapsInner.subset (List.subset_append_right _ _)).mono hgrows₂)
      (hguarded.2.2.grow (hgrows₁.trans hgrows₂))
    have hzip : rhss'.length = binders'.length := by
      rw [hlength', hlength, Binds.binders, List.length_map]
    refine ⟨(hgrows₁.trans hgrows₂).trans hgrows₃, le_rfl, ?_⟩
    rw [Guarded, Binds.names_zip hzip, guardedRhss_iff, Binds.rhss_zip hzip]
    exact ⟨fun n hn => (hsettled n hn).mono (hgrows₂.trans hgrows₃),
      fun r hr => (hrhss' r hr).grow hgrows₃, hbody'⟩

/-- The alternatives of a `case`. -/
theorem RunsAlts.guarded {s : Subst} {v v' : View} {alts alts' : Alts} {σ σ' : Session}
    {size : Size} (h : s.RunsAlts alts σ alts' σ')
    (hmaps : s.Maps σ.counters v v' (Expr.freeOccsAlts alts))
    (hguarded : GuardedAlts σ.counters v size alts) :
    σ.counters ≤ σ'.counters ∧ GuardedAlts σ'.counters v' size alts' := by
  cases h with
  | nil => exact ⟨le_rfl, trivial⟩
  | @cons _ pattern _ _ _ _ _ _ _ _ _ _ henter hrhs hrest =>
    obtain ⟨hgrows₁, hlength, hsettled, hmapsRhs⟩ := enter_maps henter
      (by rw [List.flatMap_singleton]; exact hmaps.subset (List.subset_append_left _ _))
      hguarded.1 (pattern.size size)
    rw [List.flatMap_singleton] at hmapsRhs
    obtain ⟨hgrows₂, _, hrhs'⟩ := hrhs.guarded hmapsRhs (hguarded.2.1.grow hgrows₁)
    have hgrows := hgrows₁.trans hgrows₂
    obtain ⟨hgrows₃, hrest'⟩ := hrest.guarded
      ((hmaps.subset (List.subset_append_right _ _)).mono hgrows) (hguarded.2.2.grow hgrows)
    refine ⟨hgrows.trans hgrows₃, ?_⟩
    rw [GuardedAlts, Pattern.names_withBinders hlength, Pattern.size_withBinders]
    exact ⟨fun n hn => (hsettled n hn).mono (hgrows₂.trans hgrows₃), hrhs'.grow hgrows₃, hrest'⟩

/-- The right-hand sides of a `let`. -/
theorem RunsRhss.guarded {s : Subst} {v v' : View} {binds : Binds} {rhss' : List Expr}
    {σ σ' : Session} (h : s.RunsRhss binds σ rhss' σ')
    (hmaps : s.Maps σ.counters v v' (Expr.freeOccsRhss binds))
    (hguarded : GuardedRhss σ.counters v binds) :
    σ.counters ≤ σ'.counters ∧ rhss'.length = binds.length ∧
      ∀ r ∈ rhss', Guarded σ'.counters v' r [] := by
  cases h with
  | nil => exact ⟨le_rfl, rfl, List.forall_mem_nil _⟩
  | cons hrhs hrest =>
    obtain ⟨hgrows, _, hrhs'⟩ :=
      hrhs.guarded (hmaps.subset (List.subset_append_left _ _)) hguarded.1
    obtain ⟨hgrows', hlength, hrest'⟩ := hrest.guarded
      ((hmaps.subset (List.subset_append_right _ _)).mono hgrows) (hguarded.2.grow hgrows)
    exact ⟨hgrows.trans hgrows', congrArg (· + 1) hlength,
      List.forall_mem_cons.mpr ⟨hrhs'.grow hgrows', hrest'⟩⟩

end

/-- **Applying a substitution keeps an expression guarded.** -/
theorem apply_guarded {e e' : Expr} {args : List Size} (h : s.apply e σ = (e', σ'))
    (hmaps : s.Maps σ.counters v v' e.freeOccs) (hguarded : Guarded σ.counters v e args) :
    σ.counters ≤ σ'.counters ∧ v.sizeOf e ≤ v'.sizeOf e' ∧ Guarded σ'.counters v' e' args := by
  have hrelevant : ∀ n ∈ e.freeOccs, (s.restrictTo [e]).exprs.get? n = s.exprs.get? n := fun n hn =>
    get?_restrictTo_of_mem s (by rwa [List.flatMap_singleton])
  simp only [apply] at h
  split at h
  · next hempty =>
    obtain ⟨rfl, rfl⟩ := Naming.pure_eq.mp h
    have hnone : ∀ n, (s.restrictTo [e]).exprs.get? n = none := by
      intro n
      rw [Table.get?, List.isEmpty_iff.mp (Bool.and_eq_true_iff.mp hempty).1]
      rfl
    have hle : v.LeOn v' e.freeOccs :=
      ⟨fun n hn => hmaps.kept n hn ((hrelevant n hn).symm.trans (hnone n)), hmaps.markers⟩
    exact ⟨le_rfl, View.sizeOf_mono hle, hguarded.mono le_rfl e hle (.refl args)⟩
  · exact (runs_of_onExpr e h).guarded (hmaps.congr hrelevant) hguarded

/-- Several expressions, one after the other. -/
theorem applyAll_guarded {es es' : List Expr} (h : s.applyAll es σ = (es', σ'))
    (hmaps : s.Maps σ.counters v v' (es.flatMap Expr.freeOccs))
    (hguarded : ∀ e ∈ es, Guarded σ.counters v e []) :
    σ.counters ≤ σ'.counters ∧ es'.length = es.length ∧ ∀ e ∈ es', Guarded σ'.counters v' e [] := by
  induction es generalizing es' σ with
  | nil =>
    obtain ⟨rfl, rfl⟩ := Naming.pure_eq.mp h
    exact ⟨le_rfl, rfl, nofun⟩
  | cons e rest ih =>
    simp only [applyAll, Naming.bind_eq, Naming.pure_eq] at h
    obtain ⟨e', σ₁, he, rest', σ₂, hrest, rfl, rfl⟩ := h
    rw [List.flatMap_cons] at hmaps
    obtain ⟨hgrows, _, he'⟩ := apply_guarded he (hmaps.subset (List.subset_append_left _ _))
      (hguarded e List.mem_cons_self)
    obtain ⟨hgrows', hlength, hrest'⟩ :=
      ih hrest ((hmaps.subset (List.subset_append_right _ _)).mono hgrows)
        fun r hr => (hguarded r (List.mem_cons_of_mem _ hr)).grow hgrows
    refine ⟨hgrows.trans hgrows', congrArg (· + 1) hlength,
      List.forall_mem_cons.mpr ⟨he'.grow hgrows', hrest'⟩⟩

end Subst

end StructRec
