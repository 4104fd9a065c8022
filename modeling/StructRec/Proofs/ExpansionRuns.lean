import StructRec.Proofs.SynonymRewriting

/-!
# StructRec — expansions end

A synonym may refer to itself, directly or through others, and what it unfolds to may be larger than
what it stood for. An expansion ends all the same, since it keeps the names of the synonyms whose
right-hand sides it is in and unfolds none of them again. The arguments of a synonym are expanded
before it is unfolded, so they may unfold it, too.

`Environment.Expands` is the run of an expansion, with no bound on its depth: each step looks at the
head of a type, unfolds it or goes on to the parts. It logs when a synonym is unfolded and when its
right-hand side has been expanded. What has no finite run has no result there, so that every type
has one says that every expansion ends.
-/

namespace StructRec

variable {name : Name}

/-! ## Runs -/

/-- What a run logs about a synonym. -/
inductive ExpansionEvent where
  /-- The synonym is unfolded, and the expansion of its right-hand side begins. -/
  | opened (name : Name)
  /-- The right-hand side has been expanded. -/
  | closed (name : Name)
deriving DecidableEq

namespace Environment

/-- The head of a type is a synonym that is unfolded: a registered and accepted one, with as many
arguments as it has parameters, whose right-hand side is not being expanded. -/
structure UnfoldsHead (env : Environment) (accepts : Name → Bool) (expanding : List Name) (t : Ty)
    (syn : SynonymEntry) (args : List Ty) : Prop where
  spine : t.spine = (.con syn.name, args)
  registered : env.synonym? syn.name = some syn
  accepted : accepts syn.name = true
  saturated : syn.typeParams.length = args.length
  idle : syn.name ∉ expanding

/-- The run of an expansion of a type, inside the right-hand sides of some synonyms, with its log
and its result. -/
inductive Expands (env : Environment) (accepts : Name → Bool) :
    List Name → Ty → List ExpansionEvent → Ty → Prop
  | unfold {expanding : List Name} {t : Ty} {syn : SynonymEntry} {args : List Ty}
      {argLog : Ty → List ExpansionEvent}
      {expandedArg : Ty → Ty} {log : List ExpansionEvent} {result : Ty}
      (hhead : env.UnfoldsHead accepts expanding t syn args)
      (hargs : ∀ a ∈ args, Expands env accepts expanding a (argLog a) (expandedArg a))
      (hrhs : Expands env accepts (syn.name :: expanding)
        (syn.unfold (args.map expandedArg)) log result) :
    Expands env accepts expanding t
      (args.flatMap argLog ++ .opened syn.name :: (log ++ [.closed syn.name])) result
  | var (expanding : List Name) (name : Name) :
      Expands env accepts expanding (.var name) [] (.var name)
  | con {expanding : List Name} {name : Name}
      (hhead : ∀ syn args, ¬ env.UnfoldsHead accepts expanding (.con name) syn args) :
    Expands env accepts expanding (.con name) [] (.con name)
  | app {expanding : List Name} {l r l' r' : Ty} {logl logr : List ExpansionEvent}
      (hhead : ∀ syn args, ¬ env.UnfoldsHead accepts expanding (.app l r) syn args)
      (hl : Expands env accepts expanding l logl l')
      (hr : Expands env accepts expanding r logr r') :
    Expands env accepts expanding (.app l r) (logl ++ logr) (.app l' r')
  | func {expanding : List Name} {l r l' r' : Ty} {logl logr : List ExpansionEvent}
      (hl : Expands env accepts expanding l logl l')
      (hr : Expands env accepts expanding r logr r') :
    Expands env accepts expanding (.func l r) (logl ++ logr) (.func l' r')

end Environment

theorem Environment.synonym?_eq_some_iff {env : Environment} {syn : SynonymEntry} :
    env.synonym? name = some syn ↔ env.types.get? name = some (.synonym syn) := by
  unfold Environment.synonym?
  split <;> simp_all

/-- The synonym that a run finds by its name among all of them is the one registered under the
name. -/
theorem Environment.synonymNamed?_synonyms (env : Environment) (name : Name) :
    synonymNamed? env.synonyms name = env.synonym? name := by
  ext syn
  rw [synonym?_eq_some_iff]
  constructor
  · intro hfound
    obtain ⟨hmem, rfl⟩ := synonymNamed?_some hfound
    exact mem_synonyms_iff.mp hmem
  · intro hget
    obtain rfl : syn.name = name := env.typesNamed _ (Table.mem_entries_iff.mpr hget)
    obtain ⟨found, hfound⟩ :=
      Option.ne_none_iff_exists'.mp (synonymNamed?_ne_none (mem_synonyms_iff.mpr hget))
    obtain ⟨hmem, hname⟩ := synonymNamed?_some hfound
    -- both are registered under the name
    have hsame := mem_synonyms_iff.mp hmem
    rw [hname, hget] at hsame
    cases hsame
    exact hfound

/-! ## One level of an expansion -/

namespace Ty

section expandOnto

variable {available : List SynonymEntry} {unfolded unfolded' : SynonymEntry → List Ty → Ty}

/-- Only what available synonyms unfold to counts. -/
theorem expandOnto_congr (h : ∀ syn ∈ available, ∀ args, unfolded syn args = unfolded' syn args)
    (t : Ty) (args : List Ty) :
    t.expandOnto available unfolded args = t.expandOnto available unfolded' args := by
  induction t generalizing args with
  | var name => rfl
  | con name =>
    unfold expandOnto
    split
    · next syn hfind => rw [h syn (List.mem_of_find?_eq_some hfind)]
    · rfl
  | app fn arg ihf iha => rw [expandOnto, expandOnto, iha, ihf]
  | func dom cod ihd ihc => rw [expandOnto, expandOnto, ihd, ihc]

theorem expandOnto_nil (t : Ty) (args : List Ty) :
    t.expandOnto [] unfolded args = apply t args := by
  induction t generalizing args with
  | var name => rfl
  | con name => rfl
  | app fn arg ihf iha => rw [expandOnto, iha, ihf]; rfl
  | func dom cod ihd ihc => rw [expandOnto, ihd, ihc]; rfl

/-- Arguments collected on the way down end up at the end of the spine. -/
theorem spineOnto_eq (t : Ty) (args : List Ty) :
    t.spineOnto args = (t.spine.1, t.spine.2 ++ args) := by
  induction t generalizing args with
  | var | con | func => rfl
  | app fn arg ihf _ =>
    rw [spine, spineOnto, spineOnto, ihf, ihf [arg]]
    simp

theorem spine_app (fn arg : Ty) : (app fn arg).spine = (fn.spine.1, fn.spine.2 ++ [arg]) :=
  spineOnto_eq fn [arg]

theorem spine_head_ne_app (t fn arg : Ty) : t.spine.1 ≠ app fn arg := by
  induction t with
  | var | con | func => exact Ty.noConfusion
  | app l r ihl _ => rw [spine_app]; exact ihl

/-- Arguments are smaller than the type. -/
theorem sizeOf_lt_of_mem_spine {t a : Ty} (h : a ∈ t.spine.2) : sizeOf a < sizeOf t := by
  induction t with
  | var | con | func => cases h
  | app fn arg ihf _ =>
    rw [spine_app, List.mem_append, List.mem_singleton] at h
    rw [app.sizeOf_spec]
    rcases h with h | rfl
    · have := ihf h
      omega
    · omega

/-- The arguments on the spine of a type are expanded, and then put onto its head. -/
theorem expandOnto_spine (t : Ty) (args : List Ty) :
    t.expandOnto available unfolded args
      = t.spine.1.expandOnto available unfolded
        (t.spine.2.map (·.expandOnto available unfolded []) ++ args) := by
  induction t generalizing args with
  | var | con | func => rfl
  | app fn arg ihf _ => rw [expandOnto, ihf, spine_app]; simp

/-- One more argument makes a difference only to a synonym that takes it as its last. -/
theorem expandOnto_concat {head : Ty} (happ : ∀ fn arg, head ≠ app fn arg) (args : List Ty) (a : Ty)
    (hmore : ∀ name syn, head = con name → synonymNamed? available name = some syn →
      syn.typeParams.length ≠ args.length + 1) :
    head.expandOnto available unfolded (args ++ [a]) =
      app (head.expandOnto available unfolded args) a := by
  cases head with
  | var name => exact apply_append _ args [a]
  | func dom cod => exact apply_append _ args [a]
  | app fn arg => exact absurd rfl (happ fn arg)
  | con name =>
    unfold expandOnto
    split
    · next syn hfind =>
      have hne := hmore name syn rfl hfind
      rw [List.length_append, List.length_singleton]
      by_cases hle : syn.typeParams.length ≤ args.length
      · rw [if_pos hle, if_pos (by omega), List.take_append_of_le_length hle,
          List.drop_append_of_le_length hle]
        exact apply_append _ _ [a]
      · rw [if_neg hle, if_neg (by omega)]
        exact apply_append _ args [a]
    · exact apply_append _ args [a]

end expandOnto

/-- Levels beyond the number of available synonyms are never reached. -/
theorem expandWithin_congr {available : List SynonymEntry} {depth depth' : Nat}
    (h : available.length ≤ depth) (h' : available.length ≤ depth') (t : Ty) :
    t.expandWithin depth available = t.expandWithin depth' available := by
  have hempty (depth : Nat) (t : Ty) : t.expandWithin depth [] = t := by
    cases depth with
    | zero => rfl
    | succ depth => exact expandOnto_nil t []
  induction depth generalizing available depth' t with
  | zero =>
    obtain rfl := List.length_eq_zero_iff.mp (Nat.le_zero.mp h)
    rw [hempty, hempty]
  | succ depth ih =>
    cases depth' with
    | zero =>
      obtain rfl := List.length_eq_zero_iff.mp (Nat.le_zero.mp h')
      rw [hempty, hempty]
    | succ depth' =>
      refine expandOnto_congr (fun syn hsyn args => ?_) t []
      -- each level has a synonym less, so the depth is never used up
      have hfewer : (available.filter (·.name ≠ syn.name)).length < available.length :=
        List.length_filter_lt_length_iff_exists.mpr ⟨syn, hsyn, by simp⟩
      exact ih (by omega) (by omega) _

/-- **An expansion, by one level.** What a synonym unfolds to is expanded with the other
synonyms. -/
theorem expand_eq (available : List SynonymEntry) (t : Ty) :
    t.expand available = t.expandOnto available
      (fun syn args => (syn.unfold args).expand (available.filter (·.name ≠ syn.name))) [] := by
  have hdeeper : t.expand available = t.expandWithin (available.length + 1) available :=
    expandWithin_congr (Nat.le_refl _) (Nat.le_succ _) t
  rw [hdeeper, expandWithin]
  refine expandOnto_congr (fun syn hsyn args => ?_) t []
  exact expandWithin_congr (List.length_filter_le _ _) (Nat.le_refl _) _

end Ty

/-! ## What is left to unfold -/

/-- A condition on names keeps or removes all synonyms of a name. -/
theorem synonymNamed?_filter (p : Name → Prop) [DecidablePred p] (synonyms : List SynonymEntry)
    (name : Name) :
    synonymNamed? (synonyms.filter fun syn => p syn.name) name =
      if p name then synonymNamed? synonyms name else none := by
  unfold synonymNamed?
  induction synonyms with
  | nil => simp
  | cons syn rest ih =>
    by_cases hsyn : syn.name = name
    · subst hsyn
      by_cases hp : p syn.name <;> simp_all
    · by_cases hp : p syn.name <;> simp_all

namespace Environment

/-- The synonyms that can be unfolded inside the right-hand sides of others. -/
def available (env : Environment) (accepts : Name → Bool) (expanding : List Name) :
    List SynonymEntry :=
  env.synonyms.filter fun syn => accepts syn.name = true ∧ syn.name ∉ expanding

section expand

variable {env : Environment} {accepts : Name → Bool} {expanding : List Name}
variable {syn : SynonymEntry} {t : Ty}

theorem expandWhere_eq (t : Ty) :
    env.expandWhere accepts t = t.expand (env.available accepts []) := by
  simp [expandWhere, available]

/-- One synonym less to expand. -/
theorem available_cons (name : Name) :
    (env.available accepts expanding).filter (·.name ≠ name) =
      env.available accepts (name :: expanding) := by
  rw [available, available, List.filter_filter]
  congr 1
  funext syn
  rw [← Bool.decide_and, decide_eq_decide, List.mem_cons, not_or]
  exact and_left_comm

/-- Available are registered synonyms that are accepted and not being expanded. -/
theorem synonymNamed?_available :
    synonymNamed? (env.available accepts expanding) name = some syn ↔
      env.synonym? name = some syn ∧ accepts name = true ∧ name ∉ expanding := by
  rw [available, synonymNamed?_filter fun name => accepts name = true ∧ name ∉ expanding,
    synonymNamed?_synonyms]
  split
  · next hname => exact (and_iff_left hname).symm
  · next hname => exact iff_of_false (by simp) fun h => hname h.2

/-- A type whose head is unfolded: its arguments are expanded first, then the right-hand side
without the synonym. -/
theorem expand_unfold {args : List Ty} (h : env.UnfoldsHead accepts expanding t syn args) :
    t.expand (env.available accepts expanding)
      = (syn.unfold (args.map (·.expand (env.available accepts expanding)))).expand
          (env.available accepts (syn.name :: expanding)) := by
  have hfound : (env.available accepts expanding).find? (·.name = syn.name) = some syn :=
    synonymNamed?_available.mpr ⟨h.registered, h.accepted, h.idle⟩
  have hargs : args.map (·.expandOnto (env.available accepts expanding) (fun syn args =>
        (syn.unfold args).expand ((env.available accepts expanding).filter (·.name ≠ syn.name))) [])
      = args.map (·.expand (env.available accepts expanding)) :=
    List.map_congr_left fun a _ => (Ty.expand_eq _ a).symm
  have hcount : syn.typeParams.length =
      (args.map (·.expand (env.available accepts expanding))).length := by
    rw [List.length_map, h.saturated]
  rw [Ty.expand_eq, Ty.expandOnto_spine, h.spine, List.append_nil, hargs, Ty.expandOnto, hfound]
  simp only
  rw [if_pos hcount.le, hcount, List.take_length, List.drop_length, available_cons]
  rfl

/-- A type whose head is not unfolded is expanded part by part. -/
theorem expand_app {l r : Ty}
    (h : ∀ syn args, ¬ env.UnfoldsHead accepts expanding (.app l r) syn args) :
    (Ty.app l r).expand (env.available accepts expanding)
      = .app (l.expand (env.available accepts expanding))
        (r.expand (env.available accepts expanding)) := by
  rw [Ty.expand_eq, Ty.expand_eq _ l, Ty.expand_eq _ r, Ty.expandOnto, Ty.expandOnto_spine l,
    Ty.expandOnto_spine l []]
  rw [List.append_nil]
  refine Ty.expandOnto_concat (Ty.spine_head_ne_app l) _ _ fun name syn hhead hfound hlen => ?_
  obtain ⟨hregistered, haccepted, hidle⟩ := synonymNamed?_available.mp hfound
  obtain rfl := (synonymNamed?_some hfound).2
  refine h syn (l.spine.2 ++ [r]) ⟨?_, hregistered, haccepted, ?_, hidle⟩
  · rw [Ty.spine_app, hhead]
  · rw [hlen, List.length_map, List.length_append, List.length_singleton]

theorem expand_var (name : Name) :
    (Ty.var name).expand (env.available accepts expanding) = .var name := by
  rw [Ty.expand_eq]
  rfl

/-- A constructor that is no synonym to expand stays. -/
theorem expand_con (h : ∀ syn args, ¬ env.UnfoldsHead accepts expanding (.con name) syn args) :
    (Ty.con name).expand (env.available accepts expanding) = .con name := by
  rw [Ty.expand_eq, Ty.expandOnto]
  split
  · next syn hfind =>
    obtain ⟨hregistered, haccepted, hidle⟩ := synonymNamed?_available.mp hfind
    obtain rfl := (synonymNamed?_some hfind).2
    refine if_neg fun hle => h syn [] ⟨rfl, hregistered, haccepted, Nat.le_zero.mp hle, hidle⟩
  · rfl

theorem expand_func (l r : Ty) :
    (Ty.func l r).expand (env.available accepts expanding)
      = .func (l.expand (env.available accepts expanding))
        (r.expand (env.available accepts expanding)) := by
  rw [Ty.expand_eq, Ty.expand_eq _ l, Ty.expand_eq _ r, Ty.expandOnto]
  rfl

/-! ## Runs end -/

/-- **Every expansion ends**, with the result that is computed. Inside the right-hand side of a
synonym fewer synonyms can be unfolded, however large it is; everywhere else the type gets
smaller. -/
theorem exists_run (env : Environment) (accepts : Name → Bool) (expanding : List Name) (t : Ty) :
    ∃ log, env.Expands accepts expanding t log (t.expand (env.available accepts expanding)) := by
  by_cases hunfolds : ∃ syn args, env.UnfoldsHead accepts expanding t syn args
  · obtain ⟨syn, args, hhead⟩ := hunfolds
    have hargs (a : Ty) : ∃ log, a ∈ args →
        env.Expands accepts expanding a log (a.expand (env.available accepts expanding)) := by
      by_cases ha : a ∈ args
      · have hsmaller : sizeOf a < sizeOf t := Ty.sizeOf_lt_of_mem_spine (by rwa [hhead.spine])
        obtain ⟨log, hrun⟩ := exists_run env accepts expanding a
        exact ⟨log, fun _ => hrun⟩
      · exact ⟨[], fun hmem => absurd hmem ha⟩
    choose argLog hargs using hargs
    -- recursion: arguments are smaller, and under an unfolded synonym fewer ones are left
    have hfewer : (env.available accepts (syn.name :: expanding)).length <
        (env.available accepts expanding).length := by
      have hfound := synonymNamed?_available.mpr ⟨hhead.registered, hhead.accepted, hhead.idle⟩
      rw [← available_cons]
      exact List.length_filter_lt_length_iff_exists.mpr
        ⟨syn, (synonymNamed?_some hfound).1, by simp⟩
    obtain ⟨log, hrhs⟩ := exists_run env accepts (syn.name :: expanding)
      (syn.unfold (args.map (·.expand (env.available accepts expanding))))
    rw [expand_unfold hhead]
    exact ⟨_, .unfold hhead hargs hrhs⟩
  · have hhead (syn : SynonymEntry) (args : List Ty) :
        ¬ env.UnfoldsHead accepts expanding t syn args :=
      fun h => hunfolds ⟨syn, args, h⟩
    cases t with
    | var name =>
      rw [expand_var]
      exact ⟨[], .var expanding name⟩
    | con name =>
      rw [expand_con hhead]
      exact ⟨[], .con hhead⟩
    | app l r =>
      obtain ⟨logl, hl⟩ := exists_run env accepts expanding l
      obtain ⟨logr, hr⟩ := exists_run env accepts expanding r
      rw [expand_app hhead]
      exact ⟨_, .app hhead hl hr⟩
    | func l r =>
      obtain ⟨logl, hl⟩ := exists_run env accepts expanding l
      obtain ⟨logr, hr⟩ := exists_run env accepts expanding r
      rw [expand_func]
      exact ⟨_, .func hl hr⟩
termination_by ((env.available accepts expanding).length, sizeOf t)

theorem UnfoldsHead.unique {syn' : SynonymEntry} {args args' : List Ty}
    (h : env.UnfoldsHead accepts expanding t syn args)
    (h' : env.UnfoldsHead accepts expanding t syn' args') : syn = syn' ∧ args = args' := by
  obtain ⟨hname, hargs⟩ := Prod.mk.inj (h.spine.symm.trans h'.spine)
  have hregistered := h.registered
  rw [Ty.con.inj hname, h'.registered] at hregistered
  exact ⟨(Option.some.inj hregistered).symm, hargs⟩

/-- A type is expanded in one way. -/
theorem Expands.unique {u u' : Ty} {log log' : List ExpansionEvent}
    (h : env.Expands accepts expanding t log u) (h' : env.Expands accepts expanding t log' u') :
    log = log' ∧ u = u' := by
  induction h generalizing log' u' with
  | @unfold expanding t syn args argLog expandedArg log result hhead _ _ ihargs ihrhs =>
    cases h' with
    | @unfold _ _ _ _ argLog' expandedArg' _ _ hhead' hargs' hrhs' =>
      -- both runs unfold the same synonym and agree on its arguments
      obtain ⟨rfl, rfl⟩ := hhead.unique hhead'
      have hlogs : args.flatMap argLog = args.flatMap argLog' :=
        List.flatMap_congr fun a ha => (ihargs a ha (hargs' a ha)).1
      have hexpanded : args.map expandedArg = args.map expandedArg' :=
        List.map_congr_left fun a ha => (ihargs a ha (hargs' a ha)).2
      rw [← hexpanded] at hrhs'
      obtain ⟨rfl, rfl⟩ := ihrhs hrhs'
      exact ⟨by rw [hlogs], rfl⟩
    | var => cases hhead.spine
    | con hno => exact absurd hhead (hno _ _)
    | app hno => exact absurd hhead (hno _ _)
    | func => cases hhead.spine
  | var =>
    cases h' with
    | unfold hhead' => cases hhead'.spine
    | var => exact ⟨rfl, rfl⟩
  | con hno =>
    cases h' with
    | unfold hhead' => exact absurd hhead' (hno _ _)
    | con => exact ⟨rfl, rfl⟩
  | app hno _ _ ihl ihr =>
    cases h' with
    | unfold hhead' => exact absurd hhead' (hno _ _)
    | app _ hl' hr' =>
      obtain ⟨rfl, rfl⟩ := ihl hl'
      obtain ⟨rfl, rfl⟩ := ihr hr'
      exact ⟨rfl, rfl⟩
  | func _ _ ihl ihr =>
    cases h' with
    | unfold hhead' => cases hhead'.spine
    | func hl' hr' =>
      obtain ⟨rfl, rfl⟩ := ihl hl'
      obtain ⟨rfl, rfl⟩ := ihr hr'
      exact ⟨rfl, rfl⟩

end expand

end Environment

/-! ## Logs -/

/-- The log of a run inside the right-hand sides of some synonyms. When a synonym is unfolded it is
none of them, and no right-hand side of its own is being expanded: as many have been expanded as it
has been unfolded. -/
structure Nested (expanding : List Name) (log : List ExpansionEvent) : Prop where
  balanced : ∀ name, log.count (.opened name) = log.count (.closed name)
  idle : ∀ before name after, log = before ++ .opened name :: after →
    name ∉ expanding ∧ before.count (.opened name) = before.count (.closed name)

namespace Nested

variable {expanding : List Name} {log log' : List ExpansionEvent}

theorem nil : Nested expanding [] := ⟨fun _ => rfl, fun before name after h => by simp at h⟩

/-- What happens in one part is over when the next begins. -/
theorem append (h : Nested expanding log) (h' : Nested expanding log') :
    Nested expanding (log ++ log') where
  balanced name := by rw [List.count_append, List.count_append, h.balanced, h'.balanced]
  idle before name after hlog := by
    rcases List.append_eq_append_iff.mp hlog with ⟨mid, rfl, hmid⟩ | ⟨mid, hmid, hrest⟩
    · -- the synonym is unfolded in the second part
      obtain ⟨hname, hcount⟩ := h'.idle mid name after hmid
      exact ⟨hname, by rw [List.count_append, List.count_append, h.balanced, hcount]⟩
    · cases mid with
      | nil =>
        rw [List.append_nil] at hmid
        subst hmid
        exact ⟨(h'.idle [] name after hrest.symm).1, h.balanced name⟩
      | cons event mid =>
        obtain ⟨rfl, _⟩ := List.cons.inj hrest
        exact h.idle before name mid hmid

theorem flatMap {args : List Ty} {argLog : Ty → List ExpansionEvent}
    (h : ∀ a ∈ args, Nested expanding (argLog a)) : Nested expanding (args.flatMap argLog) := by
  induction args with
  | nil => exact nil
  | cons a rest ih =>
    rw [List.forall_mem_cons] at h
    rw [List.flatMap_cons]
    exact h.1.append (ih h.2)

/-- Around the log of a right-hand side. -/
theorem unfold (hname : name ∉ expanding) (h : Nested (name :: expanding) log) :
    Nested expanding (.opened name :: (log ++ [.closed name])) where
  balanced n := by
    have hinside := h.balanced n
    by_cases hn : name = n <;> simp [hn, hinside]
  idle before n after hlog := by
    cases before with
    | nil =>
      obtain ⟨heq, _⟩ := List.cons.inj hlog
      cases heq
      exact ⟨hname, rfl⟩
    | cons event before =>
      obtain ⟨rfl, htail⟩ := List.cons.inj hlog
      -- the log ends with an event of another kind, so the synonym is unfolded inside
      obtain ⟨after', hinside⟩ : ∃ after', log = before ++ .opened n :: after' := by
        rcases List.append_eq_append_iff.mp htail with ⟨mid, rfl, hmid⟩ | ⟨mid, hmid, hrest⟩
        · cases mid with
          | nil => simp at hmid
          | cons first mid => simp at hmid
        · cases mid with
          | nil => simp at hrest
          | cons first mid =>
            obtain ⟨rfl, _⟩ := List.cons.inj hrest
            exact ⟨mid, hmid⟩
      obtain ⟨hn, hcount⟩ := h.idle before n after' hinside
      rw [List.mem_cons, not_or] at hn
      exact ⟨hn.2, by simp [Ne.symm hn.1, hcount]⟩

end Nested

/-- The log of a run is nested. -/
theorem Environment.Expands.nested {env : Environment} {accepts : Name → Bool}
    {expanding : List Name} {t u : Ty} {log : List ExpansionEvent}
    (h : env.Expands accepts expanding t log u) :
    Nested expanding log := by
  induction h with
  | unfold hhead _ _ ihargs ihrhs => exact (Nested.flatMap ihargs).append (ihrhs.unfold hhead.idle)
  | var | con => exact .nil
  | app _ _ _ ihl ihr | func _ _ ihl ihr => exact ihl.append ihr

/-- **Expansions end**, whatever synonyms are registered, whichever are accepted and however they
refer to each other. An expansion has one run, with the result that is computed, and whenever it
unfolds a synonym no right-hand side of this synonym is being expanded. -/
theorem Environment.expandWhere_ends (env : Environment) (accepts : Name → Bool) (t : Ty) :
    ∃ log, env.Expands accepts [] t log (env.expandWhere accepts t) ∧
      (∀ log' u, env.Expands accepts [] t log' u → log' = log ∧ u = env.expandWhere accepts t) ∧
      ∀ before name after, log = before ++ .opened name :: after →
        before.count (.opened name) = before.count (.closed name) := by
  obtain ⟨log, hrun⟩ := exists_run env accepts [] t
  rw [← expandWhere_eq] at hrun
  exact ⟨log, hrun, fun log' u h => h.unique hrun,
    fun before name after hlog => (hrun.nested.idle before name after hlog).2⟩

-- With `type A = List B` and `type B = A`, each of them is unfolded once in the other.
example :
    (Environment.addSynonym
      (Environment.addSynonym {}
        { name := "A", typeParams := [], rhs := .app (.con "List") (.con "B") })
      { name := "B", typeParams := [], rhs := .con "A" }).expand (.func (.con "A") (.con "B"))
      = .func (.app (.con "List") (.con "A")) (.app (.con "List") (.con "B")) := by decide

end StructRec
