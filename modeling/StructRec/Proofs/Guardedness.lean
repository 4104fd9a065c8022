import Mathlib.Order.Nat
import StructRec.Decl
import StructRec.Proofs.FreshNames

/-!
# StructRec — guarded expressions

What makes a group structurally recursive is a property of the right-hand sides alone, once it is
known what the names around them stand for. A `View` says that: a name is a value, of which it may
be known that it is the decreasing parameter (`whole`) or a strict part of it (`part`), or it is a
function of the group that has to be called with a strict part at a given position, or it is not in
scope at all. `Guarded` checks an expression against a view. It says at once that

- every call of a function of the group passes a strict part at the right position,
- every free variable is in scope and every marker is admitted,
- every bound name is settled, so no name that is generated later clashes with it.

One judgement for the three is what lets a single induction carry them through substitution,
inlining and the splitting of functions. It only gets easier to satisfy with more knowledge
(**`Guarded.mono`**), and it looks at free variables only.
-/

namespace StructRec

/-! ## What is known of a name -/

/-- What is known of a value, compared to the decreasing parameter of the function around it. -/
inductive Size where
  | any
  | whole
  | part
deriving DecidableEq

namespace Size

def rank : Size → Nat
  | any => 0
  | whole => 1
  | part => 2

/-- More is known of a strict part than of the parameter itself, and least of other values. -/
instance : Preorder Size := Preorder.lift rank

instance (a b : Size) : Decidable (a ≤ b) := inferInstanceAs (Decidable (a.rank ≤ b.rank))

/-- What is known of the fields of a value. -/
def field : Size → Size
  | any => any
  | whole | part => part

theorem any_le (a : Size) : any ≤ a := Nat.zero_le a.rank

/-- Only a strict part is known as well as one. -/
theorem eq_part_of_le {a : Size} (h : part ≤ a) : a = part := by
  cases a with
  | any | whole => exact absurd h (by decide)
  | part => rfl

/-- Fields of what is known better are known better. -/
theorem field_mono {a b : Size} (h : a ≤ b) : a.field ≤ b.field := by
  revert h
  cases a <;> cases b <;> decide

end Size

/-- What a name in scope stands for. -/
inductive Known where
  | value (size : Size)
  /-- A function of the group, to be called with a strict part at this position. -/
  | callee (position : Nat)

namespace Known

def size : Known → Size
  | value size => size
  | callee _ => .any

/-- The order of knowledge; functions of the group are known exactly. -/
inductive Le : Known → Known → Prop where
  | value {a b : Size} (h : a ≤ b) : Le (value a) (value b)
  | callee (position : Nat) : Le (callee position) (callee position)

theorem Le.refl (k : Known) : Le k k := by
  cases k with
  | value size => exact .value le_rfl
  | callee position => exact .callee position

theorem Le.size_le {k l : Known} (h : Le k l) : k.size ≤ l.size := by
  cases h with
  | value h => exact h
  | callee position => exact le_rfl

/-- Whether a name may be used with arguments of these sizes. -/
def Admits : Known → List Size → Prop
  | value _, _ => True
  | callee position, args => args[position]? = some .part

end Known

/-- Strict parts stay strict parts at their positions. -/
def ArgsLe (args args' : List Size) : Prop :=
  ∀ i : Nat, args[i]? = some .part → args'[i]? = some .part

theorem ArgsLe.refl (args : List Size) : ArgsLe args args := fun _ h => h

theorem ArgsLe.nil (args : List Size) : ArgsLe [] args := fun _ h => by cases h

theorem ArgsLe.cons {a b : Size} {args args' : List Size} (hsize : a ≤ b)
    (hargs : ArgsLe args args') : ArgsLe (a :: args) (b :: args') := by
  intro i h
  cases i with
  | zero =>
    obtain rfl := Option.some.inj h
    exact congrArg some (Size.eq_part_of_le hsize)
  | succ i => exact hargs i h

/-- A call that is admitted stays so with better arguments. -/
theorem Known.Admits.mono {k l : Known} {args args' : List Size} (h : k.Admits args) (hle : k.Le l)
    (hargs : ArgsLe args args') : l.Admits args' := by
  cases hle with
  | value _ => trivial
  | callee position => exact hargs position h

/-! ## Views -/

/-- What the names around an expression stand for, and the markers that it may hold. -/
@[ext]
structure View where
  facts : Name → Option Known
  markers : Name → Prop

namespace View

variable {n : Name} {bindings : List (Name × Size)} {names : List Name}

/-- Bind a name to a value. -/
def bind (v : View) (n : Name) (size : Size) : View :=
  { v with facts := fun m => if m = n then some (.value size) else v.facts m }

/-- Bind names to values in order; of two bindings of a name the later counts. -/
def binds (v : View) : List (Name × Size) → View
  | [] => v
  | (n, size) :: rest => (v.bind n size).binds rest

/-- Bind names to values of which the same is known. -/
def bindAll (v : View) (names : List Name) (size : Size) : View :=
  { v with facts := fun m => if m ∈ names then some (.value size) else v.facts m }

/-- What is known of an expression. -/
def sizeOf (v : View) : Expr → Size
  | .var _ n => ((v.facts n).map Known.size).getD .any
  | _ => .any

/-- At this name the second view knows no less. -/
def LeAt (v v' : View) (n : Name) : Prop :=
  ∀ k, v.facts n = some k → ∃ k', v'.facts n = some k' ∧ k.Le k'

variable {v v' : View}

theorem LeAt.refl (v : View) (n : Name) : v.LeAt v n := fun k h => ⟨k, h, .refl k⟩

theorem LeAt.of_eq (h : v'.facts n = v.facts n) : v.LeAt v' n :=
  fun k hk => ⟨k, h.trans hk, .refl k⟩

@[simp]
theorem facts_bindAll (v : View) (names : List Name) (size : Size) (n : Name) :
    (v.bindAll names size).facts n = if n ∈ names then some (.value size) else v.facts n := rfl

@[simp]
theorem markers_binds (v : View) (bindings : List (Name × Size)) :
    (v.binds bindings).markers = v.markers := by
  induction bindings generalizing v with
  | nil => rfl
  | cons binding rest ih => exact ih _

/-- Binders hide nothing but their names. -/
theorem facts_binds_of_notMem (v : View) (h : n ∉ bindings.map Prod.fst) :
    (v.binds bindings).facts n = v.facts n := by
  induction bindings generalizing v with
  | nil => rfl
  | cons binding rest ih =>
    rw [List.map_cons, List.mem_cons, not_or] at h
    rw [binds, ih _ h.2]
    exact if_neg h.1

/-- A bound name is what its last binding says, whatever is known of the names around. -/
theorem facts_binds_of_mem (v v' : View) (h : n ∈ bindings.map Prod.fst) :
    ∃ size, (n, size) ∈ bindings ∧ (v.binds bindings).facts n = some (.value size) ∧
      (v'.binds bindings).facts n = some (.value size) := by
  induction bindings generalizing v v' with
  | nil => cases h
  | cons binding rest ih =>
    obtain ⟨m, size⟩ := binding
    by_cases hrest : n ∈ rest.map Prod.fst
    · obtain ⟨size', hmem, hv, hv'⟩ := ih (v.bind m size) (v'.bind m size) hrest
      exact ⟨size', List.mem_cons_of_mem _ hmem, hv, hv'⟩
    · obtain rfl : n = m := (List.mem_cons.mp h).resolve_right hrest
      refine ⟨size, List.mem_cons_self, ?_, ?_⟩
      · rw [binds, facts_binds_of_notMem _ hrest]
        exact if_pos rfl
      · rw [binds, facts_binds_of_notMem _ hrest]
        exact if_pos rfl

/-- Binders of one size may be bound at once. -/
theorem binds_uniform (v : View) (names : List Name) (size : Size) :
    v.binds (names.map (·, size)) = v.bindAll names size := by
  refine View.ext (funext fun n => ?_) (markers_binds v _)
  have hkeys : (names.map (·, size)).map Prod.fst = names := by
    rw [List.map_map]
    exact List.map_id names
  by_cases h : n ∈ names
  · obtain ⟨size', hmem, hfacts, _⟩ := facts_binds_of_mem v v (hkeys.symm ▸ h)
    obtain ⟨_, _, heq⟩ := List.mem_map.mp hmem
    rw [hfacts, facts_bindAll, if_pos h, (Prod.mk.inj heq).2]
  · rw [facts_binds_of_notMem v (hkeys.symm ▸ h), facts_bindAll, if_neg h]

theorem binds_replicate (v : View) {count : Nat} (h : count = names.length) (size : Size) :
    v.binds (names.zip (List.replicate count size)) = v.bindAll names size := by
  have hzip : names.zip (List.replicate count size) = names.map (·, size) := by
    subst h
    induction names with
    | nil => rfl
    | cons n rest ih => exact congrArg ((n, size) :: ·) ih
  rw [hzip, binds_uniform]

/-- **Under binders** only what they do not hide is compared. -/
theorem LeAt.bindAll {size size' : Size} (hsize : size ≤ size') (h : n ∉ names → v.LeAt v' n) :
    (v.bindAll names size).LeAt (v'.bindAll names size') n := by
  intro k hk
  rw [facts_bindAll] at hk ⊢
  by_cases hn : n ∈ names
  · rw [if_pos hn] at hk ⊢
    obtain rfl := Option.some.inj hk
    exact ⟨_, rfl, .value hsize⟩
  · rw [if_neg hn] at hk ⊢
    exact h hn k hk

theorem LeAt.binds (h : n ∉ bindings.map Prod.fst → v.LeAt v' n) :
    (v.binds bindings).LeAt (v'.binds bindings) n := by
  by_cases hn : n ∈ bindings.map Prod.fst
  · obtain ⟨size, _, hv, hv'⟩ := facts_binds_of_mem v v' hn
    exact .of_eq (hv'.trans hv.symm)
  · intro k hk
    rw [facts_binds_of_notMem _ hn] at hk ⊢
    exact h hn k hk

/-- At all of these names, and for markers, the second view knows no less. -/
structure LeOn (v v' : View) (names : List Name) : Prop where
  facts : ∀ n ∈ names, v.LeAt v' n
  markers : ∀ m, v.markers m → v'.markers m

theorem LeOn.refl (v : View) (names : List Name) : v.LeOn v names :=
  ⟨fun n _ => .refl v n, fun _ h => h⟩

theorem LeOn.subset {names' : List Name} (h : v.LeOn v' names) (hsub : names' ⊆ names) :
    v.LeOn v' names' :=
  ⟨fun n hn => h.facts n (hsub hn), h.markers⟩

/-- Under binders it is enough to compare the views at the names that stay free. -/
theorem LeOn.bindAll {bound : List Name} {size size' : Size}
    (h : v.LeOn v' (names.filter (· ∉ bound))) (hsize : size ≤ size') :
    (v.bindAll bound size).LeOn (v'.bindAll bound size') names :=
  ⟨fun n hn => .bindAll hsize fun hfree =>
    h.facts n (List.mem_filter.mpr ⟨hn, decide_eq_true hfree⟩), h.markers⟩

theorem sizeOf_var (v : View) (note : Note) (n : Name) :
    v.sizeOf (.var note n) = ((v.facts n).map Known.size).getD .any := rfl

/-- An expression is known no less well in a better view. -/
theorem sizeOf_mono {e : Expr} (h : v.LeOn v' e.freeOccs) : v.sizeOf e ≤ v'.sizeOf e := by
  cases e with
  | var note n =>
    rw [sizeOf_var, sizeOf_var]
    cases hk : v.facts n with
    | none => exact Size.any_le _
    | some k =>
      obtain ⟨k', hk', hle⟩ := h.facts n (List.mem_singleton.mpr rfl) k hk
      rw [hk']
      exact hle.size_le
  | _ => exact le_rfl

end View

/-! ## The judgement -/

/-- What is known of the variables of a pattern, given what is known of the scrutinee. -/
def Pattern.size : Pattern → Size → Size
  | con _ _, size => size.field
  | _, size => size

theorem Pattern.size_mono (p : Pattern) {a b : Size} (h : a ≤ b) : p.size a ≤ p.size b := by
  cases p with
  | con name vars => exact Size.field_mono h
  | _ => exact h

mutual

/-- An expression that is applied to arguments of the given sizes is guarded. -/
def Guarded (c : Counters) (v : View) : Expr → List Size → Prop
  | .var _ n, args => ∃ k, v.facts n = some k ∧ k.Admits args
  | .con .., _ | .intLit .., _ => True
  | .undefined _, _ => v.markers Expr.undefinedKey
  | .error .., _ => v.markers Expr.errorKey
  | .app _ fn arg, args => Guarded c v fn (v.sizeOf arg :: args) ∧ Guarded c v arg []
  | .typeApp _ fn _, args => Guarded c v fn args
  | .cond _ test thenBranch elseBranch, _ =>
    Guarded c v test [] ∧ Guarded c v thenBranch [] ∧ Guarded c v elseBranch []
  | .case _ scrutinee alts, _ =>
      Guarded c v scrutinee [] ∧ GuardedAlts c v (v.sizeOf scrutinee) alts
  | .lam _ params body, _ =>
    (∀ n ∈ binderNames params, c.Settled n) ∧
      Guarded c (v.bindAll (binderNames params) .any) body []
  | .letRec _ binds body, _ =>
    (∀ n ∈ Binds.names binds, c.Settled n) ∧
      GuardedRhss c (v.bindAll (Binds.names binds) .any) binds ∧
      Guarded c (v.bindAll (Binds.names binds) .any) body []

/-- The alternatives of a case on a scrutinee of the given size are guarded. -/
def GuardedAlts (c : Counters) (v : View) (size : Size) : Alts → Prop
  | [] => True
  | (pattern, rhs) :: rest =>
    (∀ n ∈ pattern.names, c.Settled n) ∧
      Guarded c (v.bindAll pattern.names (pattern.size size)) rhs [] ∧ GuardedAlts c v size rest

/-- The right-hand sides of a `let` are guarded. -/
def GuardedRhss (c : Counters) (v : View) : Binds → Prop
  | [] => True
  | (_, rhs) :: rest => Guarded c v rhs [] ∧ GuardedRhss c v rest

end

mutual

/-- **More knowledge keeps an expression guarded.** Only its free variables count. -/
theorem Guarded.mono {c c' : Counters} (hc : c ≤ c') {v v' : View} :
    (e : Expr) → v.LeOn v' e.freeOccs → {args args' : List Size} → ArgsLe args args' →
      Guarded c v e args → Guarded c' v' e args'
  | .var _ n, hle, _, _, hargs, h => by
    obtain ⟨k, hk, hadmits⟩ := h
    obtain ⟨k', hk', hkle⟩ := hle.facts n (List.mem_singleton.mpr rfl) k hk
    exact ⟨k', hk', hadmits.mono hkle hargs⟩
  | .con .., _, _, _, _, _ | .intLit .., _, _, _, _, _ => trivial
  | .undefined _, hle, _, _, _, h | .error .., hle, _, _, _, h => hle.markers _ h
  -- the argument is known better, and counts among those of the function
  | .app _ fn arg, hle, _, _, hargs, h => by
    have harg := hle.subset (List.subset_append_right fn.freeOccs arg.freeOccs)
    exact ⟨Guarded.mono hc fn (hle.subset (List.subset_append_left _ _))
      (hargs.cons (View.sizeOf_mono harg)) h.1, Guarded.mono hc arg harg (.refl _) h.2⟩
  | .typeApp _ fn _, hle, _, _, hargs, h => Guarded.mono hc fn hle hargs h
  | .cond _ test thenBranch elseBranch, hle, _, _, _, h => by
    have hfirst :=
      hle.subset
        (List.subset_append_left (test.freeOccs ++ thenBranch.freeOccs) elseBranch.freeOccs)
    exact ⟨Guarded.mono hc test (hfirst.subset (List.subset_append_left _ _)) (.refl _) h.1,
      Guarded.mono hc thenBranch (hfirst.subset (List.subset_append_right _ _)) (.refl _) h.2.1,
      Guarded.mono hc elseBranch (hle.subset (List.subset_append_right _ _)) (.refl _) h.2.2⟩
  | .case _ scrutinee alts, hle, _, _, _, h => by
    have hscrutinee :=
      hle.subset (List.subset_append_left scrutinee.freeOccs (Expr.freeOccsAlts alts))
    exact ⟨Guarded.mono hc scrutinee hscrutinee (.refl _) h.1,
      GuardedAlts.mono hc alts (hle.subset (List.subset_append_right _ _))
        (View.sizeOf_mono hscrutinee) h.2⟩
  | .lam _ params body, hle, _, _, _, h =>
    ⟨fun n hn => (h.1 n hn).mono hc, Guarded.mono hc body (hle.bindAll le_rfl) (.refl _) h.2⟩
  | .letRec _ binds body, hle, _, _, _, h => by
    have hinner := View.LeOn.bindAll hle (le_refl Size.any)
    exact ⟨fun n hn => (h.1 n hn).mono hc,
      GuardedRhss.mono hc binds (hinner.subset (List.subset_append_left _ _)) h.2.1,
      Guarded.mono hc body (hinner.subset (List.subset_append_right _ _)) (.refl _) h.2.2⟩

/-- The alternatives of a `case`, for a scrutinee that is known better. -/
theorem GuardedAlts.mono {c c' : Counters} (hc : c ≤ c') {v v' : View} :
    (alts : Alts) → v.LeOn v' (Expr.freeOccsAlts alts) → {size size' : Size} → size ≤ size' →
      GuardedAlts c v size alts → GuardedAlts c' v' size' alts
  | [], _, _, _, _, _ => trivial
  | (pattern, rhs) :: rest, hle, _, _, hsize, h => by
    have hrhs := (hle.subset (List.subset_append_left _ _)).bindAll (pattern.size_mono hsize)
    exact ⟨fun n hn => (h.1 n hn).mono hc, Guarded.mono hc rhs hrhs (.refl _) h.2.1,
      GuardedAlts.mono hc rest (hle.subset (List.subset_append_right _ _)) hsize h.2.2⟩

theorem GuardedRhss.mono {c c' : Counters} (hc : c ≤ c') {v v' : View} :
    (binds : Binds) → v.LeOn v' (Expr.freeOccsRhss binds) → GuardedRhss c v binds →
      GuardedRhss c' v' binds
  | [], _, _ => trivial
  | (_, rhs) :: rest, hle, h =>
    ⟨Guarded.mono hc rhs (hle.subset (List.subset_append_left _ _)) (.refl _) h.1,
      GuardedRhss.mono hc rest (hle.subset (List.subset_append_right _ _)) h.2⟩

end

/-! Names that are generated later do not matter. -/

section grow

variable {c c' : Counters} {v : View}

/-- Names that are settled stay settled. -/
theorem Guarded.grow {e : Expr} {args : List Size} (h : Guarded c v e args) (hc : c ≤ c') :
    Guarded c' v e args :=
  h.mono hc e (.refl v _) (.refl args)

theorem GuardedAlts.grow {alts : Alts} {size : Size} (h : GuardedAlts c v size alts) (hc : c ≤ c') :
    GuardedAlts c' v size alts := h.mono hc alts (.refl v _) le_rfl

theorem GuardedRhss.grow {binds : Binds} (h : GuardedRhss c v binds) (hc : c ≤ c') :
    GuardedRhss c' v binds :=
  h.mono hc binds (.refl v _)

end grow

end StructRec
