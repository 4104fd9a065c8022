import Mathlib.Logic.Relation
import StructRec.Proofs.Paths

/-!
# StructRec — sub-values

What the calls of a function record of their arguments is so when the function runs. Values are
finite constructor terms, and an assignment gives the variables their values. On the way to an
occurrence every binder may take new values: the variables of a constructor pattern are fields of
the value that a `case` looks at, a variable pattern is that value, and of all other variables
nothing is known. A binder hides outer variables of its name.
-/

namespace StructRec

/-! ## Values -/

/-- Finite constructor terms. -/
inductive Value where
  | con (name : Name) (fields : List Value)

namespace Value

def fields : Value → List Value
  | con _ fields => fields

/-- A strict part: a field, or a field of a part. -/
def IsPartOf : Value → Value → Prop := Relation.TransGen fun field whole => field ∈ whole.fields

end Value

/-- The values of variables. -/
abbrev Assignment := Name → Value

/-- Whether the variables of a pattern can stand for parts of a value. -/
def Pattern.Fits (ρ : Assignment) (value : Value) : Pattern → Prop
  | con _ vars => ∀ b ∈ vars, ρ b.name ∈ value.fields
  | var b => ρ b.name = value
  | lit _ | wildcard => True

/-- Whether the variables of a frame can have values: in a `case` on a variable the pattern fits the
value of it. -/
def Frame.Fits (ρ ρ' : Assignment) : Frame → Prop
  | alternative (.var _ x) pattern => pattern.Fits ρ' (ρ x)
  | alternative _ _ | binders _ => True

/-- The variables of a frame take values, and all others keep theirs. -/
structure Frame.Takes (frame : Frame) (ρ ρ' : Assignment) : Prop where
  fits : frame.Fits ρ ρ'
  others : ∀ n ∉ frame.names, ρ' n = ρ n

/-- Assignments at both ends of a path. -/
inductive Follows : Assignment → List Frame → Assignment → Prop where
  | nil (ρ : Assignment) : Follows ρ [] ρ
  | cons {ρ ρ' ρ'' : Assignment} {frame : Frame} {path : List Frame} (head : frame.Takes ρ ρ')
      (tail : Follows ρ' path ρ'') : Follows ρ (frame :: path) ρ''

/-! ## Origins -/

/-- What an origin says of a value, given the values of the parameters. -/
def Origin.Describes (values : List Value) (value : Value) : Origin → Prop
  | unknown => True
  | equal k => values[k]? = some value
  | smaller k => ∃ whole, values[k]? = some whole ∧ value.IsPartOf whole

/-- A field of a value is smaller than the value. -/
theorem Origin.Describes.field {values : List Value} {value part : Value} {origin : Origin}
    (h : origin.Describes values value) (hpart : part ∈ value.fields) :
    origin.field.Describes values part := by
  cases origin with
  | unknown => trivial
  | equal k => exact ⟨value, h, .single hpart⟩
  | smaller k =>
    obtain ⟨whole, hwhole, hvalue⟩ := h
    exact ⟨whole, hwhole, .head hpart hvalue⟩

namespace Origins

variable {d : FuncDecl} {values : List Value} {o : Origins} {ρ ρ' : Assignment}

/-- What is known of the variables in scope is so. -/
structure Sound (d : FuncDecl) (values : List Value) (o : Origins) (ρ : Assignment) : Prop where
  known : ∀ n origin, o.lookup n = some origin → origin.Describes values (ρ n)
  /-- A name that no local binder hides is a parameter. -/
  params : ∀ n k, o.refersToBottom n = true → d.paramPosition? n = some k → values[k]? = some (ρ n)

theorem Sound.describes_of (h : Sound d values o ρ) (note : Note) (x : Name) :
    (o.of (.var note x)).Describes values (ρ x) := by
  rw [of]
  cases hx : o.lookup x with
  | none => trivial
  | some origin => exact h.known x origin hx

/-- The variables of a frame are what the frame says of them. -/
theorem Sound.describes_ofFrame (h : Sound d values o ρ) {frame : Frame} (htakes : frame.Takes ρ ρ')
    {n : Name} (hn : n ∈ frame.names) :
    (o.ofFrame frame).Describes values (ρ' n) := by
  cases frame with
  | binders vars => trivial
  | alternative scrutinee pattern =>
    cases scrutinee with
    | var note x =>
      have hfits : pattern.Fits ρ' (ρ x) := htakes.fits
      cases pattern with
      | con name vars =>
        -- a field of the value, whatever is known of that
        obtain ⟨b, hb, rfl⟩ := List.mem_map.mp hn
        exact (h.describes_of note x).field (hfits b hb)
      | var b =>
        -- a second name for the value
        obtain rfl := List.mem_singleton.mp hn
        rw [show ρ' b.name = ρ x from hfits]
        exact h.describes_of note x
      | lit value | wildcard => cases hn
    | _ => cases pattern <;> trivial

/-- **One more frame.** -/
theorem Sound.enterFrame (h : Sound d values o ρ) {frame : Frame} (htakes : frame.Takes ρ ρ') :
    Sound d values (o.enterFrame frame) ρ' := by
  constructor
  · intro n origin hn
    rw [lookup_enterFrame] at hn
    split at hn
    next hmem =>
      cases hn
      exact h.describes_ofFrame htakes hmem
    next hmem =>
      rw [htakes.others n hmem]
      exact h.known n origin hn
  · intro n k hn hk
    rw [refersToBottom_enterFrame, Bool.and_eq_true, decide_eq_true_iff] at hn
    rw [htakes.others n hn.2]
    exact h.params n k hn.1 hk

/-- **A whole path.** -/
theorem Sound.enterPath {path : List Frame} (hfollows : Follows ρ path ρ')
    (h : Sound d values o ρ) : Sound d values (o.enterPath path) ρ' := by
  induction hfollows generalizing o with
  | nil ρ => exact h
  | cons head tail ih => exact ih (h.enterFrame head)

/-- The parameters have the values that are given for them. -/
theorem sound_ofParams (d : FuncDecl) (ρ : Assignment) :
    Sound d (d.paramNames.map ρ) (ofParams d.params) ρ := by
  have hvalue {n : Name} {k : Nat} (hk : d.paramNames[k]? = some n) : (d.paramNames.map ρ)[k]? =
      some (ρ n) := by
    rw [List.getElem?_map, hk]
    rfl
  constructor
  · intro n origin hn
    obtain ⟨k, hk, rfl⟩ := exists_of_lookup_ofParams hn
    exact hvalue hk
  · intro n k _ hk
    -- the position found is the first of the name, and parameters of one name have one value
    obtain ⟨hlt, hname, _⟩ := List.idxOf?_eq_some_iff.mp hk
    exact hvalue (List.getElem?_eq_some_iff.mpr ⟨hlt, hname⟩)

end Origins

/-! ## Calls -/

/-- What a call records of an argument holds in an assignment: a strict part of a parameter, or a
parameter, is a variable with such a value. -/
structure CallArg.Holds (values : List Value) (ρ : Assignment) (recorded : CallArg) (arg : Expr) :
    Prop where
  smallerThan : ∀ k, recorded.smallerThan = some k →
    ∃ note x whole, arg = .var note x ∧ values[k]? = some whole ∧ (ρ x).IsPartOf whole
  param : ∀ k, recorded.param = some k → ∃ note x, arg = .var note x ∧ values[k]? = some (ρ x)

/-- A call site is the reference at an occurrence, and what it records of the arguments holds
whatever values the variables have there. -/
structure CallSite.Records (d : FuncDecl) (call : CallSite) (p : Occurrence) : Prop where
  caller : call.caller = d.name
  callee : call.callee = p.name
  args : ∀ ρ ρ', Follows ρ p.path ρ' →
    List.Forall₂ (CallArg.Holds (d.paramNames.map ρ) ρ') call.args p.args

namespace FuncDecl

/-- **What is noted of an argument** holds of its value. -/
theorem callArg_holds {d : FuncDecl} {values : List Value} {o : Origins} {ρ : Assignment}
    (h : o.Sound d values ρ) (arg : Expr) :
    (d.callArg o arg).Holds values ρ arg := by
  cases arg with
  | var note x =>
    constructor
    · intro k hk
      have hdescribes := h.describes_of note x
      change (o.of (.var note x)).smaller? = some k at hk
      cases horigin : o.of (.var note x) with
      | smaller param =>
        rw [horigin] at hk hdescribes
        cases hk
        obtain ⟨whole, hwhole, hpart⟩ := hdescribes
        exact ⟨note, x, whole, rfl, hwhole, hpart⟩
      | unknown | equal param =>
        rw [horigin] at hk
        cases hk
    · intro k hk
      -- a parameter that is not hidden has the value passed for it
      change (if o.refersToBottom x then d.paramPosition? x else none) = some k at hk
      split at hk
      next hbottom => exact ⟨note, x, rfl, h.params x k hbottom hk⟩
      next => cases hk
  | _ =>
    constructor
    all_goals
      intro k hk
      cases hk

/-- **What calls record of their arguments is so.** The calls of a function to a group are its
references to the group, and at each of them, for all values of the parameters and of the variables
on the way, an argument that is recorded as smaller than a parameter is a strict part of it, and one
that is recorded as a parameter has its value. -/
theorem calls_record (d : FuncDecl) (group : List Name) :
    List.Forall₂ (CallSite.Records d) (d.calls group) (d.occurrencesOf group) := by
  rw [calls_eq, List.forall₂_map_left_iff, List.forall₂_same]
  intro p _
  refine ⟨rfl, rfl, fun ρ ρ' hfollows => ?_⟩
  -- origins that are right for the parameters stay right along the path to the call
  have hsound := (Origins.sound_ofParams d ρ).enterPath hfollows
  exact List.forall₂_map_left_iff.mpr (List.forall₂_same.mpr fun arg _ => callArg_holds hsound arg)

end FuncDecl

/-- The two variables of a list pattern take the head and the tail. -/
theorem Frame.takes_cons {ρ : Assignment} {x head tail : Name} {v w : Value}
    (hx : ρ x = .con "Cons" [v, w]) (hne : head ≠ tail) :
    (Frame.alternative (.var {} x) (.con "Cons" [{ name := head }, { name := tail }])).Takes ρ
      (Function.update (Function.update ρ head v) tail w) := by
  constructor
  · change ∀ b ∈ [_, _], _ ∈ (ρ x).fields
    simp [hx, Value.fields, Function.update_of_ne hne]
  · intro n hn
    obtain ⟨hhead, htail⟩ := not_or.mp (List.mem_pair.not.mp hn)
    exact (Function.update_of_ne htail _ _).trans (Function.update_of_ne hhead _ _)

/-- A function of a list that goes on with what follows two elements. The tail has a second name,
and the second element hides the list. -/
def afterTwo : FuncDecl where
  name := "f"
  params := [{ name := "xs" }, { name := "p" }]
  rhs := .case {} (.var {} "xs") [(.con "Cons" [{ name := "y" }, { name := "ys" }],
    .case {} (.var {} "ys") [(.var { name := "zs" },
      .case {} (.var {} "zs") [(.con "Cons" [{ name := "xs" }, { name := "ws" }],
        .app {} (.app {} (.var {} "f") (.var {} "ws")) (.var {} "p"))])])]

/-- The list is `[A, B]`. At the call `B` hides it, and `ws`, the empty list, is a part of it. -/
theorem afterTwo_records :
    let tail := Value.con "Cons" [.con "B" [], .con "Nil" []]
    let list := Value.con "Cons" [.con "A" [], tail]
    let ρ : Assignment := Function.update (fun _ => .con "P" []) "xs" list
    let ρ₁ := Function.update (Function.update ρ "y" (.con "A" [])) "ys" tail
    let ρ₂ := Function.update ρ₁ "zs" tail
    let ρ₃ := Function.update (Function.update ρ₂ "xs" (.con "B" [])) "ws" (.con "Nil" [])
    afterTwo.calls ["f"] = [⟨"f", "f", [⟨some 0, none⟩, ⟨none, some 1⟩]⟩] ∧
      ∃ p, afterTwo.occurrencesOf ["f"] = [p] ∧ Follows ρ p.path ρ₃ ∧ (ρ₃ "ws").IsPartOf (ρ "xs") ∧
        ρ₃ "p" = ρ "p" := by
  intro tail list ρ ρ₁ ρ₂ ρ₃
  have hcalls : afterTwo.calls ["f"] = [⟨"f", "f", [⟨some 0, none⟩, ⟨none, some 1⟩]⟩] := by decide
  have hfollows : Follows ρ
      [.alternative (.var {} "xs") (.con "Cons" [{ name := "y" }, { name := "ys" }]),
      .alternative (.var {} "ys") (.var { name := "zs" }),
      .alternative (.var {} "zs") (.con "Cons" [{ name := "xs" }, { name := "ws" }])] ρ₃ := by
    have hrename : (Frame.alternative (.var {} "ys") (.var { name := "zs" })).Takes ρ₁ ρ₂ :=
      ⟨rfl, fun n hn => Function.update_of_ne (List.mem_singleton.not.mp hn) _ _⟩
    exact .cons (Frame.takes_cons rfl (by decide))
      (.cons hrename (.cons (Frame.takes_cons rfl (by decide)) (.nil ρ₃)))
  refine ⟨hcalls, _, rfl, hfollows, ?_⟩
  have hrecords := FuncDecl.calls_record afterTwo ["f"]
  rw [hcalls] at hrecords
  obtain ⟨hsite, _⟩ := List.forall₂_cons.mp hrecords
  obtain ⟨hws, hrest⟩ := List.forall₂_cons.mp (hsite.args ρ ρ₃ hfollows)
  obtain ⟨hp, _⟩ := List.forall₂_cons.mp hrest
  obtain ⟨_, _, whole, ⟨⟩, hwhole, hpart⟩ := hws.smallerThan 0 rfl
  obtain ⟨_, _, ⟨⟩, hparam⟩ := hp.param 1 rfl
  cases hwhole
  exact ⟨hpart, (Option.some.inj hparam).symm⟩

end StructRec
