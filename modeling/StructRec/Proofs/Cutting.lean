import Mathlib.Data.List.Forall2
import StructRec.Json.Reader

/-!
# StructRec — texts that are cut into tokens

A machine cuts a text into tokens. Where a token goes on for as long as there are characters for it,
what follows a text decides whether the text is cut off there, so `Cuts` asks this of what follows.
Texts that are put together are cut into the tokens of their parts one after the other.
-/

namespace StructRec

variable {τ : Type}

/-- Whatever follows. -/
def Anything (_ : List Char) : Prop := True

/-- A text that is cut into these tokens before everything that may follow it. The machine lists
tokens backwards. -/
def Cuts (run : List τ → List Char → Option (List τ)) (Follows : List Char → Prop) (text : String)
    (tokens : List τ) : Prop :=
  ∀ before rest, Follows rest →
    run before (text.toList ++ rest) = run (tokens.reverse ++ before) rest

namespace Cuts

variable {run : List τ → List Char → Option (List τ)} {Follows Follows' : List Char → Prop}
  {text text' : String} {tokens tokens' : List τ}

theorem mono (h : Cuts run Follows text tokens) (hfollows : ∀ rest, Follows' rest → Follows rest) :
    Cuts run Follows' text tokens := fun before rest hrest => h before rest (hfollows rest hrest)

theorem weaken (h : Cuts run Anything text tokens) : Cuts run Follows text tokens :=
  h.mono fun _ _ => trivial

theorem empty : Cuts run Follows "" [] := fun _ _ _ => rfl

/-- The second text is what follows the first one. -/
theorem append (h : Cuts run Follows text tokens) (h' : Cuts run Follows' text' tokens')
    (hfollows : ∀ rest, Follows' rest → Follows (text'.toList ++ rest)) :
    Cuts run Follows' (text ++ text') (tokens ++ tokens') := by
  intro before rest hrest
  rw [String.toList_append, List.append_assoc, h _ _ (hfollows rest hrest), h' _ _ hrest,
    List.reverse_append, List.append_assoc]

/-- Nothing that follows can become part of a text that is complete. -/
theorem before (h : Cuts run Anything text tokens) (h' : Cuts run Follows' text' tokens') :
    Cuts run Follows' (text ++ text') (tokens ++ tokens') := h.append h' fun _ _ => trivial

/-- **Texts with a separator between them** are cut one by one. -/
theorem intercalate {separator : String} {between : List τ}
    (hseparator : Cuts run Anything separator between)
    (hfollows : ∀ rest, Follows (separator.toList ++ rest)) {texts : List String}
    {phrases : List (List τ)} (h : List.Forall₂ (Cuts run Follows) texts phrases) :
    Cuts run Follows (separator.intercalate texts) (between.intercalate phrases) := by
  induction h with
  | nil => exact .empty
  | cons hfirst hrest ih =>
    cases hrest with
    | nil =>
      rw [String.intercalate_singleton, List.intercalate_singleton]
      exact hfirst
    | cons hnext hmore =>
      rw [String.intercalate_cons_cons, List.intercalate_cons_cons]
      exact (hfirst.append hseparator fun rest _ => hfollows rest).before ih

end Cuts

/-! ## Digits -/

/-- A number is written with at least one digit. -/
theorem exists_digits (n : Nat) :
    ∃ c more, n.repr.toList = c :: more ∧ ∀ d ∈ c :: more, d.isDigit = true := by
  obtain ⟨c, more, hlist⟩ :=
    List.exists_cons_of_ne_nil (String.toList_eq_nil_iff.not.mpr (Nat.repr_ne_empty (n := n)))
  refine ⟨c, more, hlist, fun d hd => ?_⟩
  rw [← hlist, Nat.toList_repr] at hd
  exact Nat.isDigit_of_mem_toDigits (by decide) (by decide) hd

/-- Every hexadecimal digit is read back. -/
theorem hexDigit?_digitChar {d : Nat} (h : d < 16) : Json.hexDigit? d.digitChar = some d := by
  have hall : ∀ d : Fin 16, Json.hexDigit? d.val.digitChar = some d.val := by decide
  exact hall ⟨d, h⟩

end StructRec
