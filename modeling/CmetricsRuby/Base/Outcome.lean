import Mathlib.Tactic.TypeStar

/-!
# What a computation may come to

`Ends A P x`: what `x` returns satisfies `P`, and when it returns nothing its error satisfies `A`. The rules follow
the computation, step by step.
-/

namespace CmetricsRuby

universe u v

def Ends {ε : Type u} {α : Type v} (A : ε → Prop) (P : α → Prop) : Except ε α → Prop
  | .ok a => P a
  | .error e => A e

namespace Ends

variable {ε : Type u} {α β : Type v} {A : ε → Prop} {P : α → Prop} {Q : β → Prop} {x : Except ε α} {f : α → Except ε β}

theorem ok {a : α} (h : P a) : Ends A P (.ok a) := h

theorem pure {a : α} (h : P a) : Ends A P (Pure.pure a) := h

theorem error {e : ε} (h : A e) : Ends A P (.error e) := h

theorem bind (hx : Ends A P x) (hf : ∀ a, P a → Ends A Q (f a)) : Ends A Q (x >>= f) := by
  rcases x with e | a
  · exact hx
  · exact hf a hx

theorem mono {P' : α → Prop} (hx : Ends A P x) (h : ∀ a, P a → P' a) : Ends A P' x := by
  rcases x with e | a
  · exact hx
  · exact h a hx

theorem map {f : α → β} (hx : Ends A P x) (h : ∀ a, P a → Q (f a)) : Ends A Q (x.map f) := by
  rcases x with e | a
  · exact hx
  · exact h a hx

theorem of_eq {a : α} (hx : Ends A P x) (h : x = .ok a) : P a := by
  subst h
  exact hx

theorem of_error {e : ε} (hx : Ends A P x) (h : x = .error e) : A e := by
  subst h
  exact hx

end Ends
end CmetricsRuby
