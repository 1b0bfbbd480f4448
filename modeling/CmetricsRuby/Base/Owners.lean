import Mathlib.Data.Set.Basic
import Mathlib.Logic.Function.Basic

/-!
# Owners and what they own

A stock of resources and owners of some of them. `Owned` says that what is owned is in stock and that
nothing has two owners. `Owned.update` is the rule for a step of one owner: it keeps what it had or takes
what was not in stock before, and the stock keeps what the others own.
-/

namespace CmetricsRuby

/-- The resource at an optional place. -/
def there {ρ : Type*} (o : Option ρ) : Set ρ := {r | o = some r}

@[simp] theorem mem_there {ρ : Type*} {o : Option ρ} {r : ρ} : r ∈ there o ↔ o = some r := Iff.rfl

structure Owned {ι ρ : Type*} (stock : Set ρ) (own : ι → Set ρ) : Prop where
  sub : ∀ i, own i ⊆ stock
  apart : ∀ {i j r}, r ∈ own i → r ∈ own j → i = j

namespace Owned

variable {ι ρ : Type*} {stock stock' new : Set ρ} {own : ι → Set ρ} {i : ι}

theorem update [DecidableEq ι] (h : Owned stock own) (hothers : ∀ j, j ≠ i → own j ⊆ stock')
    (hnew : new ⊆ stock') (hfrom : ∀ r ∈ new, r ∈ own i ∨ r ∉ stock) :
    Owned stock' (Function.update own i new) := by
  have hother : ∀ j r, j ≠ i → r ∈ own j → r ∉ new := by
    intro j r hne hr hrnew
    rcases hfrom r hrnew with hri | hfresh
    · exact hne (h.apart hr hri)
    · exact hfresh (h.sub j hr)
  constructor
  · intro j
    by_cases hj : j = i
    · rw [hj, Function.update_self]
      exact hnew
    · rw [Function.update_of_ne hj]
      exact hothers j hj
  · intro j j' r hr hr'
    by_cases hj : j = i <;> by_cases hj' : j' = i
    · rw [hj, hj']
    · rw [hj, Function.update_self] at hr
      rw [Function.update_of_ne hj'] at hr'
      exact absurd hr (hother j' r hj' hr')
    · rw [hj', Function.update_self] at hr'
      rw [Function.update_of_ne hj] at hr
      exact absurd hr' (hother j r hj hr)
    · rw [Function.update_of_ne hj] at hr
      rw [Function.update_of_ne hj'] at hr'
      exact h.apart hr hr'

end Owned
end CmetricsRuby
