import Mathlib.Algebra.Order.Ring.Rat

/-!
# Doubles

A C `double` by its value: a finite number, an infinity or NaN; the two zeros are one value. Which numbers 53
bits hold, and how others are rounded, is left open; the sums of finite doubles here are the exact ones, those of
infinities and NaN are IEEE's.
-/

namespace CmetricsRuby

inductive Double
  | finite (x : Rat)
  | posInf
  | negInf
  | nan
deriving DecidableEq

namespace Double

instance (n : Nat) : OfNat Double n := ⟨.finite n⟩

def isFinite : Double → Bool
  | .finite _ => true
  | _ => false

/-- NaN is neither less nor greater than anything. -/
def less : Double → Double → Bool
  | .finite x, .finite y => x < y
  | .finite _, .posInf => true
  | .negInf, .finite _ => true
  | .negInf, .posInf => true
  | _, _ => false

instance : LT Double := ⟨fun x y => less x y = true⟩

instance (x y : Double) : Decidable (x < y) := inferInstanceAs (Decidable (less x y = true))

def add : Double → Double → Double
  | .finite x, .finite y => .finite (x + y)
  | .finite _, y => y
  | x, .finite _ => x
  | .posInf, .posInf => .posInf
  | .negInf, .negInf => .negInf
  | _, _ => .nan

def neg : Double → Double
  | .finite x => .finite (-x)
  | .posInf => .negInf
  | .negInf => .posInf
  | .nan => .nan

def sub (x y : Double) : Double := x.add y.neg

variable {x y v : Double}

theorem finite_lt_finite {a b : Rat} : Double.finite a < .finite b ↔ a < b :=
  decide_eq_true_iff

theorem lt_irrefl (x : Double) : ¬ x < x := by
  cases x with
  | finite a => exact fun h => (finite_lt_finite.1 h).ne rfl
  | _ => exact Bool.false_ne_true

theorem not_add_one_lt (x : Double) : ¬ x.add 1 < x := by
  cases x with
  | finite a =>
    intro h
    have hlt : a + (1 : Nat) < a := finite_lt_finite.1 h
    simp at hlt
    exact absurd hlt (by decide)
  | _ => exact Bool.false_ne_true

/-- Adding makes a number smaller exactly when it is finite and what is added is negative. -/
theorem add_lt_self_iff : x.add v < x ↔ v < 0 ∧ x.isFinite = true := by
  cases x with
  | finite a =>
    refine Iff.trans ?_ (and_iff_left rfl).symm
    cases v with
    | finite b =>
      have hzero : Double.finite b < 0 ↔ b < (0 : Nat) := finite_lt_finite
      have hadd : (Double.finite a).add (.finite b) < .finite a ↔ a + b < a := finite_lt_finite
      rw [hadd, hzero, add_lt_iff_neg_left, Nat.cast_zero]
    | negInf => exact iff_of_true rfl rfl
    | _ => exact iff_of_false Bool.false_ne_true Bool.false_ne_true
  | _ =>
    refine iff_of_false (fun h => ?_) fun h => Bool.false_ne_true h.2
    cases v <;> exact Bool.false_ne_true h

end Double
end CmetricsRuby
