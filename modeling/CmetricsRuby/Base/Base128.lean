import Mathlib.Algebra.Order.Ring.Nat
import Mathlib.Tactic.Ring

/-!
# Base 128, least significant digit first

`encode n` has the digits of `n`, with the top bit set in every byte but the last. `value` reads digits off
bytes, whatever their top bits; a list is `Terminated` when its top bits are those of one number.
-/

namespace CmetricsRuby
namespace Base128

def more (d : Nat) : UInt8 := UInt8.ofNat (d % 128 + 128)

def encode (n : Nat) : List UInt8 :=
  if n < 128 then [UInt8.ofNat n] else more n :: encode (n / 128)

def value : List UInt8 → Nat
  | [] => 0
  | b :: l => b.toNat % 128 + 128 * value l

def Terminated : List UInt8 → Prop
  | [] => False
  | [b] => b.toNat < 128
  | b :: l => 128 ≤ b.toNat ∧ Terminated l

variable {n m k : Nat} {l l' : List UInt8} {b : UInt8}

@[simp] theorem toNat_more (d : Nat) : (more d).toNat = d % 128 + 128 := by
  rw [more, UInt8.toNat_ofNat']
  omega

theorem encode_of_lt (h : n < 128) : encode n = [UInt8.ofNat n] := by
  rw [encode, if_pos h]

theorem encode_of_le (h : 128 ≤ n) : encode n = more n :: encode (n / 128) := by
  rw [encode, if_neg (by omega)]

theorem encode_ne_nil (n : Nat) : encode n ≠ [] := by
  by_cases h : n < 128
  · rw [encode_of_lt h]; simp
  · rw [encode_of_le (by omega)]; simp

theorem length_encode_pos (n : Nat) : 0 < (encode n).length := List.length_pos_iff.2 (encode_ne_nil n)

@[simp] theorem value_encode (n : Nat) : value (encode n) = n := by
  induction n using Nat.strong_induction_on with
  | _ n ih =>
    by_cases h : n < 128
    · rw [encode_of_lt h, value, value, UInt8.toNat_ofNat']
      omega
    · rw [encode_of_le (by omega), value, ih (n / 128) (by omega), toNat_more]
      omega

theorem terminated_cons (hb : 128 ≤ b.toNat) (hl : Terminated l) : Terminated (b :: l) := by
  cases l with
  | nil => exact hl.elim
  | cons c l => exact ⟨hb, hl⟩

/-- The last byte, or one more in front. -/
@[elab_as_elim] theorem Terminated.induction {motive : ∀ l, Terminated l → Prop}
    (last : ∀ (b : UInt8) (hb : b.toNat < 128), motive [b] hb)
    (more : ∀ (b : UInt8) (l : List UInt8) (hb : 128 ≤ b.toNat) (hl : Terminated l), motive l hl →
      motive (b :: l) (terminated_cons hb hl)) :
    ∀ (l : List UInt8) (h : Terminated l), motive l h
  | [], h => h.elim
  | [b], h => last b h
  | b :: c :: l, h => more b (c :: l) h.1 h.2 (Terminated.induction last more (c :: l) h.2)

theorem Terminated.length_pos (h : Terminated l) : 0 < l.length := by
  rcases l with _ | ⟨b, l⟩
  · exact h.elim
  · exact Nat.succ_pos _

theorem terminated_encode (n : Nat) : Terminated (encode n) := by
  induction n using Nat.strong_induction_on with
  | _ n ih =>
    by_cases h : n < 128
    · rw [encode_of_lt h]
      show (UInt8.ofNat n).toNat < 128
      rw [UInt8.toNat_ofNat']
      omega
    · rw [encode_of_le (by omega)]
      refine terminated_cons ?_ (ih (n / 128) (by omega))
      rw [toNat_more]
      omega

/-- `k + 1` digits are enough for what is below `128 ^ (k + 1)`, and for nothing else. -/
theorem length_encode_le_iff : (encode n).length ≤ k + 1 ↔ n < 128 ^ (k + 1) := by
  induction k generalizing n with
  | zero =>
    by_cases h : n < 128
    · simp [encode_of_lt h, h]
    · rw [encode_of_le (by omega)]
      have := length_encode_pos (n / 128)
      simp only [List.length_cons]
      omega
  | succ k ih =>
    by_cases h : n < 128
    · have : 128 ^ 1 ≤ 128 ^ (k + 1 + 1) := Nat.pow_le_pow_right (by omega) (by omega)
      simp only [encode_of_lt h, List.length_singleton]
      omega
    · rw [encode_of_le (by omega), List.length_cons, Nat.pow_succ, Nat.add_le_add_iff_right, ih,
        Nat.div_lt_iff_lt_mul (by omega)]

/-- So the number of digits is read off the powers on both sides. -/
theorem length_encode_eq (hlo : 128 ^ k ≤ n ∨ k = 0) (hhi : n < 128 ^ (k + 1)) : (encode n).length = k + 1 := by
  have hle := length_encode_le_iff.2 hhi
  rcases hlo with hlo | rfl
  · cases k with
    | zero =>
      have := length_encode_pos n
      omega
    | succ k =>
      have : ¬ (encode n).length ≤ k + 1 := by
        rw [length_encode_le_iff]
        omega
      omega
  · have := length_encode_pos n
    omega

theorem length_encode_mono (h : n ≤ m) : (encode n).length ≤ (encode m).length := by
  obtain ⟨k, hk⟩ : ∃ k, (encode m).length = k + 1 := ⟨(encode m).length - 1, by have := length_encode_pos m; omega⟩
  have hm := length_encode_le_iff.1 hk.le
  rw [hk]
  exact length_encode_le_iff.2 (by omega)

/-- A factor below 128 costs one digit at most. -/
theorem length_encode_mul (h : m ≤ 127 * n) : (encode m).length ≤ (encode n).length + 1 := by
  obtain ⟨k, hk⟩ : ∃ k, (encode n).length = k + 1 := ⟨(encode n).length - 1, by have := length_encode_pos n; omega⟩
  have hn := length_encode_le_iff.1 hk.le
  rw [hk, length_encode_le_iff, Nat.pow_succ]
  omega

/-! ### Reading -/

/-- The bytes of the number that `l` starts with, if it ends in `l`. -/
def front (l : List UInt8) : Option (List UInt8) :=
  match l with
  | [] => none
  | b :: l => if b.toNat < 128 then some [b] else (front l).map (b :: ·)

theorem front_append (h : Terminated l) (x : List UInt8) : front (l ++ x) = some l := by
  induction l with
  | nil => exact h.elim
  | cons b l ih =>
    cases l with
    | nil =>
      have hb : b.toNat < 128 := h
      simp [front, hb]
    | cons c l =>
      obtain ⟨hb, hl⟩ := h
      rw [List.cons_append, front, if_neg (by omega), ih hl]
      rfl

theorem value_lt (l : List UInt8) : value l < 128 ^ l.length := by
  induction l with
  | nil => simp [value]
  | cons b l ih =>
    rw [value, List.length_cons, Nat.pow_succ]
    omega

end Base128
end CmetricsRuby
