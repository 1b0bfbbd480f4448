import Mathlib.Algebra.Order.Ring.Nat

/-!
# Zigzag

Signed words of any width as unsigned ones with the sign in the lowest bit, by shifts and exclusive or.
-/

namespace CmetricsRuby
namespace Zigzag

variable {w : Nat}

def encode (v : BitVec (w + 1)) : BitVec (w + 1) := (v <<< 1) ^^^ -(v >>> w)

def decode (v : BitVec (w + 1)) : BitVec (w + 1) := (v >>> 1) ^^^ -(v &&& 1)

/-- What the top bit, or the bottom bit, is spread to. -/
def spread (b : Bool) : BitVec (w + 1) := if b then BitVec.allOnes (w + 1) else 0

theorem neg_bit (b : Bool) : -(BitVec.ofNat (w + 1) b.toNat) = spread b := by
  cases b with
  | false => simp [spread]
  | true =>
    rw [spread, if_pos rfl, ← BitVec.neg_one_eq_allOnes]
    rfl

theorem sign_bit (v : BitVec (w + 1)) : v >>> w = BitVec.ofNat (w + 1) v.msb.toNat := by
  have hv := v.isLt
  have hpow : 2 ^ (w + 1) = 2 ^ w + 2 ^ w := by rw [Nat.pow_succ]; omega
  refine BitVec.eq_of_toNat_eq ?_
  rw [BitVec.toNat_ushiftRight, Nat.shiftRight_eq_div_pow, BitVec.toNat_ofNat, BitVec.msb_eq_decide, Nat.add_sub_cancel]
  by_cases h : 2 ^ w ≤ v.toNat
  · have hpos : 1 < 2 ^ (w + 1) := Nat.one_lt_two_pow (by omega)
    rw [decide_eq_true h, Bool.toNat_true, Nat.mod_eq_of_lt hpos]
    exact Nat.div_eq_of_lt_le (by omega) (by omega)
  · rw [decide_eq_false h, Bool.toNat_false, Nat.zero_mod]
    exact Nat.div_eq_of_lt (by omega)

theorem low_bit (v : BitVec (w + 1)) : v &&& 1 = BitVec.ofNat (w + 1) (v.getLsbD 0).toNat := by
  have hone : (1 : BitVec (w + 1)) = 1#(w + 1) := rfl
  rw [hone, BitVec.and_one_eq_setWidth_ofBool_getLsbD]
  cases v.getLsbD 0 <;> exact BitVec.eq_of_toNat_eq (by simp)

theorem encode_eq (v : BitVec (w + 1)) : encode v = (v <<< 1) ^^^ spread v.msb := by
  rw [encode, sign_bit, neg_bit]

theorem decode_encode (v : BitVec (w + 1)) : decode (encode v) = v := by
  have hlow : (encode v).getLsbD 0 = v.msb := by
    rw [encode_eq]
    cases v.msb <;> simp [spread]
  rw [decode, low_bit, hlow, neg_bit, encode_eq]
  ext i hi
  -- every bit but the top one comes back by itself, and the top one is the spread bit
  have htop : v.msb = v.getLsbD w := BitVec.msb_eq_getLsbD_last v
  have hi' : 1 + i < w + 1 ∨ i = w := by omega
  cases hm : v.msb with
  | false =>
    rw [htop, BitVec.getLsbD_eq_getElem (Nat.lt_succ_self w)] at hm
    rcases hi' with hi' | rfl
    · simp [spread, hi']
    · simp [spread, hm]
  | true =>
    rw [htop, BitVec.getLsbD_eq_getElem (Nat.lt_succ_self w)] at hm
    rcases hi' with hi' | rfl
    · simp [spread, hi']
    · simp [spread, hm]

end Zigzag
end CmetricsRuby
