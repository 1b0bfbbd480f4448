import Mathlib.Data.Nat.Notation
import Mathlib.Tactic.Common

/-!
# Binary search

`cmp i` says on which side of what is looked for entry `i` is. An entry in order with the others is before it or
the later one is behind it; then the search finds it wherever it is, and nothing else.
-/

namespace CmetricsRuby
namespace Bisect

/-- The `count` entries from `start` on are left; `fuel` is more than that. -/
def bisect (cmp : Nat → Ordering) : Nat → Nat → Nat → Option Nat
  | 0, _, _ => none
  | fuel + 1, start, count =>
    if count > 1 then
      let mid := start + count / 2
      match cmp mid with
      | .eq => some mid
      | .lt => bisect cmp fuel (mid + 1) (start + count - (mid + 1))
      | .gt => bisect cmp fuel start (mid - start)
    else if count = 0 then none
    else if cmp start = .eq then some start
    else none

def Ordered (cmp : Nat → Ordering) (n : Nat) : Prop := ∀ i j, i < j → j < n → cmp i = .lt ∨ cmp j = .gt

variable {cmp : Nat → Ordering} {n fuel start count i j : Nat}

/-- There is one entry at most. -/
theorem Ordered.eq (h : Ordered cmp n) (hi : i < n) (hj : j < n) (hcmp : cmp i = .eq) (hcmp' : cmp j = .eq) : i = j := by
  rcases Nat.lt_trichotomy i j with hlt | heq | hlt
  · rcases h i j hlt hj with h | h
    · exact absurd (h.symm.trans hcmp) (by decide)
    · exact absurd (h.symm.trans hcmp') (by decide)
  · exact heq
  · rcases h j i hlt hi with h | h
    · exact absurd (h.symm.trans hcmp') (by decide)
    · exact absurd (h.symm.trans hcmp) (by decide)

theorem bisect_sound (h : bisect cmp fuel start count = some i) : start ≤ i ∧ i < start + count ∧ cmp i = .eq := by
  induction fuel generalizing start count with
  | zero => cases h
  | succ fuel ih =>
    rw [bisect] at h
    split_ifs at h with hone hzero hcmp
    · rcases hmid : cmp (start + count / 2) with _ | _ | _ <;> simp only [hmid] at h
      · obtain ⟨hlo, hhi, hcmp⟩ := ih h
        exact ⟨by omega, by omega, hcmp⟩
      · cases h
        exact ⟨by omega, by omega, hmid⟩
      · obtain ⟨hlo, hhi, hcmp⟩ := ih h
        exact ⟨by omega, by omega, hcmp⟩
    · cases h
      exact ⟨Nat.le_refl _, by omega, hcmp⟩

theorem bisect_complete (hn : start + count ≤ n) (hord : Ordered cmp n) (hfuel : count < fuel) (hlo : start ≤ i)
    (hhi : i < start + count) (hi : cmp i = .eq) : bisect cmp fuel start count = some i := by
  induction fuel generalizing start count with
  | zero => omega
  | succ fuel ih =>
    rw [bisect]
    by_cases hone : count > 1
    · rw [if_pos hone]
      rcases hmid : cmp (start + count / 2) with _ | _ | _ <;> simp only [hmid]
      · have hne : i ≠ start + count / 2 := fun he => by
          rw [he, hmid] at hi
          cases hi
        have hgt : start + count / 2 < i := by
          by_contra hle
          rcases hord i (start + count / 2) (by omega) (by omega) with h | h
          · exact absurd (h.symm.trans hi) (by decide)
          · exact absurd (h.symm.trans hmid) (by decide)
        exact ih (by omega) (by omega) (by omega) (by omega)
      · exact congrArg some (hord.eq (by omega) (by omega) hmid hi)
      · have hne : i ≠ start + count / 2 := fun he => by
          rw [he, hmid] at hi
          cases hi
        have hlt : i < start + count / 2 := by
          by_contra hle
          rcases hord (start + count / 2) i (by omega) (by omega) with h | h
          · exact absurd (h.symm.trans hmid) (by decide)
          · exact absurd (h.symm.trans hi) (by decide)
        exact ih (by omega) (by omega) (by omega) (by omega)
    · have hstart : i = start := by omega
      subst hstart
      rw [if_neg hone, if_neg (by omega), if_pos hi]

theorem bisect_eq_some_iff (hord : Ordered cmp n) (hfuel : n < fuel) :
    bisect cmp fuel 0 n = some i ↔ i < n ∧ cmp i = .eq := by
  constructor
  · intro h
    obtain ⟨-, hi, hcmp⟩ := bisect_sound h
    exact ⟨by omega, hcmp⟩
  · rintro ⟨hi, hcmp⟩
    exact bisect_complete (by omega) hord hfuel (by omega) (by omega) hcmp

end Bisect
end CmetricsRuby
