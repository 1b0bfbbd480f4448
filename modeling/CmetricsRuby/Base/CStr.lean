import Mathlib.Data.List.TakeWhile

/-!
# C strings

What C reads through a `char *`: the bytes up to the first NUL. A `CStr` has no NUL among its bytes,
so `ofPtr` is where bytes behind the first NUL are lost.
-/

namespace CmetricsRuby

abbrev Bytes := List UInt8

structure CStr where
  bytes : Bytes
  noNul : (0 : UInt8) ∉ bytes
deriving DecidableEq

namespace CStr

/-- The C string at a pointer to `p` and the NUL behind it. -/
def ofPtr (p : Bytes) : CStr where
  bytes := p.takeWhile (· != 0)
  noNul h := by simpa using List.mem_takeWhile_imp h

theorem ofPtr_bytes (c : CStr) : ofPtr c.bytes = c := by
  have : c.bytes.takeWhile (· != 0) = c.bytes := by
    rw [List.takeWhile_eq_self_iff]
    intro x hx
    rw [bne_iff_ne]
    rintro rfl
    exact c.noNul hx
  cases c
  simpa [ofPtr] using this

/-- Nothing is lost exactly when there is no NUL among the bytes. -/
theorem bytes_ofPtr_eq_iff {p : Bytes} : (ofPtr p).bytes = p ↔ (0 : UInt8) ∉ p := by
  constructor
  · intro h
    rw [← h]
    exact (ofPtr p).noNul
  · intro h
    exact congrArg bytes (ofPtr_bytes ⟨p, h⟩)

end CStr
end CmetricsRuby
