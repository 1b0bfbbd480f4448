import Mathlib.Algebra.BigOperators.Group.Multiset.Basic

/-!
# Accounts of handles

An `Account` says which handles an event hands out and which it takes back. Over a log of events it
gives a ledger: the handles handed out so far, the handles taken back so far, and `Held`, that what
is outstanding is exactly a given collection. Handles are counted, so a handle taken back twice, or
never, shows.
-/

namespace CmetricsRuby

structure Account (ε η : Type*) where
  gains : ε → Multiset η
  drops : ε → Multiset η

namespace Account

variable {ε η : Type*} (a : Account ε η) {log new : List ε} {e : ε} {m m' : Multiset η}

def obtained (log : List ε) : Multiset η := (log.map a.gains).sum

def released (log : List ε) : Multiset η := (log.map a.drops).sum

/-- What was handed out and not taken back is exactly `m`. -/
def Held (log : List ε) (m : Multiset η) : Prop := a.obtained log = a.released log + m

@[simp] theorem obtained_nil : a.obtained [] = 0 := rfl

@[simp] theorem released_nil : a.released [] = 0 := rfl

@[simp] theorem obtained_cons : a.obtained (e :: log) = a.gains e + a.obtained log := by
  simp [obtained]

@[simp] theorem released_cons : a.released (e :: log) = a.drops e + a.released log := by
  simp [released]

@[simp] theorem obtained_append : a.obtained (log ++ new) = a.obtained log + a.obtained new := by
  simp [obtained]

@[simp] theorem released_append : a.released (log ++ new) = a.released log + a.released new := by
  simp [released]

variable {a}

theorem Held.append_iff (h : a.Held log m) :
    a.Held (log ++ new) m' ↔ m + a.obtained new = a.released new + m' := by
  unfold Held at *
  rw [obtained_append, released_append, h, add_assoc, add_assoc, add_right_inj]

/-- With nothing held, everything handed out has been taken back exactly once. -/
theorem held_zero_iff : a.Held log 0 ↔ a.obtained log = a.released log := by
  rw [Held, add_zero]

end Account
end CmetricsRuby
