import Mathlib.Data.List.Basic

/-!
# Writing to memory

`store` puts a list at an address and `memmove` moves a range. What a program leaves is one `store` again when
the ranges it wrote fill the range it was to write.
-/

namespace CmetricsRuby

abbrev Memory (α : Type*) := Nat → α

namespace Memory

variable {α : Type*}

def store (mem : Memory α) (p : Nat) (x : List α) : Memory α := fun i =>
  if p ≤ i then (x[i - p]?).getD (mem i) else mem i

/-- `n` cells of another memory. -/
def memcpy (mem : Memory α) (dst : Nat) (mem' : Memory α) (src n : Nat) : Memory α := fun i =>
  if dst ≤ i ∧ i < dst + n then mem' (src + (i - dst)) else mem i

/-- The cells are taken before any of them is written. -/
def memmove (mem : Memory α) (dst src n : Nat) : Memory α := memcpy mem dst mem src n

/-- `n` cells from `p` on. -/
def read (mem : Memory α) (p n : Nat) : List α := (List.range n).map fun i => mem (p + i)

def modify (mem : Memory α) (p : Nat) (f : α → α) : Memory α := fun i => if i = p then f (mem i) else mem i

variable {mem : Memory α} {p q n : Nat} {x y : List α} {f : α → α} {a : α}

theorem store_of_lt {i : Nat} (h : i < p) : store mem p x i = mem i := if_neg (by omega)

theorem store_of_le {i : Nat} (h : p + x.length ≤ i) : store mem p x i = mem i := by
  rw [store, if_pos (by omega), List.getElem?_eq_none (by omega), Option.getD_none]

theorem store_of_mem {i : Nat} (h : i < x.length) : store mem p x (p + i) = x[i] := by
  rw [store, if_pos (by omega), Nat.add_sub_cancel_left, List.getElem?_eq_getElem h, Option.getD_some]

@[simp] theorem store_nil : store mem p [] = mem := by
  funext i
  by_cases h : i < p
  · exact store_of_lt h
  · exact store_of_le (by simpa using h)

/-- Two memories that agree on the range, and outside it. -/
theorem store_ext {mem' : Memory α} (hin : ∀ i (h : i < x.length), mem' (p + i) = x[i])
    (hout : ∀ i, i < p ∨ p + x.length ≤ i → mem' i = mem i) : mem' = store mem p x := by
  funext i
  by_cases h : i < p ∨ p + x.length ≤ i
  · rcases h with h | h
    · rw [hout i (.inl h), store_of_lt h]
    · rw [hout i (.inr h), store_of_le h]
  · obtain ⟨k, rfl⟩ : ∃ k, i = p + k := ⟨i - p, by omega⟩
    rw [hin k (by omega), store_of_mem (by omega)]

theorem store_append (mem : Memory α) (p : Nat) (x y : List α) :
    store (store mem p x) (p + x.length) y = store mem p (x ++ y) := by
  refine store_ext ?_ ?_
  · intro i hi
    rw [List.length_append] at hi
    by_cases h : i < x.length
    · rw [store_of_lt (by omega), store_of_mem h, List.getElem_append_left h]
    · obtain ⟨k, rfl⟩ : ∃ k, i = x.length + k := ⟨i - x.length, by omega⟩
      rw [← Nat.add_assoc, store_of_mem (by omega), List.getElem_append_right (by omega)]
      congr 1
      omega
  · rintro i (h | h)
    · rw [store_of_lt (by omega), store_of_lt h]
    · rw [List.length_append] at h
      rw [store_of_le (by omega), store_of_le (by omega)]

theorem store_prepend (mem : Memory α) (p : Nat) (x y : List α) :
    store (store mem (p + x.length) y) p x = store mem p (x ++ y) := by
  refine store_ext ?_ ?_
  · intro i hi
    rw [List.length_append] at hi
    by_cases h : i < x.length
    · rw [store_of_mem h, List.getElem_append_left h]
    · obtain ⟨k, rfl⟩ : ∃ k, i = x.length + k := ⟨i - x.length, by omega⟩
      rw [store_of_le (by omega), ← Nat.add_assoc, store_of_mem (by omega), List.getElem_append_right (by omega)]
      congr 1
      omega
  · rintro i (h | h)
    · rw [store_of_lt h, store_of_lt (by omega)]
    · rw [List.length_append] at h
      rw [store_of_le (by omega), store_of_le (by omega)]

/-- Nothing is left of what is written over. -/
theorem store_store (hlo : q ≤ p) (hhi : p + x.length ≤ q + y.length) :
    store (store mem p x) q y = store mem q y := by
  refine store_ext ?_ ?_
  · intro i hi
    exact store_of_mem hi
  · rintro i (h | h)
    · rw [store_of_lt h, store_of_lt (by omega)]
    · rw [store_of_le h, store_of_le (by omega)]

theorem memmove_store : memmove (store mem p x) q p x.length = store (store mem p x) q x := by
  refine store_ext ?_ ?_
  · intro i hi
    rw [memmove, memcpy, if_pos ⟨by omega, by omega⟩, Nat.add_sub_cancel_left, store_of_mem hi]
  · intro i hi
    exact if_neg (by omega)

theorem modify_store : modify (store mem p (a :: x)) p f = store mem p (f a :: x) := by
  refine store_ext ?_ ?_
  · intro i hi
    by_cases h : i = 0
    · subst h
      rw [modify, if_pos (by omega)]
      exact congrArg f (store_of_mem (x := a :: x) (i := 0) (by simp))
    · obtain ⟨k, rfl⟩ : ∃ k, i = k + 1 := ⟨i - 1, by omega⟩
      rw [modify, if_neg (by omega)]
      exact store_of_mem (x := a :: x) (i := k + 1) hi
  · intro i hi
    rw [List.length_cons] at hi
    rcases hi with hi | hi
    · rw [modify, if_neg (by omega), store_of_lt hi]
    · rw [modify, if_neg (by omega), store_of_le (by simpa using hi)]

/-! ### Reading -/

@[simp] theorem length_read : (read mem p n).length = n := by
  rw [read, List.length_map, List.length_range]

theorem read_congr {mem' : Memory α} {p' : Nat} (h : ∀ i < n, mem (p + i) = mem' (p' + i)) :
    read mem p n = read mem' p' n :=
  List.map_congr_left fun i hi => h i (List.mem_range.1 hi)

theorem read_add (mem : Memory α) (p n m : Nat) : read mem p (n + m) = read mem p n ++ read mem (p + n) m := by
  simp [read, List.range_add, Nat.add_assoc, Function.comp_def]

theorem read_store (mem : Memory α) (p : Nat) (x : List α) : read (store mem p x) p x.length = x := by
  refine List.ext_getElem (by simp) ?_
  intro i hi hi'
  simp [read, store_of_mem hi']

theorem read_store_of_le {m : Nat} (h : q + m ≤ p) : read (store mem p x) q m = read mem q m :=
  read_congr fun i hi => store_of_lt (by omega)

theorem read_memcpy (mem mem' : Memory α) (p q n : Nat) : read (memcpy mem p mem' q n) p n = read mem' q n := by
  refine read_congr fun i hi => ?_
  rw [memcpy, if_pos ⟨by omega, by omega⟩, Nat.add_sub_cancel_left]

end Memory
end CmetricsRuby
