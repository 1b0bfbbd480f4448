import Mathlib.Algebra.GroupWithZero.Nat
import Mathlib.Data.List.TakeWhile

/-!
# Decoders and the records of a stream

A `Decoder` reads one record off the front of its input and says how much of the input the record took.
`records s off` is what it finds in `s` from position `off` on when it is called again and again behind the
record before, each record with the position just behind it. Two facts carry everything that is said about
cursors over a stream: the records of a stream written record by record are the ones written
(`records_written`), and cutting the stream keeps exactly the records that lie before the cut
(`records_take`, for a `PrefixDecoder`).
-/

namespace CmetricsRuby

/-- A decoder of one record off the front of its input. A record it accepts is not empty and lies within the
input. -/
structure Decoder (α β : Type*) where
  decode : List α → Option (β × Nat)
  pos : ∀ {s b k}, decode s = some (b, k) → 0 < k
  le : ∀ {s b k}, decode s = some (b, k) → k ≤ s.length

/-- A decoder whose records do not depend on what follows them. -/
structure PrefixDecoder (α β : Type*) extends Decoder α β where
  stable : ∀ {s b k}, decode s = some (b, k) → ∀ x, decode (s.take k ++ x) = some (b, k)

variable {α β : Type*} {s t : List α} {b : β} {k n off : Nat}

namespace Decoder

variable (d : Decoder α β)

theorem decode_nil : d.decode [] = none := by
  cases h : d.decode [] with
  | none => rfl
  | some p =>
    have hpos := d.pos (b := p.1) (k := p.2) h
    have hle := d.le (b := p.1) (k := p.2) h
    rw [List.length_nil] at hle
    omega

/-- The records of `s` from position `off` on, each with the position just behind it. -/
def records (s : List α) (off : Nat) : List (β × Nat) :=
  match _h : d.decode (s.drop off) with
  | none => []
  | some (b, k) => (b, off + k) :: records s (off + k)
termination_by s.length - off
decreasing_by
  have hk := d.pos _h
  have hle := d.le _h
  rw [List.length_drop] at hle
  omega

theorem records_none (h : d.decode (s.drop off) = none) : d.records s off = [] := by
  rw [records]; split
  · rfl
  · rename_i heq; rw [h] at heq; cases heq

theorem records_some (h : d.decode (s.drop off) = some (b, k)) :
    d.records s off = (b, off + k) :: d.records s (off + k) := by
  rw [records]; split
  · rename_i heq; rw [h] at heq; cases heq
  · rename_i heq; rw [h] at heq; cases heq; rfl

theorem records_induction {P : Nat → Prop} (s : List α)
    (stop : ∀ off, d.decode (s.drop off) = none → P off)
    (step : ∀ off b k, d.decode (s.drop off) = some (b, k) → P (off + k) → P off) (off : Nat) :
    P off := by
  induction off using records.induct d s with
  | case1 off h => exact stop off h
  | case2 off b k h ih => exact step off b k h ih

theorem drop_length_le (h : d.decode (s.drop off) = some (b, k)) : off + k ≤ s.length := by
  have hpos := d.pos h
  have hle := d.le h
  rw [List.length_drop] at hle; omega

theorem lt_length (h : d.decode (s.drop off) = some (b, k)) : off < s.length := by
  have := d.pos h
  have := d.drop_length_le h; omega

/-! ### Where the records end -/

theorem records_end_gt (off : Nat) : ∀ r ∈ d.records s off, off < r.2 := by
  induction off using d.records_induction s with
  | stop off h => rw [d.records_none h]; simp
  | step off b k h ih =>
    have := d.pos h
    rw [d.records_some h]
    intro r hr
    rcases List.mem_cons.mp hr with rfl | hr
    · show off < off + k; omega
    · have := ih r hr; omega

theorem length_records_le (off : Nat) : (d.records s off).length + off ≤ max off s.length := by
  induction off using d.records_induction s with
  | stop off h => rw [d.records_none h, List.length_nil]; omega
  | step off b k h ih =>
    have := d.pos h
    have := d.drop_length_le h
    rw [d.records_some h, List.length_cons]; omega

/-- The position a reader is at after the records `l`, having started at `off`. -/
def stop : Nat → List (β × Nat) → Nat
  | off, [] => off
  | _, r :: l => stop r.2 l

theorem stop_append (l m : List (β × Nat)) : stop off (l ++ m) = stop (stop off l) m := by
  induction l generalizing off with
  | nil => rfl
  | cons r l ih => exact ih

theorem stop_of_getLast? (off : Nat) {l : List (β × Nat)} {r : β × Nat} (h : l.getLast? = some r) :
    stop off l = r.2 := by
  obtain ⟨init, rfl⟩ := List.getLast?_eq_some_iff.1 h
  rw [stop_append]
  rfl

theorem records_stop {l m : List (β × Nat)} (h : d.records s off = l ++ m) :
    d.records s (stop off l) = m := by
  induction l generalizing off with
  | nil => exact h
  | cons r l ih =>
    cases hd : d.decode (s.drop off) with
    | none => rw [d.records_none hd] at h; cases h
    | some p =>
      rw [d.records_some hd, List.cons_append, List.cons.injEq] at h
      obtain ⟨rfl, h⟩ := h
      exact ih h

/-- The ends of the records go up, so the ones before the cut are a front part of them. -/
theorem takeWhile_records (n off : Nat) :
    (d.records s off).takeWhile (fun r => decide (r.2 ≤ n)) =
      (d.records s off).filter fun r => decide (r.2 ≤ n) := by
  induction off using d.records_induction s with
  | stop off h => rw [d.records_none h]; rfl
  | step off b k h ih =>
    rw [d.records_some h]
    by_cases hn : off + k ≤ n
    · rw [List.takeWhile_cons_of_pos (by simpa using hn), List.filter_cons_of_pos (by simpa using hn),
        ih]
    · rw [List.takeWhile_cons_of_neg (by simpa using hn), List.filter_cons_of_neg (by simpa using hn),
        eq_comm, List.filter_eq_nil_iff]
      intro r hr
      have := d.records_end_gt _ r hr
      simp; omega

/-! ### Streams written record by record -/

/-- The records written one after the other from position `off` on, each as some bytes, with their ends. -/
def written : Nat → List (List α × β) → List (β × Nat)
  | _, [] => []
  | off, p :: ps => (p.2, off + p.1.length) :: written (off + p.1.length) ps

theorem map_fst_written (ps : List (List α × β)) : (written off ps).map Prod.fst = ps.map Prod.snd := by
  induction ps generalizing off with
  | nil => rfl
  | cons p ps ih => simp [written, ih]

/-- The end of the `i`-th record is the total length of the records up to it. -/
theorem getElem?_written (ps : List (List α × β)) (i : Nat) : (written off ps)[i]? =
    ps[i]?.map fun p => (p.2, off + ((ps.take (i + 1)).map fun p => p.1.length).sum) := by
  induction ps generalizing off i with
  | nil => rfl
  | cons p ps ih =>
    cases i with
    | zero => simp [written]
    | succ i =>
      simp only [written, List.getElem?_cons_succ, ih i, List.take_succ_cons, List.map_cons,
        List.sum_cons, Nat.add_assoc]

theorem records_append {ps : List (List α × β)}
    (hps : ∀ p ∈ ps, ∀ x, d.decode (p.1 ++ x) = some (p.2, p.1.length)) (ht : d.decode t = none) (q : List α) :
    d.records (q ++ (ps.flatMap Prod.fst ++ t)) q.length = written q.length ps := by
  induction ps generalizing q with
  | nil => exact d.records_none (by simpa using ht)
  | cons p ps ih =>
    obtain ⟨hp, hps⟩ := List.forall_mem_cons.1 hps
    have hdecode : d.decode ((q ++ ((p :: ps).flatMap Prod.fst ++ t)).drop q.length) = some (p.2, p.1.length) := by
      rw [List.drop_left, List.flatMap_cons, List.append_assoc]
      exact hp _
    rw [d.records_some hdecode, written]
    have h := ih hps (q ++ p.1)
    simpa [List.append_assoc] using h

theorem records_written {ps : List (List α × β)}
    (hps : ∀ p ∈ ps, ∀ x, d.decode (p.1 ++ x) = some (p.2, p.1.length)) (ht : d.decode t = none) :
    d.records (ps.flatMap Prod.fst ++ t) 0 = written 0 ps :=
  d.records_append hps ht []

/-- `enc c` is decoded as `c`, whatever follows it. -/
def Frames (enc : β → List α) (c : β) : Prop := ∀ x, d.decode (enc c ++ x) = some (c, (enc c).length)

/-- The records written by `enc` one after the other from position `off` on, each with its end. -/
def frames (enc : β → List α) (off : Nat) (cs : List β) : List (β × Nat) :=
  written off (cs.map fun c => (enc c, c))

theorem length_frames (enc : β → List α) (cs : List β) : (frames enc off cs).length = cs.length := by
  rw [← List.length_map Prod.fst, frames, map_fst_written, List.length_map, List.length_map]

theorem getElem?_frames (enc : β → List α) (cs : List β) (i : Nat) :
    (frames enc off cs)[i]? =
      cs[i]?.map fun c => (c, off + ((cs.take (i + 1)).map fun c => (enc c).length).sum) := by
  rw [frames, getElem?_written, List.getElem?_map, ← List.map_take, List.map_map, Option.map_map]
  rfl

theorem records_frames (enc : β → List α) (cs : List β) (t : List α)
    (hcs : ∀ c ∈ cs, d.Frames enc c) (ht : d.decode t = none) :
    d.records (cs.flatMap enc ++ t) 0 = frames enc 0 cs := by
  have hps : ∀ p ∈ cs.map fun c => (enc c, c), ∀ x, d.decode (p.1 ++ x) = some (p.2, p.1.length) := by
    intro p hp
    obtain ⟨c, hc, rfl⟩ := List.mem_map.1 hp
    exact hcs c hc
  have h := d.records_written hps ht
  rwa [List.flatMap_map] at h

end Decoder

/-! ### Cutting the stream -/

namespace PrefixDecoder

variable (d : PrefixDecoder α β)

theorem decode_eq_of_isPrefix (h : d.decode s = some (b, k)) (ht : s.take k <+: t) :
    d.decode t = some (b, k) := by
  obtain ⟨x, rfl⟩ := ht
  exact d.stable h x

theorem decode_take_some (h : d.decode (s.drop off) = some (b, k)) (hn : off + k ≤ n) :
    d.decode ((s.take n).drop off) = some (b, k) := by
  refine d.decode_eq_of_isPrefix h ?_
  have hk : k ≤ n - off := by omega
  rw [List.drop_take]
  refine List.prefix_take_iff.mpr ⟨?_, ?_⟩
  · exact List.take_prefix k _
  · rw [List.length_take]
    omega

theorem decode_of_take (h : d.decode ((s.take n).drop off) = some (b, k)) :
    d.decode (s.drop off) = some (b, k) := by
  refine d.decode_eq_of_isPrefix h ?_
  refine List.IsPrefix.trans (List.take_prefix k _) ?_
  rw [List.drop_take]
  exact List.take_prefix _ _

/-- Cutting the stream at `n` keeps the records that lie before the cut, and finds no others. -/
theorem records_take (n off : Nat) :
    d.records (s.take n) off = (d.records s off).takeWhile (fun r => decide (r.2 ≤ n)) := by
  induction off using d.records_induction s with
  | stop off h =>
    rw [d.records_none h, List.takeWhile_nil]
    refine d.records_none ?_
    cases hc : d.decode ((s.take n).drop off) with
    | none => rfl
    | some p => rw [d.decode_of_take hc] at h; cases h
  | step off b k h ih =>
    by_cases hn : off + k ≤ n
    · rw [d.records_some (d.decode_take_some h hn), d.records_some h, ih,
        List.takeWhile_cons_of_pos (by simpa using hn)]
    · rw [d.records_some h, List.takeWhile_cons_of_neg (by simpa using hn)]
      refine d.records_none ?_
      cases hc : d.decode ((s.take n).drop off) with
      | none => rfl
      | some p =>
        -- a record of the cut stream is one of the whole stream, so it would be the same one
        have hle := d.drop_length_le hc
        rw [d.decode_of_take hc] at h
        cases h
        simp at hle; omega

/-- A later cut finds the records of an earlier cut again, and then the new ones. -/
theorem exists_filter_append {m n : Nat} (hmn : m ≤ n) (off : Nat) :
    ∃ new, (d.records s off).filter (fun r => decide (r.2 ≤ n)) =
      (d.records s off).filter (fun r => decide (r.2 ≤ m)) ++ new := by
  have h := List.takeWhile_append_dropWhile (p := fun r : β × Nat => decide (r.2 ≤ m))
    (l := d.records (s.take n) off)
  rw [Decoder.takeWhile_records, records_take, Decoder.takeWhile_records, List.filter_filter] at h
  refine ⟨_, h.symm.trans (congrArg (· ++ _) (List.filter_congr fun r _ => ?_))⟩
  simp only [Bool.and_eq_left_iff_imp, decide_eq_true_eq]
  omega

end PrefixDecoder
end CmetricsRuby
