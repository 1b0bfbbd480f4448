import CmetricsRuby.Tables
import CmetricsRuby.Reference

/-!
# A library of metrics

It meets the assumptions about tables, refuses what the real one refuses, and decodes and encodes nothing.
Its sums are exact.
-/

namespace CmetricsRuby
namespace Tally

abbrev Series := Kind × Nat

/-- What is handed out is numbered; a metric has its number of keys, and values for the tuples updated. -/
structure Mem where
  next : Nat
  keys : Series → Nat
  value : Series → List CStr → Option Double

def table (mem : Mem) (m : Series) : Table := fun L => (mem.value m L).getD 0

def takes (mem : Mem) (m : Series) (n : Nat) : Bool := n = 0 || n = mem.keys m

def metricCreate (k : Kind) (d : MetricDef) (mem : Mem) : Option Nat × Mem :=
  (some mem.next, ⟨mem.next + 1, Function.update mem.keys (k, mem.next) d.labels.length,
    Function.update mem.value (k, mem.next) fun _ => none⟩)

def store (mem : Mem) (m : Series) (L : List CStr) (v : Double) : Mem :=
  { mem with value := Function.update mem.value m (Function.update (mem.value m) L (some v)) }

def update (u : Update) (m : Option Nat) (L : List CStr) (mem : Mem) : Int × Mem :=
  match m.map fun n => (u.kind, n) with
  | none => (-1, mem)
  | some m =>
    if (table mem m).accepts (takes mem m) u L then (0, store mem m L (u.target .exact (table mem m L))) else (-1, mem)

def getVal (k : Kind) (m : Option Nat) (L : List CStr) (mem : Mem) : Int × Double :=
  match m.bind fun n => mem.value (k, n) L with
  | none => (-1, 0)
  | some v => (0, v)

variable {mem : Mem} {m m' : Series} {L : List CStr} {v : Double} {k : Kind} {n : Nat}

theorem value_store (L' : List CStr) : (store mem m L v).value m' L' =
    if m' = m ∧ L' = L then some v else mem.value m' L' := by
  by_cases hm : m' = m <;> by_cases hL : L' = L <;> simp [store, hm, hL]

theorem table_store : table (store mem m L v) m = Function.update (table mem m) L v := by
  funext L'
  rw [table, value_store, Function.update_apply]
  by_cases hL : L' = L
  · rw [if_pos ⟨rfl, hL⟩, if_pos hL]
    rfl
  · rw [if_neg fun h => hL h.2, if_neg hL]
    rfl

theorem table_store_of_ne (h : m' ≠ m) : table (store mem m L v) m' = table mem m' := by
  funext L'
  rw [table, value_store, if_neg fun hand => h hand.1]
  rfl

theorem update_spec (u : Update) (n : Nat) (L : List CStr) (mem : Mem) :
    let m := (u.kind, n)
    let r := update u (some n) L mem
    takes r.2 m = takes mem m ∧
      if (table mem m).accepts (takes mem m) u L then r.1 = 0 ∧ table r.2 m = (table mem m).put .exact u L
      else r.1 ≠ 0 ∧ table r.2 m = table mem m := by
  simp only [update, Option.map_some]
  by_cases h : (table mem (u.kind, n)).accepts (takes mem (u.kind, n)) u L = true
  · rw [if_pos h, if_pos h]
    exact ⟨rfl, rfl, table_store⟩
  · rw [if_neg h, if_neg h]
    exact ⟨rfl, nofun, rfl⟩

theorem update_of_ne (u : Update) {m' : Option Nat} (h : ¬ (u.kind = k ∧ m' = some n)) (L : List CStr) (mem : Mem) :
    let r := update u m' L mem
    takes r.2 (k, n) = takes mem (k, n) ∧ table r.2 (k, n) = table mem (k, n) := by
  cases m' with
  | none => exact ⟨rfl, rfl⟩
  | some n' =>
    have hne : (k, n) ≠ (u.kind, n') := by
      rintro ⟨rfl, rfl⟩
      exact h ⟨rfl, rfl⟩
    simp only [update, Option.map_some]
    split
    · exact ⟨rfl, table_store_of_ne hne⟩
    · exact ⟨rfl, rfl⟩

theorem metricCreate_of_ne (k' : Kind) (d : MetricDef) (h : (k, n) ≠ (k', mem.next)) :
    let mem' := (metricCreate k' d mem).2
    takes mem' (k, n) = takes mem (k, n) ∧ table mem' (k, n) = table mem (k, n) := by
  intro mem'
  have hkeys : mem'.keys (k, n) = mem.keys (k, n) := Function.update_of_ne h ..
  have hvalue : mem'.value (k, n) = mem.value (k, n) := Function.update_of_ne h ..
  unfold takes table
  rw [hkeys, hvalue]
  exact ⟨rfl, rfl⟩

theorem getVal_table : (if (getVal k (some n) L mem).1 = 0 then (getVal k (some n) L mem).2 else 0) =
    table mem (k, n) L := by
  unfold getVal table
  rw [Option.bind_some]
  cases mem.value (k, n) L <;> rfl

end Tally

def tally : Library where
  Mem := Tally.Mem
  Ctx := Nat
  Metric := Nat
  Buf := Nat
  cmtInitialize mem := mem
  cmtCreate mem := (some mem.next, { mem with next := mem.next + 1 })
  cmtDestroy _ mem := mem
  cmtMetricCreate k _ := Tally.metricCreate k
  cmtMetricDestroy _ _ mem := mem
  cmtUpdate u m _ _ := Tally.update u m
  cmtGetVal k m _ := Tally.getVal k m
  cmtLabelAdd _ _ _ mem := (0, mem)
  cmtEncode _ _ mem := (none, mem)
  cmtEncodeDestroy _ _ mem := mem
  cmtEncodeMsgpackCreate _ mem := ((-1, ⟨(0 : Nat), []⟩), mem)
  cmtDecodeMsgpackCreate _ _ offset mem := (⟨-1, none, offset⟩, mem)
  cmtCat _ _ mem := (-1, mem)
  cflTimeNow _ := 0
  cmt _ _ := .empty
  rbUint2big _ := 0x7f0000000000
  rbNum2dbl := Reference.exactDouble
  seconds ts := .finite (ts / 1000000000)

namespace Tally

theorem table_tally : tally.table = fun k n mem => table mem (k, n) := by
  funext k n mem L
  exact getVal_table

theorem tabulates : tally.Tabulates .exact fun k mem n => takes mem (k, n) where
  update := by
    intro mem₀ log mem m hist u hm ts L
    rw [table_tally]
    exact update_spec u m L mem
  frame := by
    intro mem₀ log mem k n c mem' hist s hmoves hvalid hfresh hm hended hupdates
    rw [table_tally]
    show takes mem' (k, n) = takes mem (k, n) ∧ table mem' (k, n) = table mem (k, n)
    have same : ∀ {mem' : Mem}, mem' = mem →
        takes mem' (k, n) = takes mem (k, n) ∧ table mem' (k, n) = table mem (k, n) := by
      rintro mem' rfl
      exact ⟨rfl, rfl⟩
    cases c with
    | update u m' ts n' L ret =>
      obtain rfl : (update u m' L mem).2 = mem' := congrArg Prod.snd hmoves
      exact update_of_ne u hupdates L mem
    | metricCreate k' cmt d ret =>
      obtain rfl : (metricCreate k' d mem).2 = mem' := congrArg Prod.snd hmoves
      obtain rfl : some mem.next = ret := congrArg Prod.fst hmoves
      refine metricCreate_of_ne k' d ?_
      rintro ⟨rfl, rfl⟩
      exact hfresh _ rfl hm
    | create ret =>
      obtain rfl : { mem with next := mem.next + 1 } = mem' := congrArg Prod.snd hmoves
      exact ⟨rfl, rfl⟩
    | decode buf length offset ret cmt =>
      obtain ⟨d, hd, -⟩ := hmoves
      exact same (congrArg Prod.snd hd).symm
    | encode e cmt ret => exact same hmoves.2
    | encodeMsgpack cmt ret buf => exact same hmoves.2
    | getVal k m n L ret => exact same hmoves.2
    | labelAdd cmt key val ret => exact same (congrArg Prod.snd hmoves).symm
    | cat dst src ret => exact same (congrArg Prod.snd hmoves).symm
    | init => exact same hmoves
    | destroy cmt => exact same hmoves
    | metricDestroy k m => exact same hmoves
    | encodeDestroy e buf => exact same hmoves

end Tally
end CmetricsRuby
