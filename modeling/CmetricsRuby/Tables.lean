import CmetricsRuby.Trace
import CmetricsRuby.Lifetimes

/-!
# A metric as a table

What a metric is for: a number for each tuple of labels, zero at first. `Table.ask` is what a request makes of
the table and `Table.Answers` what it returns. `Library.Tabulates` is what is assumed of the library, on
histories in which it was given and handed out pointers as it should be; it rounds its sums as it does.
-/

namespace CmetricsRuby

variable {lib : Library} {E : Type}

abbrev Table := List CStr → Double

namespace Table

/-- `takes` says how many labels a tuple may have. -/
def accepts (takes : Nat → Bool) (t : Table) (u : Update) (L : List CStr) : Bool :=
  takes L.length && u.fits (t L)

def put (rounding : Rounding) (t : Table) (u : Update) (L : List CStr) : Table :=
  Function.update t L (u.target rounding (t L))

def ask (rounding : Rounding) (takes : Nat → Bool) (t : Table) : Request → Table
  | .update u _ L => if t.accepts takes u L then t.put rounding u L else t
  | _ => t

/-- How a request ends; `val` returns `nil` for a sample that is not there yet. -/
def Answers (takes : Nat → Bool) (t : Table) : Request → Except Exit Value → Prop
  | .update u _ L, x => x = .ok (if t.accepts takes u L then .true else .false)
  | .getVal _ L, x => x = .ok (.float (t L)) ∨ x = .ok .nil ∧ t L = 0
  | _, _ => True

/-- What a method makes of the table; one that raises makes nothing of it. -/
def call (rounding : Rounding) (takes : Nat → Bool) (k : Kind) (s : CMetricsMetric lib) (t : Table)
    (m : MetricMethod) : Table :=
  match Metric.plan k s m with
  | .ok r => t.ask rounding takes r
  | .error _ => t

end Table

def Library.table (lib : Library) (k : Kind) (m : lib.Metric) (mem : lib.Mem) : Table := fun L =>
  let r := lib.cmtGetVal k (some m) L.length L mem
  if r.1 = 0 then r.2 else 0

/-- From `mem₀` on the calls `log` were made, with pointers in use only and none handed out twice. -/
structure Library.History (lib : Library) (mem₀ : lib.Mem) (log : List (LibCall lib)) (mem : lib.Mem) : Prop where
  trace : Trace log mem₀ mem
  valid : Machine.Along InUse.after InUse.Valid log .nothing
  fresh : Machine.Along InUse.after InUse.Fresh log .nothing

def LibCall.updates (k : Kind) (m : lib.Metric) : LibCall lib → Prop
  | .update u m' _ _ _ _ => u.kind = k ∧ m' = some m
  | _ => False

/-- `takes` says of a metric how many labels it takes. A metric changes by its own updates only. -/
structure Library.Tabulates (lib : Library) (rounding : Rounding)
    (takes : Kind → lib.Mem → lib.Metric → Nat → Bool) : Prop where
  update : ∀ {mem₀ log mem m}, lib.History mem₀ log mem → ∀ (u : Update),
    .metric u.kind m ∈ (Machine.run InUse.after log .nothing).ptrs → ∀ (ts : Nat) (L : List CStr),
    let r := lib.cmtUpdate u (some m) ts L.length L mem
    takes u.kind r.2 m = takes u.kind mem m ∧
      if (lib.table u.kind m mem).accepts (takes u.kind mem m) u L then
        r.1 = 0 ∧ lib.table u.kind m r.2 = (lib.table u.kind m mem).put rounding u L
      else r.1 ≠ 0 ∧ lib.table u.kind m r.2 = lib.table u.kind m mem
  frame : ∀ {mem₀ log mem k m c mem'}, lib.History mem₀ log mem →
    let s := Machine.run InUse.after log .nothing
    c.Moves mem mem' → s.Valid c → s.Fresh c → .metric k m ∈ s.ptrs → .metric k m ∉ s.ended c →
    ¬ c.updates k m → takes k mem' m = takes k mem m ∧ lib.table k m mem' = lib.table k m mem

/-! ### The actions on one object -/

/-- The method an action calls on the object `id` of the kind `k`. -/
def GcAct.methodOn (k : Kind) (id : ObjId) : GcAct E → Option MetricMethod
  | .act (.metric k' id' m) => if k' = k ∧ id' = id then some m else none
  | _ => none

/-- The action frees the object, or gives it another metric. -/
def GcAct.Resets (k : Kind) (id : ObjId) (a : GcAct E) : Prop :=
  match a with
  | .collect id' => id' = id
  | a => a.methodOn k id = some .init ∨ ∃ argv, a.methodOn k id = some (.create argv)

end CmetricsRuby
