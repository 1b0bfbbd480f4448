import CmetricsRuby.Library
import Mathlib.Logic.Function.Basic

/-!
# The world a method runs in

The Ruby objects of the extension, the memory of the libraries, the log of the library calls made so
far, and `env`, everything else a Ruby program has (its Strings, the variables of its blocks). A
method is an `EStateM` program over it. Every library call goes through `libCall`, which logs it.
-/

namespace CmetricsRuby

/-- `CMetricsCounter`, `CMetricsGauge`, `CMetricsUntyped`: `instance`, and the third member, which
each class names after itself. -/
structure CMetricsMetric (lib : Library) where
  inst : Option lib.Ctx
  metric : Option lib.Metric

structure CMetricsSerde (lib : Library) where
  inst : Option lib.Ctx
  unpackMsgpackOffset : Nat

inductive Obj (lib : Library)
  | free
  | metric (k : Kind) (s : CMetricsMetric lib)
  | serde (s : CMetricsSerde lib)

structure World (lib : Library) (E : Type) where
  heap : ObjId → Obj lib
  mem : lib.Mem
  log : List (LibCall lib)
  env : E

abbrev M (lib : Library) (E : Type) := EStateM Exit (World lib E)

/-- A Ruby block: it may do anything to the world, and end in any way. -/
abbrev Block (lib : Library) (E : Type) := M lib E Unit

variable {lib : Library} {E α : Type}

namespace World
variable (w : World lib E)

def called (c : LibCall lib) (mem : lib.Mem) : World lib E := { w with mem := mem, log := w.log ++ [c] }

def put (self : ObjId) (o : Obj lib) : World lib E := { w with heap := Function.update w.heap self o }

variable (c : LibCall lib) (mem : lib.Mem) (self : ObjId) (o : Obj lib)

@[simp] theorem called_heap : (w.called c mem).heap = w.heap := rfl
@[simp] theorem called_mem : (w.called c mem).mem = mem := rfl
@[simp] theorem called_log : (w.called c mem).log = w.log ++ [c] := rfl
@[simp] theorem called_env : (w.called c mem).env = w.env := rfl

@[simp] theorem put_mem : (w.put self o).mem = w.mem := rfl
@[simp] theorem put_log : (w.put self o).log = w.log := rfl
@[simp] theorem put_env : (w.put self o).env = w.env := rfl

@[simp] theorem put_heap_self : (w.put self o).heap self = o := Function.update_self ..

theorem put_heap_of_ne {id : ObjId} (h : id ≠ self) : (w.put self o).heap id = w.heap id :=
  Function.update_of_ne h ..

end World

/-! ### Library calls -/

def libCall (f : lib.Mem → α × lib.Mem) (call : α → LibCall lib) : M lib E α := fun w =>
  let r := f w.mem
  .ok r.1 (w.called (call r.1) r.2)

@[simp] theorem run_libCall (f : lib.Mem → α × lib.Mem) (call : α → LibCall lib) (w : World lib E) :
    (libCall f call).run w = .ok (f w.mem).1 (w.called (call (f w.mem).1) (f w.mem).2) := rfl

def cmtInitialize : M lib E Unit :=
  libCall (fun mem => ((), lib.cmtInitialize mem)) fun _ => .init

def cmtCreate : M lib E (Option lib.Ctx) := libCall lib.cmtCreate .create

def cmtDestroy (cmt : Option lib.Ctx) : M lib E Unit :=
  libCall (fun mem => ((), lib.cmtDestroy cmt mem)) fun _ => .destroy cmt

def cmtMetricCreate (k : Kind) (cmt : Option lib.Ctx) (d : MetricDef) : M lib E (Option lib.Metric) :=
  libCall (lib.cmtMetricCreate k cmt d) (.metricCreate k cmt d)

def cmtMetricDestroy (k : Kind) (m : Option lib.Metric) : M lib E Unit :=
  libCall (fun mem => ((), lib.cmtMetricDestroy k m mem)) fun _ => .metricDestroy k m

def cmtUpdate (u : Update) (m : Option lib.Metric) (ts : Nat) (labelsCount : Int)
    (labels : List CStr) : M lib E Int :=
  libCall (lib.cmtUpdate u m ts labelsCount labels) (.update u m ts labelsCount labels)

def cmtGetVal (k : Kind) (m : Option lib.Metric) (labelsCount : Int) (labels : List CStr) :
    M lib E (Int × Double) :=
  libCall (fun mem => (lib.cmtGetVal k m labelsCount labels mem, mem))
    fun r => .getVal k m labelsCount labels r.1

def cmtLabelAdd (cmt : Option lib.Ctx) (key val : CStr) : M lib E Int :=
  libCall (lib.cmtLabelAdd cmt key val) (.labelAdd cmt key val)

def cmtEncode (e : SdsEncoder) (cmt : Option lib.Ctx) : M lib E (Option (Sds lib.Buf)) :=
  libCall (lib.cmtEncode e cmt) fun r => .encode e cmt (r.map Sds.ptr)

def cmtEncodeDestroy (e : SdsEncoder) (buf : Option lib.Buf) : M lib E Unit :=
  libCall (fun mem => ((), lib.cmtEncodeDestroy e buf mem)) fun _ => .encodeDestroy e buf

def cmtEncodeMsgpackCreate (cmt : Option lib.Ctx) : M lib E (Int × Sds lib.Buf) :=
  libCall (lib.cmtEncodeMsgpackCreate cmt) fun r => .encodeMsgpack cmt r.1 r.2.ptr

def cmtDecodeMsgpackCreate (buf : Bytes) (length offset : Nat) : M lib E (Decoded lib.Ctx) :=
  libCall (lib.cmtDecodeMsgpackCreate buf length offset) fun d => .decode buf length offset d.ret d.cmt

def cmtCat (dst src : Option lib.Ctx) : M lib E Int := libCall (lib.cmtCat dst src) (.cat dst src)

def cflTimeNow : M lib E Nat := fun w => .ok (lib.cflTimeNow w.mem) w

@[simp] theorem run_cflTimeNow (w : World lib E) :
    (cflTimeNow : M lib E Nat).run w = .ok (lib.cflTimeNow w.mem) w := rfl

attribute [simp] cmtInitialize cmtCreate cmtDestroy cmtMetricCreate cmtMetricDestroy cmtUpdate
  cmtGetVal cmtLabelAdd cmtEncode cmtEncodeDestroy cmtEncodeMsgpackCreate cmtDecodeMsgpackCreate cmtCat

/-! ### Objects -/

/-- `TypedData_Get_Struct` of a metric class. -/
def metricStruct (k : Kind) (self : ObjId) : M lib E (CMetricsMetric lib) := fun w =>
  match w.heap self with
  | .metric k' s =>
    if k' = k then .ok s w else .error (.raised .typeError "wrong argument type") w
  | _ => .error (.raised .typeError "wrong argument type") w

def serdeStruct (self : ObjId) : M lib E (CMetricsSerde lib) := fun w =>
  match w.heap self with
  | .serde s => .ok s w
  | _ => .error (.raised .typeError "wrong argument type") w

def putObj (self : ObjId) (o : Obj lib) : M lib E Unit := fun w => .ok () (w.put self o)

@[simp] theorem run_putObj (self : ObjId) (o : Obj lib) (w : World lib E) :
    (putObj self o).run w = .ok () (w.put self o) := rfl

def World.isKindOf (w : World lib E) (k : Kind) : Value → Bool
  | .object id =>
    match w.heap id with
    | .metric k' _ => decide (k' = k)
    | _ => false
  | _ => false

def rbObjIsKindOf (v : Value) (k : Kind) : M lib E Bool := fun w => .ok (w.isKindOf k v) w

@[simp] theorem run_rbObjIsKindOf (v : Value) (k : Kind) (w : World lib E) :
    (rbObjIsKindOf v k : M lib E Bool).run w = .ok (w.isKindOf k v) w := rfl

variable {w : World lib E} {self : ObjId} {k : Kind}

theorem run_metricStruct {s : CMetricsMetric lib} (h : w.heap self = .metric k s) :
    (metricStruct k self : M lib E _).run w = .ok s w := by
  simp [metricStruct, EStateM.run, h]

theorem run_metricStruct_of_not (h : ∀ s, w.heap self ≠ .metric k s) :
    (metricStruct k self : M lib E _).run w =
      .error (.raised .typeError "wrong argument type") w := by
  simp only [metricStruct, EStateM.run]
  cases ho : w.heap self with
  | metric k' s =>
    have hk : k' ≠ k := by
      rintro rfl
      exact h s ho
    simp [hk]
  | _ => rfl

theorem metric_inj {s s' : CMetricsMetric lib} (h : w.heap self = .metric k s)
    (h' : w.heap self = .metric k s') : s = s' := by
  have heq := h.symm.trans h'
  injection heq

theorem serde_inj {s s' : CMetricsSerde lib} (h : w.heap self = .serde s)
    (h' : w.heap self = .serde s') : s = s' := by
  have heq := h.symm.trans h'
  injection heq

theorem ne_of_metric_serde {id : ObjId} {src : CMetricsMetric lib} {s : CMetricsSerde lib}
    (h : w.heap id = .metric k src) (h' : w.heap self = .serde s) : id ≠ self := by
  rintro rfl
  rw [h] at h'
  cases h'

theorem run_serdeStruct {s : CMetricsSerde lib} (h : w.heap self = .serde s) :
    (serdeStruct self : M lib E _).run w = .ok s w := by
  simp [serdeStruct, EStateM.run, h]

theorem run_serdeStruct_of_not (h : ∀ s, w.heap self ≠ .serde s) :
    (serdeStruct self : M lib E _).run w = .error (.raised .typeError "wrong argument type") w := by
  simp only [serdeStruct, EStateM.run]

end CmetricsRuby
