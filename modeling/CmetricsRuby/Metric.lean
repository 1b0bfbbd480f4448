import CmetricsRuby.World

/-!
# The metric classes

`cmetrics_counter.c`, `cmetrics_gauge.c` and `cmetrics_untyped.c` are the same text up to the name of
the class. `Metric` has each function once, as a function of the kind and of what differs between
its copies; `Counter`, `Gauge` and `Untyped` have the functions of the source.
-/

namespace CmetricsRuby

variable {lib : Library} {E α : Type}

/-! ### Label arguments -/

def labelItem : Value → Except Exit CStr
  | .symbol b => .ok (CStr.ofPtr b)
  | .string b => .ok (CStr.ofPtr b)
  | _ => rbRaise .argError "labels must be Symbol/String"

/-- The loop over an Array of labels; it raises at the first element that is neither. -/
def fillLabels : List Value → Except Exit (List CStr)
  | [] => .ok []
  | item :: items => do
    let label ← labelItem item
    let labels ← fillLabels items
    return label :: labels

/-- `ALLOCV_N` refuses a size that overflows, as a negative count does. -/
def allocvN (n : Int) : Except Exit Unit :=
  if n < 0 then rbRaise .argError "malloc: possible integer overflow" else .ok ()

/-- The switch on the type of a label argument, around the library call made in each of its
branches. -/
def withLabels (rbLabels : Value) (call : (labelsCount : Int) → List CStr → M lib E α) : M lib E α :=
  match rbLabels with
  | .nil => call 0 []
  | .string b => call 1 [CStr.ofPtr b]
  | .symbol b => call 1 [CStr.ofPtr b]
  | .array items => do
    let labelsCount := toCInt items.length
    allocvN labelsCount
    let labels ← fillLabels (items.take labelsCount.toNat)
    call labelsCount labels
  | _ => liftM (rbRaise (α := α) .argError "labels should be String, Symbol or Array class instance.")

def strOrSym (msg : String) : Value → Except Exit CStr
  | .string b => .ok (CStr.ofPtr b)
  | .symbol b => .ok (CStr.ofPtr b)
  | _ => rbRaise .argError msg

def numericArg (rbNum2dbl : Value → Double) (method : String) (rbNum : Value) : Except Exit Double :=
  match rbNum with
  | .float _ | .fixnum _ | .bignum _ | .rational _ => .ok (num2dbl rbNum2dbl rbNum)
  | _ => rbRaise .argError (method ++ " can handle numerics values only.")

namespace Metric

def checkCreated (k : Kind) (s : CMetricsMetric lib) : Except Exit Unit :=
  match s.metric with
  | none => rbRaise .runtimeError
      ("Create " ++ k.name ++ " with CMetrics::" ++ k.className ++ "#create first.")
  | some _ => .ok ()

def retBool (ret : Int) : Value := if ret = 0 then .true else .false

/-- `cmetrics_counter_get_ptr` and its siblings. Their check for `nil` comes too late to be reached. -/
def getPtr (k : Kind) : Value → M lib E (CMetricsMetric lib)
  | .object self => do
    let s ← metricStruct k self
    checkCreated k s
    return s
  | _ => liftM (rbRaise (α := CMetricsMetric lib) .typeError "wrong argument type")

def free (k : Kind) (self : ObjId) : M lib E Unit := do
  let s ← metricStruct k self
  if s.metric.isSome then cmtMetricDestroy k s.metric
  if s.inst.isSome then cmtDestroy s.inst
  putObj self .free

def rbInit (k : Kind) (self : ObjId) : M lib E Value := do
  let _ ← metricStruct k self
  cmtInitialize
  let inst ← cmtCreate
  putObj self (.metric k ⟨inst, none⟩)
  return .nil

def create (k : Kind) (argv : List Value) (self : ObjId) : M lib E Value := do
  let s ← metricStruct k self
  let arg ← rbScanArgs 4 1 argv
  let ns ← checkTypeString (arg 0)
  let subsystem ← checkTypeString (arg 1)
  let name ← checkTypeString (arg 2)
  let help ← checkTypeString (arg 3)
  withLabels (arg 4) fun labelsCount labels => do
    -- NULL is stored like any other answer
    let metric ← cmtMetricCreate k s.inst ⟨CStr.ofPtr ns, CStr.ofPtr subsystem, CStr.ofPtr name,
      CStr.ofPtr help, labelsCount, labels⟩
    putObj self (.metric k { s with metric := metric })
  return .nil

/-- `inc` and `dec`. -/
def update (k : Kind) (u : Update) (argv : List Value) (self : ObjId) : M lib E Value := do
  let s ← metricStruct k self
  checkCreated k s
  let arg ← rbScanArgs 0 1 argv
  let ts ← cflTimeNow
  let ret ← withLabels (arg 0) fun labelsCount labels => cmtUpdate u s.metric ts labelsCount labels
  return retBool ret

/-- `add`, `sub` and `set`. -/
def updateNum (k : Kind) (method : String) (u : Double → Update) (argv : List Value) (self : ObjId) :
    M lib E Value := do
  let s ← metricStruct k self
  checkCreated k s
  let arg ← rbScanArgs 1 1 argv
  let value ← numericArg lib.rbNum2dbl method (arg 0)
  let ts ← cflTimeNow
  let ret ← withLabels (arg 1) fun labelsCount labels =>
    cmtUpdate (u value) s.metric ts labelsCount labels
  return retBool ret

def getValue (k : Kind) (argv : List Value) (self : ObjId) : M lib E Value := do
  let s ← metricStruct k self
  checkCreated k s
  let arg ← rbScanArgs 0 1 argv
  let r ← withLabels (arg 0) fun labelsCount labels => cmtGetVal k s.metric labelsCount labels
  return if r.1 = 0 then .float r.2 else .nil

def addLabel (k : Kind) (rbKey rbValue : Value) (self : ObjId) : M lib E Value := do
  let s ← metricStruct k self
  checkCreated k s
  let key ← strOrSym "key should be String or Symbol class instance." rbKey
  let value ← strOrSym "value should be String or Symbol class instance." rbValue
  let ret ← cmtLabelAdd s.inst key value
  return retBool ret

end Metric

/-! ### Exporters, shared with `Serde` -/

/-- An encoder that returns a `cfl_sds_t`, whose NULL is handed to `rb_str_new2`. -/
def exportSds (e : SdsEncoder) (inst : Option lib.Ctx) : M lib E Value := do
  let prom ← cmtEncode e inst
  let str ← rbStrNew2 (prom.map Sds.bytes)
  cmtEncodeDestroy e (prom.map Sds.ptr)
  return .string str

def exportText (inst : Option lib.Ctx) : M lib E Value := do
  let buffer ← cmtEncode .text inst
  if buffer.isNone then return .nil
  let text ← rbStrNew2 (buffer.map Sds.bytes)
  cmtEncodeDestroy .text (buffer.map Sds.ptr)
  return .string text

/-- The msgpack encoder's buffer is copied by its size, and kept. -/
def exportMsgpack (inst : Option lib.Ctx) : M lib E Value := do
  let r ← cmtEncodeMsgpackCreate inst
  return if r.1 = 0 then .string (rbStrNew r.2.bytes r.2.bytes.length) else .nil

section
variable {inst : Option lib.Ctx} {w : World lib E}

theorem run_exportSds (e : SdsEncoder) : (exportSds e inst : M lib E Value).run w =
    let r := lib.cmtEncode e inst w.mem
    let w₁ := w.called (.encode e inst (r.1.map Sds.ptr)) r.2
    match r.1 with
    | none => .error (.raised .argError "NULL pointer given") w₁
    | some x => .ok (.string (CStr.ofPtr x.bytes).bytes)
        (w₁.called (.encodeDestroy e (some x.ptr)) (lib.cmtEncodeDestroy e (some x.ptr) r.2)) := by
  cases h : (lib.cmtEncode e inst w.mem).1 <;> simp [exportSds, h, rbStrNew2, rbRaise]

theorem run_exportText : (exportText inst : M lib E Value).run w =
    let r := lib.cmtEncode .text inst w.mem
    let w₁ := w.called (.encode .text inst (r.1.map Sds.ptr)) r.2
    match r.1 with
    | none => .ok .nil w₁
    | some x => .ok (.string (CStr.ofPtr x.bytes).bytes)
        (w₁.called (.encodeDestroy .text (some x.ptr)) (lib.cmtEncodeDestroy .text (some x.ptr) r.2)) := by
  cases h : (lib.cmtEncode .text inst w.mem).1 <;> simp [exportText, h, rbStrNew2]

theorem run_exportMsgpack : (exportMsgpack inst : M lib E Value).run w =
    let r := lib.cmtEncodeMsgpackCreate inst w.mem
    .ok (if r.1.1 = 0 then .string r.1.2.bytes else .nil)
      (w.called (.encodeMsgpack inst r.1.1 r.1.2.ptr) r.2) := by
  simp [exportMsgpack, rbStrNew]

end

namespace Metric

def toPrometheus (k : Kind) (self : ObjId) : M lib E Value := do
  let s ← metricStruct k self
  exportSds .prometheus s.inst

def toInflux (k : Kind) (self : ObjId) : M lib E Value := do
  let s ← metricStruct k self
  exportSds .influx s.inst

def toMsgpack (k : Kind) (self : ObjId) : M lib E Value := do
  let s ← metricStruct k self
  exportMsgpack s.inst

def toText (k : Kind) (self : ObjId) : M lib E Value := do
  let s ← metricStruct k self
  exportText s.inst

end Metric

inductive MetricMethod
  | init
  | create (argv : List Value)
  | increment (argv : List Value)
  | decrement (argv : List Value)
  | getValue (argv : List Value)
  | add (argv : List Value)
  | sub (argv : List Value)
  | set (argv : List Value)
  | addLabel (key value : Value)
  | toPrometheus
  | toInflux
  | toMsgpack
  | toText

def noMethod : M lib E Value := liftM (rbRaise (α := Value) .noMethodError "undefined method")

namespace Counter

def rbInit (self : ObjId) : M lib E Value := Metric.rbInit .counter self
def create (argv : List Value) (self : ObjId) : M lib E Value := Metric.create .counter argv self
def increment (argv : List Value) (self : ObjId) : M lib E Value :=
  Metric.update .counter .counterInc argv self
def getValue (argv : List Value) (self : ObjId) : M lib E Value := Metric.getValue .counter argv self
def add (argv : List Value) (self : ObjId) : M lib E Value :=
  Metric.updateNum .counter "CMetrics::Counter#add" .counterAdd argv self
def set (argv : List Value) (self : ObjId) : M lib E Value :=
  Metric.updateNum .counter "CMetrics::Counter#set" .counterSet argv self
def addLabel (key value : Value) (self : ObjId) : M lib E Value :=
  Metric.addLabel .counter key value self
def toPrometheus (self : ObjId) : M lib E Value := Metric.toPrometheus .counter self
def toInflux (self : ObjId) : M lib E Value := Metric.toInflux .counter self
def toMsgpack (self : ObjId) : M lib E Value := Metric.toMsgpack .counter self
def toText (self : ObjId) : M lib E Value := Metric.toText .counter self

attribute [simp] rbInit create increment getValue add set addLabel toPrometheus toInflux toMsgpack
  toText

def send (self : ObjId) : MetricMethod → M lib E Value
  | .init => rbInit self
  | .create argv => create argv self
  | .increment argv => increment argv self
  | .getValue argv => getValue argv self
  | .add argv => add argv self
  | .set argv => set argv self
  | .addLabel key value => addLabel key value self
  | .toPrometheus => toPrometheus self
  | .toInflux => toInflux self
  | .toMsgpack => toMsgpack self
  | .toText => toText self
  | .decrement _ | .sub _ => noMethod

end Counter

namespace Gauge

def rbInit (self : ObjId) : M lib E Value := Metric.rbInit .gauge self
def create (argv : List Value) (self : ObjId) : M lib E Value := Metric.create .gauge argv self
def increment (argv : List Value) (self : ObjId) : M lib E Value :=
  Metric.update .gauge .gaugeInc argv self
def decrement (argv : List Value) (self : ObjId) : M lib E Value :=
  Metric.update .gauge .gaugeDec argv self
def getValue (argv : List Value) (self : ObjId) : M lib E Value := Metric.getValue .gauge argv self
def add (argv : List Value) (self : ObjId) : M lib E Value :=
  Metric.updateNum .gauge "CMetrics::Gauge#add" .gaugeAdd argv self
-- `sub` reports a bad number under the name of `add`
def sub (argv : List Value) (self : ObjId) : M lib E Value :=
  Metric.updateNum .gauge "CMetrics::Gauge#add" .gaugeSub argv self
def set (argv : List Value) (self : ObjId) : M lib E Value :=
  Metric.updateNum .gauge "CMetrics::Gauge#set" .gaugeSet argv self
def addLabel (key value : Value) (self : ObjId) : M lib E Value :=
  Metric.addLabel .gauge key value self
def toPrometheus (self : ObjId) : M lib E Value := Metric.toPrometheus .gauge self
def toInflux (self : ObjId) : M lib E Value := Metric.toInflux .gauge self
def toMsgpack (self : ObjId) : M lib E Value := Metric.toMsgpack .gauge self
def toText (self : ObjId) : M lib E Value := Metric.toText .gauge self

attribute [simp] rbInit create increment decrement getValue add sub set addLabel toPrometheus
  toInflux toMsgpack toText

def send (self : ObjId) : MetricMethod → M lib E Value
  | .init => rbInit self
  | .create argv => create argv self
  | .increment argv => increment argv self
  | .decrement argv => decrement argv self
  | .getValue argv => getValue argv self
  | .add argv => add argv self
  | .sub argv => sub argv self
  | .set argv => set argv self
  | .addLabel key value => addLabel key value self
  | .toPrometheus => toPrometheus self
  | .toInflux => toInflux self
  | .toMsgpack => toMsgpack self
  | .toText => toText self

end Gauge

namespace Untyped

def rbInit (self : ObjId) : M lib E Value := Metric.rbInit .untyped self
def create (argv : List Value) (self : ObjId) : M lib E Value := Metric.create .untyped argv self
def getValue (argv : List Value) (self : ObjId) : M lib E Value := Metric.getValue .untyped argv self
def set (argv : List Value) (self : ObjId) : M lib E Value :=
  Metric.updateNum .untyped "CMetrics::Untyped#set" .untypedSet argv self
def addLabel (key value : Value) (self : ObjId) : M lib E Value :=
  Metric.addLabel .untyped key value self
def toPrometheus (self : ObjId) : M lib E Value := Metric.toPrometheus .untyped self
def toInflux (self : ObjId) : M lib E Value := Metric.toInflux .untyped self
def toMsgpack (self : ObjId) : M lib E Value := Metric.toMsgpack .untyped self
def toText (self : ObjId) : M lib E Value := Metric.toText .untyped self

attribute [simp] rbInit create getValue set addLabel toPrometheus toInflux toMsgpack toText

def send (self : ObjId) : MetricMethod → M lib E Value
  | .init => rbInit self
  | .create argv => create argv self
  | .getValue argv => getValue argv self
  | .set argv => set argv self
  | .addLabel key value => addLabel key value self
  | .toPrometheus => toPrometheus self
  | .toInflux => toInflux self
  | .toMsgpack => toMsgpack self
  | .toText => toText self
  | .increment _ | .decrement _ | .add _ | .sub _ => noMethod

end Untyped

def Metric.send (k : Kind) (self : ObjId) (m : MetricMethod) : M lib E Value :=
  match k with
  | .counter => Counter.send self m
  | .gauge => Gauge.send self m
  | .untyped => Untyped.send self m

end CmetricsRuby
