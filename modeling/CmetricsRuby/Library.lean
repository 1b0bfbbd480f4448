import CmetricsRuby.Ruby

/-!
# The libraries behind the extension

`cmetrics` and `cfl` are linked in, not part of the source. A `Library` is what the extension sees of
them: a memory, pointers into it (`none` is NULL), and one function for each function the extension
calls. What Ruby and the machine make of numbers goes with it. What a theorem relies on it says as a
hypothesis about the `Library`. The structs whose fields the extension reads itself (`struct cmt` and
below) are spelled out.
-/

namespace CmetricsRuby

/-- The three metric classes; `cmt_counter_create`, `cmt_gauge_create` and `cmt_untyped_create` are
one function of the kind here, and so are the other functions that differ in the kind only. -/
inductive Kind
  | counter
  | gauge
  | untyped
deriving DecidableEq

def Kind.name : Kind → String
  | .counter => "counter"
  | .gauge => "gauge"
  | .untyped => "untyped"

def Kind.className : Kind → String
  | .counter => "Counter"
  | .gauge => "Gauge"
  | .untyped => "Untyped"

/-! ### The structs of a context -/

structure CmtOpts where
  ns : Option CStr
  subsystem : Option CStr
  name : Option CStr
  description : Option CStr
deriving DecidableEq

/-- `struct cmt_metric`: a value, its timestamp in nanoseconds and its label values. -/
structure CmtMetric where
  val : Double
  timestamp : Nat
  labels : List (Option CStr)
deriving DecidableEq

structure CmtMap where
  opts : CmtOpts
  labelKeys : List (Option CStr)
  metricStaticSet : Int
  metric : CmtMetric
  metrics : List CmtMetric
deriving DecidableEq

structure CmtLabel where
  key : Option CStr
  val : Option CStr
deriving DecidableEq

/-- `struct cmt`; a counter, gauge or untyped is represented by its map. -/
structure Cmt where
  staticLabels : List CmtLabel
  counters : List CmtMap
  gauges : List CmtMap
  untypeds : List CmtMap
deriving DecidableEq

namespace Cmt

/-- A context with nothing in it. -/
def empty : Cmt := ⟨[], [], [], []⟩

def maps (c : Cmt) : Kind → List CmtMap
  | .counter => c.counters
  | .gauge => c.gauges
  | .untyped => c.untypeds

end Cmt

/-! ### Calls -/

structure MetricDef where
  ns : CStr
  subsystem : CStr
  name : CStr
  help : CStr
  labelsCount : Int
  labels : List CStr
deriving DecidableEq

inductive Update
  | counterInc
  | counterAdd (val : Double)
  | counterSet (val : Double)
  | gaugeInc
  | gaugeDec
  | gaugeAdd (val : Double)
  | gaugeSub (val : Double)
  | gaugeSet (val : Double)
  | untypedSet (val : Double)
deriving DecidableEq

def Update.kind : Update → Kind
  | .counterInc | .counterAdd _ | .counterSet _ => .counter
  | .gaugeInc | .gaugeDec | .gaugeAdd _ | .gaugeSub _ | .gaugeSet _ => .gauge
  | .untypedSet _ => .untyped

/-- How the sums and differences of doubles come out. -/
structure Rounding where
  add : Double → Double → Double
  sub : Double → Double → Double

def Rounding.exact : Rounding := ⟨Double.add, Double.sub⟩

/-- What an update is to make of a stored number. -/
def Update.target (rounding : Rounding) (x : Double) : Update → Double
  | .counterInc | .gaugeInc => rounding.add x 1
  | .gaugeDec => rounding.sub x 1
  | .counterAdd val | .gaugeAdd val => rounding.add x val
  | .gaugeSub val => rounding.sub x val
  | .counterSet val | .gaugeSet val | .untypedSet val => val

/-- Counters and untypeds are not set to less than they hold. -/
def Update.fits (x : Double) : Update → Bool
  | .counterSet val | .untypedSet val => !decide (val < x)
  | _ => true

inductive SdsEncoder
  | prometheus
  | influx
  | text
  | remoteWrite
deriving DecidableEq

/-- An encoder's buffer: where it is and what it holds, as the encoder counts it. -/
structure Sds (Buf : Type) where
  ptr : Buf
  bytes : Bytes

structure Decoded (Ctx : Type) where
  ret : Int
  cmt : Option Ctx
  offset : Nat

structure Library where
  Mem : Type
  Ctx : Type
  Metric : Type
  Buf : Type
  cmtInitialize : Mem → Mem
  cmtCreate : Mem → Option Ctx × Mem
  cmtDestroy : Option Ctx → Mem → Mem
  cmtMetricCreate : Kind → Option Ctx → MetricDef → Mem → Option Metric × Mem
  cmtMetricDestroy : Kind → Option Metric → Mem → Mem
  cmtUpdate : Update → Option Metric → (ts : Nat) → (labelsCount : Int) → List CStr → Mem → Int × Mem
  /-- `cmt_counter_get_val` and its siblings; they only read. -/
  cmtGetVal : Kind → Option Metric → (labelsCount : Int) → List CStr → Mem → Int × Double
  cmtLabelAdd : Option Ctx → (key val : CStr) → Mem → Int × Mem
  cmtEncode : SdsEncoder → Option Ctx → Mem → Option (Sds Buf) × Mem
  cmtEncodeDestroy : SdsEncoder → Option Buf → Mem → Mem
  cmtEncodeMsgpackCreate : Option Ctx → Mem → (Int × Sds Buf) × Mem
  cmtDecodeMsgpackCreate : (buf : Bytes) → (length offset : Nat) → Mem → Decoded Ctx × Mem
  cmtCat : (dst src : Option Ctx) → Mem → Int × Mem
  cflTimeNow : Mem → Nat
  /-- The struct a context pointer points to. -/
  cmt : Mem → Ctx → Cmt
  /-- Ruby's own `rb_uint2big`: the address of the Bignum it allocates. -/
  rbUint2big : Nat → Nat
  /-- Ruby's own `rb_num2dbl`, of an Integer or a Rational. -/
  rbNum2dbl : Value → Double
  /-- The compiler's `ts/1000000000.0`, of nanoseconds. -/
  seconds : (ts : Nat) → Double

/-- A call of a library function, with its pointers and, where it has one, its result. -/
inductive LibCall (lib : Library)
  | init
  | create (ret : Option lib.Ctx)
  | destroy (cmt : Option lib.Ctx)
  | metricCreate (k : Kind) (cmt : Option lib.Ctx) (d : MetricDef) (ret : Option lib.Metric)
  | metricDestroy (k : Kind) (m : Option lib.Metric)
  | update (u : Update) (m : Option lib.Metric) (ts : Nat) (labelsCount : Int) (labels : List CStr)
      (ret : Int)
  | getVal (k : Kind) (m : Option lib.Metric) (labelsCount : Int) (labels : List CStr) (ret : Int)
  | labelAdd (cmt : Option lib.Ctx) (key val : CStr) (ret : Int)
  | encode (e : SdsEncoder) (cmt : Option lib.Ctx) (ret : Option lib.Buf)
  | encodeDestroy (e : SdsEncoder) (buf : Option lib.Buf)
  | encodeMsgpack (cmt : Option lib.Ctx) (ret : Int) (buf : lib.Buf)
  | decode (buf : Bytes) (length offset : Nat) (ret : Int) (cmt : Option lib.Ctx)
  | cat (dst src : Option lib.Ctx) (ret : Int)

end CmetricsRuby
