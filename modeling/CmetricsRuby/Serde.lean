import CmetricsRuby.Format
import CmetricsRuby.Metric

/-!
# `Serde`

`cmetrics_serde.c`. `from_msgpack` decodes one record at the stored offset, `feed_each` all records
of a String, running a block after each.
-/

namespace CmetricsRuby

variable {lib : Library} {E : Type}

def Value.isNil : Value → Bool
  | .nil => Bool.true
  | _ => Bool.false

namespace Serde

def free (self : ObjId) : M lib E Unit := do
  let s ← serdeStruct self
  if s.inst.isSome then cmtDestroy s.inst
  putObj self .free

/-- The method `initialize`. A context the object has is not destroyed. -/
def rbInit (self : ObjId) : M lib E Value := do
  let _ ← serdeStruct self
  cmtInitialize
  putObj self (.serde ⟨none, 0⟩)
  return .nil

theorem run_rbInit {w : World lib E} {self : ObjId} {s : CMetricsSerde lib}
    (hself : w.heap self = .serde s) :
    (rbInit self).run w =
      .ok .nil ((w.called .init (lib.cmtInitialize w.mem)).put self (.serde ⟨none, 0⟩)) := by
  simp [rbInit, run_serdeStruct hself]

theorem heap_of_rbInit {w w₁ : World lib E} {self : ObjId} {s : CMetricsSerde lib}
    (hself : w.heap self = .serde s)
    (hnew : (rbInit self).run w = .ok .nil w₁) : w₁.heap self = .serde ⟨none, 0⟩ := by
  rw [run_rbInit hself] at hnew
  cases hnew
  exact World.put_heap_self ..

/-! ### Decoding -/

/-- The length `from_msgpack` works with. A given one goes through `ULONG2NUM`, which makes a `VALUE`
out of a C number, not the other way round. -/
def msgpackLength (rbUint2big : Nat → Nat) (rbBuffer rbLength : Value) : Except Exit Nat :=
  if rbLength.isNil then rstringLen rbBuffer
  else return ulong2num rbUint2big (← checkTypeFixnum rbLength).word

def msgpackOffset (rbOffset : Value) (stored : Nat) : Except Exit Nat :=
  if rbOffset.isNil then .ok stored
  else return toSizeT (← num2int (← checkTypeFixnum rbOffset))

structure DecodeCall where
  buf : Bytes
  length : Nat
  offset : Nat
deriving DecidableEq

def msgpackWindow (rbUint2big : Nat → Nat) (rbBuffer rbLength rbOffset : Value) (stored : Nat) :
    Except Exit DecodeCall := do
  let length ← msgpackLength rbUint2big rbBuffer rbLength
  let offset ← msgpackOffset rbOffset stored
  if length ≤ offset then
    rbRaise .runtimeError "offset should be smaller than msgpack buffer size."
  else if rbBuffer.isNil then
    rbRaise .argError "nil is not valid value for buffer"
  else
    return ⟨← stringValuePtr rbBuffer, length, offset⟩

/-- One decoder call. Where it succeeds the Serde takes over its context and its offset, and the
offset is the answer. The context the Serde had is not destroyed. -/
def decodeInto (self : ObjId) (c : DecodeCall) : M lib E (Option Nat) := do
  let d ← cmtDecodeMsgpackCreate c.buf c.length c.offset
  if d.ret = 0 then do
    putObj self (.serde ⟨d.cmt, d.offset⟩)
    return some d.offset
  else return none

theorem run_decodeInto (self : ObjId) (c : DecodeCall) (w : World lib E) :
    (decodeInto self c).run w =
      let r := lib.cmtDecodeMsgpackCreate c.buf c.length c.offset w.mem
      let w₁ := w.called (.decode c.buf c.length c.offset r.1.ret r.1.cmt) r.2
      if r.1.ret = 0 then .ok (some r.1.offset) (w₁.put self (.serde ⟨r.1.cmt, r.1.offset⟩))
      else .ok none w₁ := by
  by_cases h : (lib.cmtDecodeMsgpackCreate c.buf c.length c.offset w.mem).1.ret = 0 <;>
    simp [decodeInto, h]

def fromMsgpack (argv : List Value) (self : ObjId) : M lib E Value := do
  let s ← serdeStruct self
  let arg ← rbScanArgs 1 2 argv
  let call ← msgpackWindow lib.rbUint2big (arg 0) (arg 1) (arg 2) s.unpackMsgpackOffset
  let offset ← decodeInto self call
  return if offset.isSome then .true else .nil

def msgpackCall (rbUint2big : Nat → Nat) (argv : List Value) (stored : Nat) :
    Except Exit DecodeCall := do
  let arg ← rbScanArgs 1 2 argv
  msgpackWindow rbUint2big (arg 0) (arg 1) (arg 2) stored

theorem run_fromMsgpack {self : ObjId} {w : World lib E} {s : CMetricsSerde lib}
    (h : w.heap self = .serde s) (argv : List Value) :
    (fromMsgpack argv self).run w = (do
      let call ← liftM (msgpackCall lib.rbUint2big argv s.unpackMsgpackOffset)
      let offset ← decodeInto self call
      return if offset.isSome then .true else .nil : M lib E Value).run w := by
  simp [fromMsgpack, msgpackCall, run_serdeStruct h]

/-! ### `feed_each` -/

/-- The argument of `feed_each`. A String is an object that the program may change while the loop
runs, so its bytes are a function of the rest of the program. -/
inductive FeedData (E : Type)
  | nil
  | string (bytes : E → Bytes)
  | other

/-- How a call of `feed_each` ends, the decoder calls its loop makes, and the worlds in which its
block is called. -/
structure FeedRun (lib : Library) (E : Type) where
  result : EStateM.Result Exit (World lib E) Value
  decodes : List DecodeCall
  yields : List (World lib E)

/-- The loop. The length is the one at the start, the bytes are read anew at each turn, and the guard
admits an offset at the very end. -/
def feedLoop (self : ObjId) (bytes : E → Bytes) (length : Nat) (block : Block lib E) :
    (fuel offset : Nat) → World lib E → FeedRun lib E
  | 0, _, w => ⟨.error .diverged w, [], []⟩
  | fuel + 1, offset, w =>
    if offset ≤ length then
      let call : DecodeCall := ⟨bytes w.env, length, offset⟩
      match (decodeInto self call).run w with
      | .error e w₁ => ⟨.error e w₁, [call], []⟩
      | .ok none w₁ => ⟨.ok .nil w₁, [call], []⟩
      | .ok (some offset') w₁ =>
        match block.run w₁ with
        | .error e w₂ => ⟨.error e w₂, [call], [w₁]⟩
        | .ok _ w₂ =>
          let r := feedLoop self bytes length block fuel offset' w₂
          ⟨r.result, call :: r.decodes, w₁ :: r.yields⟩
    else ⟨.ok .nil w, [], []⟩

def FeedRun.ofResult (r : EStateM.Result Exit (World lib E) Value) : FeedRun lib E := ⟨r, [], []⟩

def fromMsgpackFeedEachImpl (fuel : Nat) (self : ObjId) (bytes : E → Bytes) (length : Nat)
    (block : Block lib E) (w : World lib E) : FeedRun lib E :=
  match (serdeStruct self : M lib E _).run w with
  | .error e w₁ => .ofResult (.error e w₁)
  | .ok _ w₁ => feedLoop self bytes length block fuel 0 w₁

/-- `feed_each`. Without a block it returns an Enumerator that has no arguments recorded. -/
def feedEach (fuel : Nat) (self : ObjId) (rbData : FeedData E) (block : Option (Block lib E))
    (w : World lib E) : FeedRun lib E :=
  match block, rbData with
  | none, _ => .ofResult (.ok (.enumerator self "feed_each" []) w)
  | some _, .nil =>
    .ofResult (.error (.raised .argError "nil is not valid value for buffer") w)
  | some _, .other => .ofResult (.error .undefined w)
  | some block, .string bytes =>
    fromMsgpackFeedEachImpl fuel self bytes (bytes w.env).length block w

/-- `feed_each` called by its name; it is defined with one argument. -/
def sendFeedEach (fuel : Nat) (self : ObjId) (argv : List (FeedData E)) (block : Option (Block lib E))
    (w : World lib E) : FeedRun lib E :=
  match argv with
  | [rbData] => feedEach fuel self rbData block w
  | _ => .ofResult (.error (.raised .argError "wrong number of arguments") w)

def FeedData.ofValue : Value → FeedData E
  | .nil => .nil
  | .string b => .string fun _ => b
  | _ => .other

/-- `each` of an Enumerator calls the method it comes from, with the arguments recorded in it. -/
def enumeratorEach (fuel : Nat) (enum : Value) (block : Block lib E) (w : World lib E) : FeedRun lib E :=
  match enum with
  | .enumerator recv "feed_each" argv => sendFeedEach fuel recv (argv.map .ofValue) (some block) w
  | _ => .ofResult (.error (.raised .noMethodError "undefined method") w)

/-! ### `concat` -/

def ensureInst (self : ObjId) (s : CMetricsSerde lib) : M lib E (Option lib.Ctx) :=
  match s.inst with
  | some cmt => pure (some cmt)
  | none => do
    let inst ← cmtCreate
    putObj self (.serde { s with inst := inst })
    return inst

/-- One branch of `concat`. The answer of `cmt_cat` is dropped. -/
def concatFrom (k : Kind) (inst : Option lib.Ctx) (rbData : Value) : M lib E Unit := do
  let s ← Metric.getPtr k rbData
  let _ ← cmtCat inst s.inst

def concatByClass (inst : Option lib.Ctx) (rbData : Value) : M lib E Unit := do
  if ← rbObjIsKindOf rbData .counter then concatFrom .counter inst rbData
  else if ← rbObjIsKindOf rbData .gauge then concatFrom .gauge inst rbData
  else if ← rbObjIsKindOf rbData .untyped then concatFrom .untyped inst rbData
  else liftM (rbRaise (α := Unit) .argError "specified type of instance is not supported.")

def concatMetric (rbData : Value) (self : ObjId) : M lib E Value := do
  let s ← serdeStruct self
  if rbData.isNil then
    liftM (rbRaise (α := Value) .argError "nil is not valid value for concatenating")
  else do
    let inst ← ensureInst self s
    concatByClass inst rbData
    return .nil

/-! ### Exporters -/

/-- The check in front of every exporter and of `get_metrics`. -/
def checkContext (self : ObjId) : M lib E (Option lib.Ctx) := do
  let s ← serdeStruct self
  if s.inst.isNone then liftM (rbRaise (α := Option lib.Ctx) .runtimeError "Invalid cmt context")
  else return s.inst

theorem run_checkContext {self : ObjId} {w : World lib E} {s : CMetricsSerde lib} {ctx : lib.Ctx}
    (hself : w.heap self = .serde s) (hinst : s.inst = some ctx) :
    (checkContext self : M lib E _).run w = .ok (some ctx) w := by
  simp [checkContext, run_serdeStruct hself, hinst]

theorem run_checkContext_none {self : ObjId} {w : World lib E} {s : CMetricsSerde lib}
    (hself : w.heap self = .serde s) (hinst : s.inst = none) :
    (checkContext self : M lib E _).run w =
      .error (.raised .runtimeError "Invalid cmt context") w := by
  simp [checkContext, run_serdeStruct hself, hinst, rbRaise]

def prometheusRemoteWrite (self : ObjId) : M lib E Value := do
  exportSds .remoteWrite (← checkContext self)

def toPrometheus (self : ObjId) : M lib E Value := do
  exportSds .prometheus (← checkContext self)

def toInflux (self : ObjId) : M lib E Value := do
  exportSds .influx (← checkContext self)

def toMsgpack (self : ObjId) : M lib E Value := do
  exportMsgpack (← checkContext self)

def toText (self : ObjId) : M lib E Value := do
  exportText (← checkContext self)

def getMetrics (self : ObjId) : M lib E Value := do
  match ← checkContext self with
  | none => liftM (rbRaise (α := Value) .runtimeError "Invalid cmt context")
  | some ctx => fun w => (liftM (formatContext lib.seconds (lib.cmt w.mem ctx)) : M lib E Value) w

end Serde

inductive Exporter
  | prometheusRemoteWrite
  | toPrometheus
  | toInflux
  | toText
  | toMsgpack
deriving DecidableEq

def Serde.runExporter (self : ObjId) : Exporter → M lib E Value
  | .prometheusRemoteWrite => prometheusRemoteWrite self
  | .toPrometheus => toPrometheus self
  | .toInflux => toInflux self
  | .toText => toText self
  | .toMsgpack => toMsgpack self

/-- The public methods of `Serde` but for `feed_each`, with their arguments. -/
inductive SerdeMethod
  | init
  | concat (v : Value)
  | fromMsgpack (argv : List Value)
  | exporter (e : Exporter)
  | getMetrics

def Serde.send (self : ObjId) : SerdeMethod → M lib E Value
  | .init => rbInit self
  | .concat v => concatMetric v self
  | .fromMsgpack argv => fromMsgpack argv self
  | .exporter e => Serde.runExporter self e
  | .getMetrics => getMetrics self

end CmetricsRuby
