import CmetricsRuby.Request
import CmetricsRuby.Serde

/-!
# What a method can do

Every method touches its own object only and makes a few library calls. `Metric.send_does` and
`Serde.send_does` list, method by method, the calls it can make and what it can make of its object;
every invariant of a run is read off these lists.
-/

namespace CmetricsRuby

variable {lib : Library} {E : Type}

/-- From `w` to `w'` the library calls `calls` are made, the object `self` becomes `o`, and no other
object is touched. -/
structure World.Does (w : World lib E) (id : ObjId) (calls : List (LibCall lib)) (o : Obj lib)
    (w' : World lib E) : Prop where
  heap : w'.heap = Function.update w.heap id o
  log : w'.log = w.log ++ calls
  env : w'.env = w.env

namespace World.Does
variable {w w' : World lib E} {id : ObjId} {calls : List (LibCall lib)} {o : Obj lib}

theorem heap_self (h : w.Does id calls o w') : w'.heap id = o := by
  rw [h.heap, Function.update_self]

theorem heap_of_ne (h : w.Does id calls o w') {other : ObjId} (hne : other ≠ id) :
    w'.heap other = w.heap other := by
  rw [h.heap, Function.update_of_ne hne]

theorem of_heap_eq (ho : w.heap id = o) (hheap : w'.heap = w.heap) (hlog : w'.log = w.log ++ calls)
    (henv : w'.env = w.env) : w.Does id calls o w' :=
  ⟨by rw [← ho, Function.update_eq_self, hheap], hlog, henv⟩

end World.Does

inductive ExportCalls (inst : Option lib.Ctx) : List (LibCall lib) → Prop
  | failed (e) : ExportCalls inst [.encode e inst none]
  | freed (e p) : ExportCalls inst [.encode e inst (some p), .encodeDestroy e (some p)]
  | msgpack (ret p) : ExportCalls inst [.encodeMsgpack inst ret p]

section
variable {w : World lib E} {id : ObjId} {o : Obj lib}

/-- The world after an encoder has run and its buffer, if there is one, is destroyed. -/
def World.exported (w : World lib E) (e : SdsEncoder) (inst : Option lib.Ctx) : World lib E :=
  let r := lib.cmtEncode e inst w.mem
  let w₁ := w.called (.encode e inst (r.1.map Sds.ptr)) r.2
  match r.1 with
  | none => w₁
  | some x => w₁.called (.encodeDestroy e (some x.ptr)) (lib.cmtEncodeDestroy e (some x.ptr) r.2)

theorem stateOf_exportSds (e : SdsEncoder) (inst : Option lib.Ctx) :
    stateOf ((exportSds e inst : M lib E Value).run w) = w.exported e inst := by
  rw [run_exportSds]
  unfold World.exported
  cases h : (lib.cmtEncode e inst w.mem).1 with
  | none => simp only [h]; rfl
  | some x => simp only [h]; rfl

theorem stateOf_exportText (inst : Option lib.Ctx) :
    stateOf ((exportText inst : M lib E Value).run w) = w.exported .text inst := by
  rw [run_exportText]
  unfold World.exported
  cases h : (lib.cmtEncode .text inst w.mem).1 with
  | none => simp only [h]; rfl
  | some x => simp only [h]; rfl

theorem exported_does (e : SdsEncoder) (inst : Option lib.Ctx) (ho : w.heap id = o) :
    ∃ calls, ExportCalls inst calls ∧ w.Does id calls o (w.exported e inst) := by
  unfold World.exported
  cases h : (lib.cmtEncode e inst w.mem).1 with
  | none =>
    simp only [h]
    exact ⟨_, .failed e, .of_heap_eq ho rfl rfl rfl⟩
  | some x =>
    simp only [h]
    exact ⟨_, .freed e x.ptr, .of_heap_eq ho rfl (List.append_assoc _ _ _) rfl⟩

theorem exportSds_does (inst : Option lib.Ctx) (e : SdsEncoder) (ho : w.heap id = o) :
    ∃ calls, ExportCalls inst calls ∧
      w.Does id calls o (stateOf ((exportSds e inst : M lib E Value).run w)) := by
  rw [stateOf_exportSds]
  exact exported_does e inst ho

theorem exportText_does (inst : Option lib.Ctx) (ho : w.heap id = o) :
    ∃ calls, ExportCalls inst calls ∧
      w.Does id calls o (stateOf ((exportText inst : M lib E Value).run w)) := by
  rw [stateOf_exportText]
  exact exported_does .text inst ho

theorem exportMsgpack_does (inst : Option lib.Ctx) (ho : w.heap id = o) :
    ∃ calls, ExportCalls inst calls ∧
      w.Does id calls o (stateOf ((exportMsgpack inst : M lib E Value).run w)) := by
  rw [run_exportMsgpack]
  exact ⟨_, .msgpack _ _, .of_heap_eq ho rfl rfl rfl⟩

end

/-! ### The metric classes -/

namespace Metric

variable {k : Kind} {s : CMetricsMetric lib} {w : World lib E} {self : ObjId}

/-- The calls a request comes to, and the struct it leaves. -/
inductive Asks (k : Kind) (s : CMetricsMetric lib) :
    Request → List (LibCall lib) → CMetricsMetric lib → Prop
  | init (inst) : Asks k s .init [.init, .create inst] ⟨inst, none⟩
  | create (d m) : Asks k s (.create d) [.metricCreate k s.inst d m] ⟨s.inst, m⟩
  | update (u ts n L ret) : Asks k s (.update u n L) [.update u s.metric ts n L ret] s
  | getVal (n L ret) : Asks k s (.getVal n L) [.getVal k s.metric n L ret] s
  | addLabel (key val ret) : Asks k s (.addLabel key val) [.labelAdd s.inst key val ret] s
  | encode (e calls) : ExportCalls s.inst calls → Asks k s (.encode e) calls s
  | text (calls) : ExportCalls s.inst calls → Asks k s .text calls s
  | msgpack (calls) : ExportCalls s.inst calls → Asks k s .msgpack calls s

theorem perform_does (h : w.heap self = .metric k s) (r : Request) : ∃ calls s', Asks k s r calls s' ∧
    w.Does self calls (.metric k s') (stateOf ((perform k s self r : M lib E Value).run w)) := by
  cases r with
  | init => exact ⟨_, _, .init (lib.cmtCreate (lib.cmtInitialize w.mem)).1, rfl, by simp [perform], rfl⟩
  | create d => exact ⟨_, _, .create d _, rfl, rfl, rfl⟩
  | update u n L => exact ⟨_, _, .update u _ n L _, .of_heap_eq h rfl rfl rfl⟩
  | getVal n L => exact ⟨_, _, .getVal n L _, .of_heap_eq h rfl rfl rfl⟩
  | addLabel key val => exact ⟨_, _, .addLabel key val _, .of_heap_eq h rfl rfl rfl⟩
  | encode e =>
    obtain ⟨calls, hcalls, hdoes⟩ := exportSds_does s.inst e h
    exact ⟨calls, s, .encode e calls hcalls, hdoes⟩
  | text =>
    obtain ⟨calls, hcalls, hdoes⟩ := exportText_does s.inst h
    exact ⟨calls, s, .text calls hcalls, hdoes⟩
  | msgpack =>
    obtain ⟨calls, hcalls, hdoes⟩ := exportMsgpack_does s.inst h
    exact ⟨calls, s, .msgpack calls hcalls, hdoes⟩

theorem send_does (h : w.heap self = .metric k s) (m : MetricMethod) :
    (∃ e, plan k s m = .error e ∧ (send k self m).run w = .error e w) ∨
    ∃ r calls s', plan k s m = .ok r ∧ Asks k s r calls s' ∧
      w.Does self calls (.metric k s') (stateOf ((send k self m).run w)) := by
  cases hp : plan k s m with
  | error e => exact .inl ⟨e, rfl, run_send_error h hp⟩
  | ok r =>
    obtain ⟨calls, s', hasks, hdoes⟩ := perform_does h r
    rw [← run_send_ok h hp] at hdoes
    exact .inr ⟨r, calls, s', rfl, hasks, hdoes⟩

theorem run_send_of_not (h : ∀ s, w.heap self ≠ .metric k s) (m : MetricMethod) :
    ∃ e, (send k self m).run w = .error e w := by
  have hs := run_metricStruct_of_not h
  cases k <;> cases m <;>
    simp [send, Counter.send, Gauge.send, Untyped.send, create_eq, update_eq, updateNum_eq, getValue_eq,
      addLabel_eq, rbInit, toPrometheus, toInflux, toMsgpack, toText, noMethod, rbRaise, hs]

theorem send_of_not (h : ∀ s, w.heap self ≠ .metric k s) (m : MetricMethod) :
    stateOf ((send k self m).run w) = w := by
  obtain ⟨e, he⟩ := run_send_of_not h m
  rw [he, stateOf_error]

end Metric

/-! ### `Serde` -/

namespace Serde

variable {s : CMetricsSerde lib} {w w' : World lib E} {self : ObjId}

/-- The calls a method of `Serde` can make, and the struct it leaves. -/
inductive Asks (w : World lib E) (s : CMetricsSerde lib) :
    SerdeMethod → List (LibCall lib) → CMetricsSerde lib → Prop
  | init : Asks w s .init [.init] ⟨none, 0⟩
  | decoded (argv) (c : DecodeCall) (cmt offset) :
      Asks w s (.fromMsgpack argv) [.decode c.buf c.length c.offset 0 cmt] ⟨cmt, offset⟩
  | undecoded (argv) (c : DecodeCall) (ret cmt) : ret ≠ 0 →
      Asks w s (.fromMsgpack argv) [.decode c.buf c.length c.offset ret cmt] s
  | created (v) : s.inst = none → Asks w s (.concat v) [.create (lib.cmtCreate w.mem).1]
      { s with inst := (lib.cmtCreate w.mem).1 }
  | appended (v id k src ret) : s.inst ≠ none → w.heap id = .metric k src → src.metric ≠ none →
      Asks w s (.concat v) [.cat s.inst src.inst ret] s
  | appendedNew (v id k src ret) : s.inst = none → w.heap id = .metric k src → src.metric ≠ none →
      Asks w s (.concat v)
        [.create (lib.cmtCreate w.mem).1, .cat (lib.cmtCreate w.mem).1 src.inst ret]
        { s with inst := (lib.cmtCreate w.mem).1 }
  | exported (e calls) : s.inst ≠ none → ExportCalls s.inst calls → Asks w s (.exporter e) calls s

theorem decodeInto_does (hself : w.heap self = .serde s) (c : DecodeCall) :
    let r := (lib.cmtDecodeMsgpackCreate c.buf c.length c.offset w.mem).1
    w.Does self [.decode c.buf c.length c.offset r.ret r.cmt]
      (.serde (if r.ret = 0 then ⟨r.cmt, r.offset⟩ else s)) (stateOf ((decodeInto self c).run w)) := by
  intro r
  rw [run_decodeInto]
  by_cases h : r.ret = 0
  · simp only [if_pos h, r] at h ⊢
    exact ⟨rfl, rfl, rfl⟩
  · simp only [if_neg h, r] at h ⊢
    exact .of_heap_eq hself rfl rfl rfl

theorem fromMsgpack_does (hself : w.heap self = .serde s) (argv : List Value) :
    (∃ e, msgpackCall lib.rbUint2big argv s.unpackMsgpackOffset = .error e ∧
      (fromMsgpack argv self).run w = .error e w) ∨
    ∃ c, msgpackCall lib.rbUint2big argv s.unpackMsgpackOffset = .ok c ∧
      stateOf ((fromMsgpack argv self).run w) = stateOf ((decodeInto self c).run w) := by
  rw [run_fromMsgpack hself]
  cases hc : msgpackCall lib.rbUint2big argv s.unpackMsgpackOffset with
  | error e => exact .inl ⟨e, rfl, by simp⟩
  | ok c =>
    refine .inr ⟨c, rfl, ?_⟩
    simp only [liftM_ok, pure_bind, EStateM.run_bind, EStateM.run_pure]
    cases (decodeInto self c).run w <;> rfl

theorem run_ensureInst_some {ctx : lib.Ctx} (h : s.inst = some ctx) :
    (ensureInst self s : M lib E _).run w = .ok s.inst w := by
  simp [ensureInst, h]

theorem run_ensureInst_none (h : s.inst = none) : (ensureInst self s : M lib E _).run w =
    let r := lib.cmtCreate w.mem
    .ok r.1 ((w.called (.create r.1) r.2).put self (.serde { s with inst := r.1 })) := by
  simp [ensureInst, h]

/-- What the part of `concat` behind the check of the context does: it raises before it calls
anything, or it calls `cmt_cat` once. -/
def CatCases (inst : Option lib.Ctx) (w : World lib E)
    (r : EStateM.Result Exit (World lib E) Unit) : Prop :=
  (∃ e, r = .error e w) ∨ ∃ id k src, w.heap id = .metric k src ∧ src.metric ≠ none ∧
    r = .ok () (w.called (.cat inst src.inst (lib.cmtCat inst src.inst w.mem).1)
      (lib.cmtCat inst src.inst w.mem).2)

theorem concatFrom_cases (k : Kind) (inst : Option lib.Ctx) (v : Value) (w : World lib E) :
    CatCases inst w ((concatFrom k inst v).run w) := by
  cases v with
  | object id =>
    by_cases h : ∃ src, w.heap id = .metric k src
    · obtain ⟨src, hsrc⟩ := h
      cases hm : src.metric with
      | none =>
        left
        simp [concatFrom, Metric.getPtr, run_metricStruct hsrc, Metric.checkCreated, hm, rbRaise]
      | some m =>
        refine .inr ⟨id, k, src, hsrc, by simp [hm], ?_⟩
        simp [concatFrom, Metric.getPtr, run_metricStruct hsrc, Metric.checkCreated, hm]
    · left
      simp [concatFrom, Metric.getPtr, run_metricStruct_of_not (not_exists.1 h)]
  | _ => exact .inl ⟨_, rfl⟩

theorem concatByClass_cases (inst : Option lib.Ctx) (v : Value) (w : World lib E) :
    CatCases inst w ((concatByClass inst v).run w) := by
  simp only [concatByClass, EStateM.run_bind, run_rbObjIsKindOf]
  split
  · exact concatFrom_cases .counter inst v w
  · simp only [EStateM.run_bind, run_rbObjIsKindOf]
    split
    · exact concatFrom_cases .gauge inst v w
    · simp only [EStateM.run_bind, run_rbObjIsKindOf]
      split
      · exact concatFrom_cases .untyped inst v w
      · exact .inl ⟨_, rfl⟩

theorem run_concatMetric {v : Value} {inst : Option lib.Ctx} (hself : w.heap self = .serde s)
    (hnil : v.isNil = false) (hinst : (ensureInst self s : M lib E _).run w = .ok inst w') :
    (concatMetric v self).run w = (do concatByClass inst v; return .nil : M lib E Value).run w' := by
  simp [concatMetric, run_serdeStruct hself, hnil, hinst]

theorem concatMetric_does (hself : w.heap self = .serde s) (v : Value) :
    stateOf ((concatMetric v self).run w) = w ∨ ∃ calls s', Asks w s (.concat v) calls s' ∧
      w.Does self calls (.serde s') (stateOf ((concatMetric v self).run w)) := by
  cases hnil : v.isNil with
  | true => left; simp [concatMetric, run_serdeStruct hself, hnil, rbRaise]
  | false =>
    cases hinst : s.inst with
    | some ctx =>
      have hrun := run_concatMetric hself hnil (run_ensureInst_some hinst)
      rcases concatByClass_cases s.inst v w with ⟨e, he⟩ | ⟨id, k, src, hsrc, hm, hr⟩
      · left
        simp [hrun, he]
      · right
        have hne : s.inst ≠ none := by simp [hinst]
        rw [hrun, EStateM.run_bind, hr]
        exact ⟨_, _, .appended v id k src _ hne hsrc hm, .of_heap_eq hself rfl rfl rfl⟩
    | none =>
      have hrun := run_concatMetric hself hnil (run_ensureInst_none hinst)
      right
      rcases concatByClass_cases (lib.cmtCreate w.mem).1 v
        ((w.called (.create (lib.cmtCreate w.mem).1) (lib.cmtCreate w.mem).2).put self
          (.serde { s with inst := (lib.cmtCreate w.mem).1 })) with
        ⟨e, he⟩ | ⟨id, k, src, hsrc, hm, hr⟩
      · rw [hrun, EStateM.run_bind, he]
        exact ⟨_, _, .created v hinst, rfl, rfl, rfl⟩
      · have hne := ne_of_metric_serde hsrc (World.put_heap_self ..)
        rw [World.put_heap_of_ne _ _ _ hne, World.called_heap] at hsrc
        rw [hrun, EStateM.run_bind, hr]
        exact ⟨_, _, .appendedNew v id k src
          (lib.cmtCat (lib.cmtCreate w.mem).1 src.inst (lib.cmtCreate w.mem).2).1 hinst hsrc hm,
          rfl, List.append_assoc _ _ _, rfl⟩

theorem runExporter_does (hself : w.heap self = .serde s) (e : Exporter) :
    stateOf ((Serde.runExporter self e).run w) = w ∨ ∃ calls, s.inst ≠ none ∧ ExportCalls s.inst calls ∧
      w.Does self calls (.serde s) (stateOf ((Serde.runExporter self e).run w)) := by
  cases hinst : s.inst with
  | none =>
    have hctx := run_checkContext_none hself hinst
    left
    cases e <;> simp [Serde.runExporter, prometheusRemoteWrite, toPrometheus, toInflux, toText, toMsgpack, hctx]
  | some ctx =>
    have hctx := run_checkContext hself hinst
    right
    cases e with
    | prometheusRemoteWrite =>
      obtain ⟨calls, hcalls, hdoes⟩ := exportSds_does (some ctx) .remoteWrite hself
      exact ⟨calls, nofun, hcalls, by simpa [Serde.runExporter, prometheusRemoteWrite, hctx] using hdoes⟩
    | toPrometheus =>
      obtain ⟨calls, hcalls, hdoes⟩ := exportSds_does (some ctx) .prometheus hself
      exact ⟨calls, nofun, hcalls, by simpa [Serde.runExporter, toPrometheus, hctx] using hdoes⟩
    | toInflux =>
      obtain ⟨calls, hcalls, hdoes⟩ := exportSds_does (some ctx) .influx hself
      exact ⟨calls, nofun, hcalls, by simpa [Serde.runExporter, toInflux, hctx] using hdoes⟩
    | toText =>
      obtain ⟨calls, hcalls, hdoes⟩ := exportText_does (some ctx) hself
      exact ⟨calls, nofun, hcalls, by simpa [Serde.runExporter, toText, hctx] using hdoes⟩
    | toMsgpack =>
      obtain ⟨calls, hcalls, hdoes⟩ := exportMsgpack_does (some ctx) hself
      exact ⟨calls, nofun, hcalls, by simpa [Serde.runExporter, toMsgpack, hctx] using hdoes⟩

theorem getMetrics_does (hself : w.heap self = .serde s) :
    stateOf ((getMetrics self).run w) = w := by
  cases hinst : s.inst with
  | none => simp [getMetrics, run_checkContext_none hself hinst]
  | some ctx =>
    simp only [getMetrics, EStateM.run_bind, run_checkContext hself hinst]
    cases h : formatContext lib.seconds (lib.cmt w.mem ctx) <;> simp [EStateM.run, h] <;> rfl

theorem send_does (hself : w.heap self = .serde s) (m : SerdeMethod) :
    stateOf ((send self m).run w) = w ∨ ∃ calls s', Asks w s m calls s' ∧
      w.Does self calls (.serde s') (stateOf ((send self m).run w)) := by
  cases m with
  | init =>
    right
    rw [send, run_rbInit hself]
    exact ⟨_, _, .init, rfl, rfl, rfl⟩
  | concat v => exact concatMetric_does hself v
  | fromMsgpack argv =>
    rcases fromMsgpack_does hself argv with ⟨e, -, hr⟩ | ⟨c, -, hr⟩
    · left; rw [send, hr, stateOf_error]
    · right
      have hdoes := decodeInto_does hself c
      rw [send, hr]
      by_cases h : (lib.cmtDecodeMsgpackCreate c.buf c.length c.offset w.mem).1.ret = 0
      · simp only [h, if_true] at hdoes
        exact ⟨_, _, .decoded argv c _ _, hdoes⟩
      · simp only [h, if_false] at hdoes
        exact ⟨_, _, .undecoded argv c _ _ h, hdoes⟩
  | exporter e =>
    rcases runExporter_does hself e with h | ⟨calls, hinst, hcalls, hdoes⟩
    · exact .inl h
    · exact .inr ⟨calls, s, .exported e calls hinst hcalls, hdoes⟩
  | getMetrics => exact .inl (getMetrics_does hself)

theorem send_of_not (h : ∀ s, w.heap self ≠ .serde s) (m : SerdeMethod) :
    stateOf ((send self m).run w) = w := by
  have hs := run_serdeStruct_of_not h
  cases m with
  | init => simp [send, rbInit, hs]
  | concat v => simp [send, concatMetric, hs]
  | fromMsgpack argv => simp [send, fromMsgpack, hs]
  | exporter e =>
    cases e <;> simp [send, Serde.runExporter, prometheusRemoteWrite, toPrometheus, toInflux, toText,
      toMsgpack, checkContext, hs]
  | getMetrics => simp [send, getMetrics, checkContext, hs]

end Serde
end CmetricsRuby
