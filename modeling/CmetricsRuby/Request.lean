import CmetricsRuby.Metric

/-!
# What a metric method asks of the library

A method of the metric classes checks its arguments, which changes nothing, and then does one thing
with the library. `Metric.plan` is the first half, and its answer, a `Request`, says all that the
second half, `Metric.perform`, depends on. `Metric.run_send` splits every method in this way.
-/

namespace CmetricsRuby

variable {lib : Library} {E α : Type}

def labelArgs : Value → Except Exit (Int × List CStr)
  | .nil => .ok (0, [])
  | .string b => .ok (1, [CStr.ofPtr b])
  | .symbol b => .ok (1, [CStr.ofPtr b])
  | .array items => do
    allocvN (toCInt items.length)
    let labels ← fillLabels (items.take (toCInt items.length).toNat)
    return (toCInt items.length, labels)
  | _ => rbRaise .argError "labels should be String, Symbol or Array class instance."

inductive Request
  | init
  | create (d : MetricDef)
  | update (u : Update) (labelsCount : Int) (labels : List CStr)
  | getVal (labelsCount : Int) (labels : List CStr)
  | addLabel (key val : CStr)
  | encode (e : SdsEncoder)
  | text
  | msgpack
deriving DecidableEq

namespace Metric

variable (k : Kind) (s : CMetricsMetric lib)

def planCreate (argv : List Value) : Except Exit Request := do
  let arg ← rbScanArgs 4 1 argv
  let ns ← checkTypeString (arg 0)
  let subsystem ← checkTypeString (arg 1)
  let name ← checkTypeString (arg 2)
  let help ← checkTypeString (arg 3)
  let l ← labelArgs (arg 4)
  return .create ⟨CStr.ofPtr ns, CStr.ofPtr subsystem, CStr.ofPtr name, CStr.ofPtr help, l.1, l.2⟩

def planUpdate (u : Update) (argv : List Value) : Except Exit Request := do
  checkCreated k s
  let arg ← rbScanArgs 0 1 argv
  let l ← labelArgs (arg 0)
  return .update u l.1 l.2

def planUpdateNum (method : String) (u : Double → Update) (argv : List Value) :
    Except Exit Request := do
  checkCreated k s
  let arg ← rbScanArgs 1 1 argv
  let value ← numericArg lib.rbNum2dbl method (arg 0)
  let l ← labelArgs (arg 1)
  return .update (u value) l.1 l.2

def planGetValue (argv : List Value) : Except Exit Request := do
  checkCreated k s
  let arg ← rbScanArgs 0 1 argv
  let l ← labelArgs (arg 0)
  return .getVal l.1 l.2

def planAddLabel (rbKey rbValue : Value) : Except Exit Request := do
  checkCreated k s
  let key ← strOrSym "key should be String or Symbol class instance." rbKey
  let value ← strOrSym "value should be String or Symbol class instance." rbValue
  return .addLabel key value

def plan : Kind → CMetricsMetric lib → MetricMethod → Except Exit Request
  | _, _, .init => .ok .init
  | _, _, .create argv => planCreate argv
  | .counter, s, .increment argv => planUpdate .counter s .counterInc argv
  | .gauge, s, .increment argv => planUpdate .gauge s .gaugeInc argv
  | .gauge, s, .decrement argv => planUpdate .gauge s .gaugeDec argv
  | k, s, .getValue argv => planGetValue k s argv
  | .counter, s, .add argv => planUpdateNum .counter s "CMetrics::Counter#add" .counterAdd argv
  | .gauge, s, .add argv => planUpdateNum .gauge s "CMetrics::Gauge#add" .gaugeAdd argv
  | .gauge, s, .sub argv => planUpdateNum .gauge s "CMetrics::Gauge#add" .gaugeSub argv
  | .counter, s, .set argv => planUpdateNum .counter s "CMetrics::Counter#set" .counterSet argv
  | .gauge, s, .set argv => planUpdateNum .gauge s "CMetrics::Gauge#set" .gaugeSet argv
  | .untyped, s, .set argv => planUpdateNum .untyped s "CMetrics::Untyped#set" .untypedSet argv
  | k, s, .addLabel key value => planAddLabel k s key value
  | _, _, .toPrometheus => .ok (.encode .prometheus)
  | _, _, .toInflux => .ok (.encode .influx)
  | _, _, .toMsgpack => .ok .msgpack
  | _, _, .toText => .ok .text
  | _, _, _ => rbRaise .noMethodError "undefined method"

def perform (self : ObjId) : Request → M lib E Value
  | .init => do
    cmtInitialize
    let inst ← cmtCreate
    putObj self (.metric k ⟨inst, none⟩)
    return .nil
  | .create d => do
    let metric ← cmtMetricCreate k s.inst d
    putObj self (.metric k { s with metric := metric })
    return .nil
  | .update u labelsCount labels => do
    let ts ← cflTimeNow
    let ret ← cmtUpdate u s.metric ts labelsCount labels
    return retBool ret
  | .getVal labelsCount labels => do
    let r ← cmtGetVal k s.metric labelsCount labels
    return if r.1 = 0 then .float r.2 else .nil
  | .addLabel key val => do
    let ret ← cmtLabelAdd s.inst key val
    return retBool ret
  | .encode e => exportSds e s.inst
  | .text => exportText s.inst
  | .msgpack => exportMsgpack s.inst

end Metric

/-! ### What a plan says -/

theorem fillLabels_length {items : List Value} {L : List CStr} (h : fillLabels items = .ok L) :
    L.length = items.length := by
  induction items generalizing L with
  | nil => cases h; rfl
  | cons item items ih =>
    obtain ⟨label, -, h⟩ := bind_eq_ok.1 h
    obtain ⟨labels, hlabels, h⟩ := bind_eq_ok.1 h
    cases h
    exact congrArg (· + 1) (ih hlabels)

theorem le_of_allocvN {n : Int} {u : Unit} (h : allocvN n = .ok u) : 0 ≤ n := by
  unfold allocvN at h
  split at h
  · cases h
  · omega

theorem labelArgs_length {v : Value} {n : Int} {L : List CStr} (h : labelArgs v = .ok (n, L)) :
    n = L.length := by
  cases v with
  | nil => cases h; rfl
  | string b => cases h; rfl
  | symbol b => cases h; rfl
  | array items =>
    obtain ⟨_, halloc, h⟩ := bind_eq_ok.1 h
    obtain ⟨labels, hlabels, h⟩ := bind_eq_ok.1 h
    cases h
    have hnonneg := le_of_allocvN halloc
    have hle := toCInt_le items.length
    rw [fillLabels_length hlabels, List.length_take]
    omega
  | _ => cases h

def MetricMethod.labelArg : MetricMethod → Option Value
  | .increment argv | .decrement argv => some (argv.getD 0 .nil)
  | .add argv | .sub argv | .set argv => some (argv.getD 1 .nil)
  | _ => none

namespace Metric

variable {k : Kind} {s : CMetricsMetric lib} {r : Request} {argv : List Value}

theorem metric_of_checkCreated {u : Unit} (h : checkCreated k s = .ok u) : s.metric ≠ none := by
  intro hnone
  unfold checkCreated at h
  rw [hnone] at h
  cases h

theorem checkCreated_of_ne (h : s.metric ≠ none) : checkCreated k s = .ok () := by
  unfold checkCreated
  cases hm : s.metric with
  | none => exact absurd hm h
  | some m => rfl

theorem arg_of_rbScanArgs {req opt : Nat} {arg : Nat → Value} (h : rbScanArgs req opt argv = .ok arg) :
    arg = fun i => argv.getD i .nil := by
  unfold rbScanArgs at h
  split at h
  · cases h; rfl
  · cases h

theorem planCreate_ok (h : planCreate argv = .ok r) : ∃ d, r = .create d := by
  obtain ⟨arg, -, h⟩ := bind_eq_ok.1 h
  obtain ⟨ns, -, h⟩ := bind_eq_ok.1 h
  obtain ⟨subsystem, -, h⟩ := bind_eq_ok.1 h
  obtain ⟨name, -, h⟩ := bind_eq_ok.1 h
  obtain ⟨help, -, h⟩ := bind_eq_ok.1 h
  obtain ⟨l, -, h⟩ := bind_eq_ok.1 h
  cases h
  exact ⟨_, rfl⟩

theorem planUpdate_ok {u : Update} (h : planUpdate k s u argv = .ok r) : s.metric ≠ none ∧
    ∃ L : List CStr, labelArgs (argv.getD 0 .nil) = .ok (L.length, L) ∧ r = .update u L.length L := by
  obtain ⟨_, hs, h⟩ := bind_eq_ok.1 h
  obtain ⟨arg, harg, h⟩ := bind_eq_ok.1 h
  obtain ⟨⟨n, L⟩, hl, h⟩ := bind_eq_ok.1 h
  rw [arg_of_rbScanArgs harg] at hl
  obtain rfl := labelArgs_length hl
  cases h
  exact ⟨metric_of_checkCreated hs, L, hl, rfl⟩

theorem planUpdateNum_ok {method : String} {u : Double → Update}
    (h : planUpdateNum k s method u argv = .ok r) : s.metric ≠ none ∧ ∃ (v : Double) (L : List CStr),
      labelArgs (argv.getD 1 .nil) = .ok (L.length, L) ∧ r = .update (u v) L.length L := by
  obtain ⟨_, hs, h⟩ := bind_eq_ok.1 h
  obtain ⟨arg, harg, h⟩ := bind_eq_ok.1 h
  obtain ⟨v, -, h⟩ := bind_eq_ok.1 h
  obtain ⟨⟨n, L⟩, hl, h⟩ := bind_eq_ok.1 h
  rw [arg_of_rbScanArgs harg] at hl
  obtain rfl := labelArgs_length hl
  cases h
  exact ⟨metric_of_checkCreated hs, v, L, hl, rfl⟩

theorem planGetValue_ok (h : planGetValue k s argv = .ok r) : s.metric ≠ none ∧
    ∃ L : List CStr, labelArgs (argv.getD 0 .nil) = .ok (L.length, L) ∧ r = .getVal L.length L := by
  obtain ⟨_, hs, h⟩ := bind_eq_ok.1 h
  obtain ⟨arg, harg, h⟩ := bind_eq_ok.1 h
  obtain ⟨⟨n, L⟩, hl, h⟩ := bind_eq_ok.1 h
  rw [arg_of_rbScanArgs harg] at hl
  obtain rfl := labelArgs_length hl
  cases h
  exact ⟨metric_of_checkCreated hs, L, hl, rfl⟩

theorem planAddLabel_ok {key value : Value} (h : planAddLabel k s key value = .ok r) :
    s.metric ≠ none ∧ ∃ kc vc, r = .addLabel kc vc := by
  obtain ⟨_, hs, h⟩ := bind_eq_ok.1 h
  obtain ⟨kc, -, h⟩ := bind_eq_ok.1 h
  obtain ⟨vc, -, h⟩ := bind_eq_ok.1 h
  cases h
  exact ⟨metric_of_checkCreated hs, kc, vc, rfl⟩

/-- The requests a method can come to, and what it has checked by then. -/
inductive Plans (k : Kind) (s : CMetricsMetric lib) : MetricMethod → Request → Prop
  | init : Plans k s .init .init
  | create (argv : List Value) (d) : Plans k s (.create argv) (.create d)
  | update (m u v) (L : List CStr) : s.metric ≠ none → u.kind = k → m.labelArg = some v →
      labelArgs v = .ok (L.length, L) → Plans k s m (.update u L.length L)
  | getVal (argv : List Value) (L : List CStr) : s.metric ≠ none →
      labelArgs (argv.getD 0 .nil) = .ok (L.length, L) → Plans k s (.getValue argv) (.getVal L.length L)
  | addLabel (key value kc vc) : s.metric ≠ none → Plans k s (.addLabel key value) (.addLabel kc vc)
  | toPrometheus : Plans k s .toPrometheus (.encode .prometheus)
  | toInflux : Plans k s .toInflux (.encode .influx)
  | toMsgpack : Plans k s .toMsgpack .msgpack
  | toText : Plans k s .toText .text

theorem plans_of_planUpdate {u : Update} {m : MetricMethod} (hk : u.kind = k)
    (hm : m.labelArg = some (argv.getD 0 .nil)) (h : planUpdate k s u argv = .ok r) :
    Plans k s m r := by
  obtain ⟨hs, L, hl, rfl⟩ := planUpdate_ok h
  exact .update m u _ L hs hk hm hl

theorem plans_of_planUpdateNum {method : String} {u : Double → Update} {m : MetricMethod}
    (hk : ∀ v, (u v).kind = k) (hm : m.labelArg = some (argv.getD 1 .nil))
    (h : planUpdateNum k s method u argv = .ok r) : Plans k s m r := by
  obtain ⟨hs, v, L, hl, rfl⟩ := planUpdateNum_ok h
  exact .update m (u v) _ L hs (hk v) hm hl

theorem plan_cases {m : MetricMethod} (h : plan k s m = .ok r) : Plans k s m r := by
  cases m with
  | init => cases k <;> cases h <;> exact .init
  | create argv =>
    have h : planCreate argv = .ok r := by cases k <;> exact h
    obtain ⟨d, rfl⟩ := planCreate_ok h
    exact .create argv d
  | increment argv =>
    cases k with
    | untyped => cases h
    | _ => exact plans_of_planUpdate rfl rfl h
  | decrement argv =>
    cases k with
    | gauge => exact plans_of_planUpdate rfl rfl h
    | _ => cases h
  | getValue argv =>
    have h : planGetValue k s argv = .ok r := by cases k <;> exact h
    obtain ⟨hs, L, hl, rfl⟩ := planGetValue_ok h
    exact .getVal argv L hs hl
  | add argv =>
    cases k with
    | untyped => cases h
    | _ => exact plans_of_planUpdateNum (fun _ => rfl) rfl h
  | sub argv =>
    cases k with
    | gauge => exact plans_of_planUpdateNum (fun _ => rfl) rfl h
    | _ => cases h
  | set argv => cases k <;> exact plans_of_planUpdateNum (fun _ => rfl) rfl h
  | addLabel key value =>
    have h : planAddLabel k s key value = .ok r := by cases k <;> exact h
    obtain ⟨hs, kc, vc, rfl⟩ := planAddLabel_ok h
    exact .addLabel key value kc vc hs
  | toPrometheus => cases k <;> cases h <;> exact .toPrometheus
  | toInflux => cases k <;> cases h <;> exact .toInflux
  | toMsgpack => cases k <;> cases h <;> exact .toMsgpack
  | toText => cases k <;> cases h <;> exact .toText

end Metric

/-! ### A method is its plan and then its performance -/

theorem withLabels_eq (rbLabels : Value) (call : Int → List CStr → M lib E α) :
    withLabels rbLabels call = (do let l ← liftM (labelArgs rbLabels); call l.1 l.2) := by
  cases rbLabels <;> simp [withLabels, labelArgs, rbRaise]

/-- The time is read before the labels are looked at; as it is only read, the order does not matter. -/
theorem cflTimeNow_check {β : Type} (x : Except Exit α) (f : Nat → α → M lib E β) :
    (do let ts ← cflTimeNow; let a ← liftM x; f ts a) =
      (do let a ← liftM x; let ts ← cflTimeNow; f ts a) := by
  cases x <;> rfl

namespace Metric

variable (k : Kind) (argv : List Value) (self : ObjId)

theorem create_eq : (create k argv self : M lib E Value) = (do
    let s ← metricStruct k self
    let r ← liftM (planCreate argv)
    perform k s self r) := by
  simp [create, planCreate, perform, withLabels_eq]

theorem update_eq (u : Update) : (update k u argv self : M lib E Value) = (do
    let s ← metricStruct k self
    let r ← liftM (planUpdate k s u argv)
    perform k s self r) := by
  simp [update, planUpdate, perform, withLabels_eq, cflTimeNow_check]

theorem updateNum_eq (method : String) (u : Double → Update) :
    (updateNum k method u argv self : M lib E Value) = (do
      let s ← metricStruct k self
      let r ← liftM (planUpdateNum k s method u argv)
      perform k s self r) := by
  simp [updateNum, planUpdateNum, perform, withLabels_eq, cflTimeNow_check]

theorem getValue_eq : (getValue k argv self : M lib E Value) = (do
    let s ← metricStruct k self
    let r ← liftM (planGetValue k s argv)
    perform k s self r) := by
  simp [getValue, planGetValue, perform, withLabels_eq]

theorem addLabel_eq (key value : Value) : (addLabel k key value self : M lib E Value) = (do
    let s ← metricStruct k self
    let r ← liftM (planAddLabel k s key value)
    perform k s self r) := by
  simp [addLabel, planAddLabel, perform]

variable {k self} {s : CMetricsMetric lib} {w : World lib E}

theorem run_send (h : w.heap self = .metric k s) (m : MetricMethod) :
    (send k self m).run w = (do let r ← liftM (plan k s m); perform k s self r : M lib E Value).run w := by
  have hs := run_metricStruct h
  cases k <;> cases m <;>
    simp [send, Counter.send, Gauge.send, Untyped.send, plan, create_eq, update_eq, updateNum_eq,
      getValue_eq, addLabel_eq, rbInit, toPrometheus, toInflux, toMsgpack, toText, noMethod, perform,
      rbRaise, hs]

theorem run_send_error {m : MetricMethod} {e : Exit} (h : w.heap self = .metric k s)
    (hp : plan k s m = .error e) : (send k self m).run w = .error e w := by
  simp [run_send h, hp]

theorem run_send_ok {m : MetricMethod} {r : Request} (h : w.heap self = .metric k s)
    (hp : plan k s m = .ok r) : (send k self m).run w = (perform k s self r).run w := by
  simp [run_send h, hp]

/-! ### What a request does -/

theorem run_perform_create (d : MetricDef) : (perform k s self (.create d) : M lib E Value).run w =
    let r := lib.cmtMetricCreate k s.inst d w.mem
    .ok .nil ((w.called (.metricCreate k s.inst d r.1) r.2).put self (.metric k { s with metric := r.1 })) :=
  rfl

theorem run_perform_update (u : Update) (n : Int) (L : List CStr) :
    (perform k s self (.update u n L) : M lib E Value).run w =
      let ts := lib.cflTimeNow w.mem
      let r := lib.cmtUpdate u s.metric ts n L w.mem
      .ok (retBool r.1) (w.called (.update u s.metric ts n L r.1) r.2) := rfl

theorem run_perform_getVal (n : Int) (L : List CStr) :
    (perform k s self (.getVal n L) : M lib E Value).run w =
      let r := lib.cmtGetVal k s.metric n L w.mem
      .ok (if r.1 = 0 then .float r.2 else .nil) (w.called (.getVal k s.metric n L r.1) w.mem) := rfl

theorem run_perform_addLabel (key val : CStr) :
    (perform k s self (.addLabel key val) : M lib E Value).run w =
      let r := lib.cmtLabelAdd s.inst key val w.mem
      .ok (retBool r.1) (w.called (.labelAdd s.inst key val r.1) r.2) := rfl

theorem retBool_of_eq {ret : Int} (h : ret = 0) : retBool ret = .true := if_pos h

theorem retBool_of_ne {ret : Int} (h : ret ≠ 0) : retBool ret = .false := if_neg h

end Metric
end CmetricsRuby
