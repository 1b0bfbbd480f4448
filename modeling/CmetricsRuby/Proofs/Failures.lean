import CmetricsRuby.System
import CmetricsRuby.Reference

/-!
# Calls that fail

A call on a metric that raises, or whose library call fails, should leave everything as it was. Every
check comes before the library call, and all methods but `create` leave the object alone, so they do.
`create` stores the answer of the library whatever it is: when the library rejects the definition, the
metric that was there before is lost.
-/

namespace CmetricsRuby

/-- What the library holds: its contexts, and what its getters say of each series. -/
def Library.series (lib : Library) (mem : lib.Mem) :
    (lib.Ctx → Cmt) × (Kind → Option lib.Metric → Int → List CStr → Int × Double) :=
  (lib.cmt mem, fun k m n L => lib.cmtGetVal k m n L mem)

/-- A failing call changes nothing in the library. -/
structure Library.FailuresKeep (lib : Library) : Prop where
  metricCreate : ∀ {k : Kind} {cmt : Option lib.Ctx} {d : MetricDef} {mem : lib.Mem},
    (lib.cmtMetricCreate k cmt d mem).1 = none →
    lib.series (lib.cmtMetricCreate k cmt d mem).2 = lib.series mem
  update : ∀ {u : Update} {m : Option lib.Metric} {ts : Nat} {n : Int} {L : List CStr} {mem : lib.Mem},
    (lib.cmtUpdate u m ts n L mem).1 ≠ 0 → lib.series (lib.cmtUpdate u m ts n L mem).2 = lib.series mem
  labelAdd : ∀ {cmt : Option lib.Ctx} {key val : CStr} {mem : lib.Mem},
    (lib.cmtLabelAdd cmt key val mem).1 ≠ 0 →
    lib.series (lib.cmtLabelAdd cmt key val mem).2 = lib.series mem

variable {lib : Library} {E : Type} {k : Kind} {id : ObjId} {m : MetricMethod} {w : World lib E}
  {s : CMetricsMetric lib}

def LibCall.Failed : LibCall lib → Prop
  | .metricCreate _ _ _ ret => ret = none
  | .update _ _ _ _ _ ret => ret ≠ 0
  | .labelAdd _ _ _ ret => ret ≠ 0
  | _ => False

def MetricMethod.Changes : MetricMethod → Prop
  | .create _ | .increment _ | .decrement _ | .add _ | .sub _ | .set _ | .addLabel _ _ => True
  | _ => False

namespace Metric

def Fails (k : Kind) (id : ObjId) (m : MetricMethod) (w : World lib E) : Prop :=
  (∃ e w', (send k id m).run w = .error e w') ∨
    ∃ calls, (stateOf ((send k id m).run w)).log = w.log ++ calls ∧ ∃ c ∈ calls, c.Failed

/-- If the call fails, the objects and the series are as before. -/
def FailsClean (k : Kind) (id : ObjId) (m : MetricMethod) (w : World lib E) : Prop :=
  Fails k id m w → let w' := stateOf ((send k id m).run w)
    w'.heap = w.heap ∧ lib.series w'.mem = lib.series w.mem

/-- `create` with arguments it accepts and a definition the library rejects, on an object that has a
metric. -/
def LosesMetric (k : Kind) (id : ObjId) (m : MetricMethod) (w : World lib E) : Prop :=
  ∃ s d, w.heap id = .metric k s ∧ s.metric ≠ none ∧ plan k s m = .ok (.create d) ∧
    (lib.cmtMetricCreate k s.inst d w.mem).1 = none

theorem fails_iff {v : Value} {w' : World lib E} {c : LibCall lib} (hrun : (send k id m).run w = .ok v w')
    (hlog : w'.log = w.log ++ [c]) : Fails k id m w ↔ c.Failed := by
  unfold Fails
  rw [hrun, stateOf_ok, hlog]
  constructor
  · rintro (⟨e, w'', h⟩ | ⟨calls, hcalls, c', hc', hfailed⟩)
    · cases h
    · rw [← List.append_cancel_left hcalls] at hc'
      rwa [List.mem_singleton.1 hc'] at hfailed
  · intro h
    exact .inr ⟨[c], rfl, c, List.mem_singleton_self c, h⟩

theorem losesMetric_iff {r : Request} (hself : w.heap id = .metric k s) (hp : plan k s m = .ok r) :
    LosesMetric k id m w ↔ s.metric ≠ none ∧ ∃ d, r = .create d ∧
      (lib.cmtMetricCreate k s.inst d w.mem).1 = none := by
  constructor
  · rintro ⟨s', d, hs', hc, hp', hret⟩
    obtain rfl := metric_inj hself hs'
    exact ⟨hc, d, Except.ok.inj (hp.symm.trans hp'), hret⟩
  · rintro ⟨hc, d, rfl, hret⟩
    exact ⟨s, d, hself, hc, hp, hret⟩

theorem failsClean_create (hlib : lib.FailuresKeep) {d : MetricDef} (hself : w.heap id = .metric k s)
    (hp : plan k s m = .ok (.create d)) : FailsClean k id m w ↔ ¬ LosesMetric k id m w := by
  have hrun := (run_send_ok (E := E) hself hp).trans (run_perform_create ..)
  have hfails := fails_iff hrun rfl
  rw [losesMetric_iff hself hp]
  constructor
  · rintro h ⟨hc, d', hd, hret⟩
    cases hd
    obtain ⟨hheap, -⟩ := h (hfails.2 hret)
    have hnew : (stateOf ((send k id m).run w)).heap id =
        .metric k ⟨s.inst, (lib.cmtMetricCreate k s.inst d w.mem).1⟩ := by
      rw [hrun]
      exact World.put_heap_self ..
    rw [hheap, hself, hret] at hnew
    injection hnew with _ hs
    exact hc (by rw [hs])
  · intro h hfail
    have hret : (lib.cmtMetricCreate k s.inst d w.mem).1 = none := hfails.1 hfail
    have hnone : s.metric = none := by
      by_contra hc
      exact h ⟨hc, d, rfl, hret⟩
    have hs : ({ s with metric := (lib.cmtMetricCreate k s.inst d w.mem).1 } : CMetricsMetric lib) = s := by
      rw [hret, ← hnone]
    show (stateOf ((send k id m).run w)).heap = w.heap ∧
      lib.series (stateOf ((send k id m).run w)).mem = lib.series w.mem
    rw [hrun]
    refine ⟨?_, hlib.metricCreate hret⟩
    show Function.update w.heap id (.metric k _) = w.heap
    rw [hs, ← hself, Function.update_eq_self]

theorem failsClean_call {v : Value} {c : LibCall lib} {mem : lib.Mem}
    (hrun : (send k id m).run w = .ok v (w.called c mem))
    (hlib : c.Failed → lib.series mem = lib.series w.mem) : FailsClean k id m w := by
  intro hfail
  have hfailed : c.Failed := (fails_iff hrun rfl).1 hfail
  rw [hrun]
  exact ⟨rfl, hlib hfailed⟩

theorem failsClean_iff (hlib : lib.FailuresKeep) (hm : m.Changes) :
    FailsClean k id m w ↔ ¬ LosesMetric k id m w := by
  by_cases hself : ∃ s, w.heap id = .metric k s
  · obtain ⟨s, hself⟩ := hself
    cases hp : plan k s m with
    | error e =>
      refine iff_of_true (fun _ => ?_) ?_
      · rw [run_send_error hself hp]
        exact ⟨rfl, rfl⟩
      · rintro ⟨s', d, hs', -, hp', -⟩
        obtain rfl := metric_inj hself hs'
        cases hp.symm.trans hp'
    | ok r =>
      have hrun := run_send_ok (E := E) hself hp
      cases plan_cases hp with
      | create argv d => exact failsClean_create hlib hself hp
      | update m u v L =>
        refine iff_of_true (failsClean_call (hrun.trans (run_perform_update ..)) hlib.update) ?_
        rw [losesMetric_iff hself hp]
        rintro ⟨-, d, hd, -⟩
        cases hd
      | addLabel key value kc vc =>
        refine iff_of_true (failsClean_call (hrun.trans (run_perform_addLabel ..)) hlib.labelAdd) ?_
        rw [losesMetric_iff hself hp]
        rintro ⟨-, d, hd, -⟩
        cases hd
      | _ => exact hm.elim
  · refine iff_of_true (fun _ => ?_) ?_
    · rw [send_of_not (not_exists.1 hself)]
      exact ⟨rfl, rfl⟩
    · rintro ⟨s, d, hs, -⟩
      exact hself ⟨s, hs⟩

end Metric

/-! ### Whole runs -/

def FailsClean : Act E → World lib E → Prop
  | .metric k id m, w => m.Changes → Metric.FailsClean k id m w
  | _, _ => True

def LosesMetric : Act E → World lib E → Prop
  | .metric k id m, w => Metric.LosesMetric k id m w
  | _, _ => False

theorem create_of_losesMetric (h : Metric.LosesMetric k id m w) : m.Changes := by
  obtain ⟨s, d, -, -, hp, -⟩ := h
  cases Metric.plan_cases hp
  trivial

/-- Along a run of the system, whatever objects it uses, no failing call changes anything exactly when no
`create` along it loses a metric. -/
theorem along_failsClean_iff (hlib : lib.FailuresKeep) (as : List (Act E)) (w : World lib E) :
    Machine.Along step FailsClean as w ↔ Machine.Along step (fun a w => ¬ LosesMetric a w) as w := by
  refine Machine.along_iff_along (I := fun _ => True) trivial (fun a _ w _ => ?_) fun _ _ _ _ _ => trivial
  cases a with
  | metric k id m =>
    constructor
    · intro h hloses
      have hm := create_of_losesMetric hloses
      exact (Metric.failsClean_iff hlib hm).1 (h hm) hloses
    · intro h hm
      exact (Metric.failsClean_iff hlib hm).2 h
  | _ => exact iff_of_true trivial nofun

/-! ### The reference library -/

open Reference (newMetric metric)

theorem failuresKeep (x : Bytes) : (reference x).FailuresKeep where
  metricCreate {k cmt d mem} h := congrArg (reference x).series (Reference.metricCreate_failed h)
  update {u m ts n L mem} h := by
    cases m with
    | none => rfl
    | some m => exact congrArg (reference x).series (Reference.update_failed h)
  labelAdd {cmt key val mem} h := by
    cases cmt with
    | none => rfl
    | some c => exact absurd rfl h

/-- A gauge that is created again, set to something that is not a number, and given more labels than it
is defined with. -/
theorem along_failsClean_gauge : Machine.Along step FailsClean
    [.metric .gauge 0 (.create [.string [], .string [], .string [0x62], .string [0x68]]),
      .metric .gauge 0 (.set [.nil]), .metric .gauge 0 (.increment [.symbol [0x61]])]
    (newMetric .gauge [0x61]) := by
  refine (along_failsClean_iff (failuresKeep []) _ _).2 ⟨?_, ?_, ?_, trivial⟩
  · rintro ⟨s, d, hs, -, hp, hret⟩
    cases hs
    cases hp
    cases hret
  · rintro ⟨s, d, hs, -, hp, -⟩
    cases hs
    cases hp
  · rintro ⟨s, d, hs, -, hp, -⟩
    cases hs
    cases hp

/-- `create` with an empty name, on a counter that has been created. -/
theorem create_loses_metric : ¬ Machine.Along step FailsClean
    [.metric .counter 0 (.create [.string [], .string [], .string [], .string [0x68]])]
    (newMetric .counter [0x61]) := by
  rintro ⟨h, -⟩
  have hself : (newMetric .counter [0x61]).heap 0 = .metric .counter ⟨some (Reference.ctx 0), some metric⟩ :=
    rfl
  have hm : MetricMethod.Changes (.create [.string [], .string [], .string [], .string [0x68]]) := trivial
  exact (Metric.failsClean_iff (failuresKeep []) hm).1 (h hm) ⟨_, _, hself, nofun, rfl, rfl⟩

end CmetricsRuby
