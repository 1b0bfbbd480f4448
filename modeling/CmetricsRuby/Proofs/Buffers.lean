import CmetricsRuby.System
import CmetricsRuby.Reference
import CmetricsRuby.Base.Account

/-!
# Who releases a buffer

An exporter should release the buffer its encoder hands out before it returns. The exporters that get a
string from the encoder do so, and where the encoder fails there is nothing to release. `to_msgpack`
copies its buffer and keeps it, so each of its calls that succeeds leaves one buffer behind.
-/

namespace CmetricsRuby

variable {lib : Library} {E : Type} {w : World lib E} {id : ObjId} {k : Kind}

/-- The ledger of encoder buffers; a failing encoder hands out none. -/
def bufAccount (lib : Library) : Account (LibCall lib) lib.Buf where
  gains
    | .encode _ _ (some p) => {p}
    | .encodeMsgpack _ ret p => if ret = 0 then {p} else 0
    | _ => 0
  drops
    | .encodeDestroy _ (some p) => {p}
    | _ => 0

/-- Every buffer handed out has been released exactly once. -/
def Settled (w : World lib E) : Prop := (bufAccount lib).Held w.log 0

/-- The action is a `to_msgpack` whose encoder succeeds. -/
def KeepsBuffer : Act E → World lib E → Prop
  | .metric k id .toMsgpack, w => ∃ s, w.heap id = .metric k s ∧
      (lib.cmtEncodeMsgpackCreate s.inst w.mem).1.1 = 0
  | .serde id (.exporter .toMsgpack), w => ∃ s, w.heap id = .serde s ∧ s.inst ≠ none ∧
      (lib.cmtEncodeMsgpackCreate s.inst w.mem).1.1 = 0
  | _, _ => False

/-! ### Calls that leave the ledger alone -/

def Idle (calls : List (LibCall lib)) : Prop :=
  (bufAccount lib).obtained calls = 0 ∧ (bufAccount lib).released calls = 0

theorem settled_of_idle {calls : List (LibCall lib)} {o : Obj lib} {w' : World lib E} (hw : Settled w)
    (hdoes : w.Does id calls o w') (hidle : Idle calls) : Settled w' := by
  unfold Settled
  rw [hdoes.log, hw.append_iff, hidle.1, hidle.2]

theorem settled_exported (hw : Settled w) (e : SdsEncoder) (inst : Option lib.Ctx) :
    Settled (w.exported e inst) := by
  unfold World.exported
  cases h : (lib.cmtEncode e inst w.mem).1 with
  | none =>
    simp only [h, Settled, World.called_log]
    rw [hw.append_iff]
    simp [bufAccount]
  | some x =>
    simp only [h, Settled, World.called_log, List.append_assoc]
    rw [hw.append_iff]
    simp [bufAccount]

theorem settled_exportMsgpack (hw : Settled w) (inst : Option lib.Ctx) :
    Settled (stateOf ((exportMsgpack inst : M lib E Value).run w)) ↔
      (lib.cmtEncodeMsgpackCreate inst w.mem).1.1 ≠ 0 := by
  rw [run_exportMsgpack, stateOf_ok, Settled, World.called_log, hw.append_iff]
  by_cases h : (lib.cmtEncodeMsgpackCreate inst w.mem).1.1 = 0
  · simp [bufAccount, h]
  · simp [bufAccount, h]

/-! ### The metric classes -/

namespace Metric

variable {s s' : CMetricsMetric lib} {r : Request} {m : MetricMethod} {calls : List (LibCall lib)}

def Exports : Request → Prop
  | .encode _ | .text | .msgpack => True
  | _ => False

theorem idle_asks (h : Asks k s r calls s') (hr : ¬ Exports r) : Idle calls := by
  cases h with
  | encode => exact absurd trivial hr
  | text => exact absurd trivial hr
  | msgpack => exact absurd trivial hr
  | _ => exact ⟨rfl, rfl⟩

theorem settled_perform (hw : Settled w) (hself : w.heap id = .metric k s) (hr : r ≠ .msgpack) :
    Settled (stateOf ((perform k s id r : M lib E Value).run w)) := by
  cases r with
  | encode e =>
    show Settled (stateOf ((exportSds e s.inst : M lib E Value).run w))
    rw [stateOf_exportSds]
    exact settled_exported hw e s.inst
  | text =>
    show Settled (stateOf ((exportText s.inst : M lib E Value).run w))
    rw [stateOf_exportText]
    exact settled_exported hw .text s.inst
  | msgpack => exact absurd rfl hr
  | _ =>
    obtain ⟨calls, s', hasks, hdoes⟩ := perform_does hself _
    exact settled_of_idle hw hdoes (idle_asks hasks fun h => h)

theorem settled_send (hw : Settled w) (k : Kind) (id : ObjId) (hm : m ≠ .toMsgpack) :
    Settled (stateOf ((send k id m).run w)) := by
  by_cases hself : ∃ s, w.heap id = .metric k s
  · obtain ⟨s, hself⟩ := hself
    cases hp : plan k s m with
    | error e =>
      rw [run_send_error hself hp]
      exact hw
    | ok r =>
      rw [run_send_ok hself hp]
      refine settled_perform hw hself ?_
      rintro rfl
      cases plan_cases hp
      exact hm rfl
  · rw [send_of_not (not_exists.1 hself)]
    exact hw

theorem settled_toMsgpack (hw : Settled w) (k : Kind) (id : ObjId) :
    Settled (stateOf ((send k id .toMsgpack).run w)) ↔ ¬ KeepsBuffer (.metric k id .toMsgpack) w := by
  by_cases hself : ∃ s, w.heap id = .metric k s
  · obtain ⟨s, hself⟩ := hself
    have hp : plan k s .toMsgpack = .ok .msgpack := by cases k <;> rfl
    have hiff : Settled (stateOf ((send k id .toMsgpack).run w)) ↔
        (lib.cmtEncodeMsgpackCreate s.inst w.mem).1.1 ≠ 0 := by
      rw [run_send_ok hself hp]
      exact settled_exportMsgpack hw s.inst
    rw [hiff]
    constructor
    · rintro hret ⟨s', hs', hret'⟩
      obtain rfl := metric_inj hself hs'
      exact hret hret'
    · exact fun h hret => h ⟨s, hself, hret⟩
  · rw [send_of_not (not_exists.1 hself)]
    refine iff_of_true hw ?_
    rintro ⟨s, hs, -⟩
    exact hself ⟨s, hs⟩

theorem not_keepsBuffer (hm : m ≠ .toMsgpack) : ¬ KeepsBuffer (.metric k id m) w := by
  cases m with
  | toMsgpack => exact absurd rfl hm
  | _ => exact fun h => h

end Metric

/-! ### `Serde` -/

namespace Serde

variable {s s' : CMetricsSerde lib} {m : SerdeMethod} {e : Exporter} {calls : List (LibCall lib)}

theorem idle_asks (h : Asks w s m calls s') (hm : ∀ e, m ≠ .exporter e) : Idle calls := by
  cases h with
  | exported e => exact absurd rfl (hm e)
  | _ => exact ⟨rfl, rfl⟩

theorem settled_send (hw : Settled w) (id : ObjId) (hm : ∀ e, m ≠ .exporter e) :
    Settled (stateOf ((send id m).run w)) := by
  by_cases hself : ∃ s, w.heap id = .serde s
  · obtain ⟨s, hself⟩ := hself
    rcases send_does hself m with hr | ⟨calls, s', hasks, hdoes⟩
    · rw [hr]
      exact hw
    · exact settled_of_idle hw hdoes (idle_asks hasks hm)
  · rw [send_of_not (not_exists.1 hself)]
    exact hw

theorem settled_runExporter (hw : Settled w) {ctx : lib.Ctx} (hself : w.heap id = .serde s)
    (hinst : s.inst = some ctx) (he : e ≠ .toMsgpack) :
    Settled (stateOf ((Serde.runExporter id e).run w)) := by
  have hctx := run_checkContext hself hinst
  cases e with
  | toMsgpack => exact absurd rfl he
  | prometheusRemoteWrite =>
    simp only [Serde.runExporter, prometheusRemoteWrite, EStateM.run_bind, hctx, stateOf_exportSds]
    exact settled_exported hw .remoteWrite (some ctx)
  | toPrometheus =>
    simp only [Serde.runExporter, toPrometheus, EStateM.run_bind, hctx, stateOf_exportSds]
    exact settled_exported hw .prometheus (some ctx)
  | toInflux =>
    simp only [Serde.runExporter, toInflux, EStateM.run_bind, hctx, stateOf_exportSds]
    exact settled_exported hw .influx (some ctx)
  | toText =>
    simp only [Serde.runExporter, toText, EStateM.run_bind, hctx, stateOf_exportText]
    exact settled_exported hw .text (some ctx)

theorem settled_exporter (hw : Settled w) (id : ObjId) (e : Exporter) :
    Settled (stateOf ((Serde.runExporter id e).run w)) ↔ ¬ KeepsBuffer (.serde id (.exporter e)) w := by
  by_cases hself : ∃ s, w.heap id = .serde s ∧ s.inst ≠ none
  · obtain ⟨s, hself, hne⟩ := hself
    obtain ⟨ctx, hinst⟩ := Option.ne_none_iff_exists'.1 hne
    by_cases he : e = .toMsgpack
    · subst he
      have hiff : Settled (stateOf ((Serde.runExporter id .toMsgpack).run w)) ↔
          (lib.cmtEncodeMsgpackCreate s.inst w.mem).1.1 ≠ 0 := by
        rw [hinst, ← settled_exportMsgpack hw]
        simp only [Serde.runExporter, toMsgpack, EStateM.run_bind, run_checkContext hself hinst]
      rw [hiff]
      constructor
      · rintro hret ⟨s', hs', -, hret'⟩
        obtain rfl := serde_inj hself hs'
        exact hret hret'
      · exact fun h hret => h ⟨s, hself, hne, hret⟩
    · refine iff_of_true (settled_runExporter hw hself hinst he) ?_
      cases e with
      | toMsgpack => exact absurd rfl he
      | _ => exact fun h => h
  · have hsame : stateOf ((Serde.runExporter id e).run w) = w := by
      by_cases hserde : ∃ s, w.heap id = .serde s
      · obtain ⟨s, hs⟩ := hserde
        rcases runExporter_does hs e with h | ⟨calls, hne, -⟩
        · exact h
        · exact absurd ⟨s, hs, hne⟩ hself
      · exact send_of_not (not_exists.1 hserde) (.exporter e)
    rw [hsame]
    refine iff_of_true hw ?_
    cases e with
    | toMsgpack =>
      rintro ⟨s, hs, hne, -⟩
      exact hself ⟨s, hs, hne⟩
    | _ => exact fun h => h

end Serde

/-! ### Whole runs -/

theorem settled_step (hw : Settled w) (a : Act E) : Settled (step a w) ↔ ¬ KeepsBuffer a w := by
  cases a with
  | alloc id c =>
    refine iff_of_true ?_ fun h => h
    rcases step_alloc (w := w) id c with ⟨-, hstep⟩ | hstep
    · rw [hstep]
      exact hw
    · rw [hstep]
      exact hw
  | metric k id m =>
    by_cases hm : m = .toMsgpack
    · subst hm
      exact Metric.settled_toMsgpack hw k id
    · exact iff_of_true (Metric.settled_send hw k id hm) (Metric.not_keepsBuffer hm)
  | serde id m =>
    cases m with
    | exporter e => exact Serde.settled_exporter hw id e
    | _ => exact iff_of_true (Serde.settled_send hw id (by simp)) fun h => h
  | feedTurn id c =>
    refine iff_of_true ?_ fun h => h
    by_cases hself : ∃ s, w.heap id = .serde s
    · obtain ⟨s, hself⟩ := hself
      rw [step_feedTurn hself]
      exact settled_of_idle hw (Serde.decodeInto_does hself c) ⟨rfl, rfl⟩
    · rw [step_feedTurn_of_not (not_exists.1 hself)]
      exact hw
  | ruby env => exact iff_of_true hw fun h => h

/-- Along a run, whatever objects it uses, no buffer outlives the call that asked for it exactly when no
`to_msgpack` of the run gets one. -/
theorem always_settled_iff (hw : Settled w) (as : List (Act E)) :
    Machine.Always step Settled as w ↔ Machine.Along step (fun a w => ¬ KeepsBuffer a w) as w :=
  Machine.always_iff_along (J := fun _ => True) hw trivial (fun a _ _ h _ => settled_step h a)
    fun _ _ _ _ _ _ => trivial

open Reference (newMetric)

/-- The text exporters of a gauge, and an exporter of a Serde that is not there. -/
theorem always_settled_gauge : Machine.Always step Settled
    [.metric .gauge 0 .toText, .metric .gauge 0 .toInflux, .serde 1 (.exporter .toMsgpack)]
    (newMetric .gauge [0x61]) := by
  have hw : Settled (newMetric .gauge [0x61]) := rfl
  refine (always_settled_iff hw _).2 ⟨fun h => h, fun h => h, ?_, trivial⟩
  rintro ⟨s, hs, -⟩
  cases hs

/-- `to_msgpack` leaves its buffer behind. -/
theorem toMsgpack_keeps_buffer : ¬ Machine.Always step Settled [.metric .counter 0 .toMsgpack]
    (newMetric .counter [0x61]) := by
  intro h
  have hstep := settled_step h.head (.metric .counter 0 .toMsgpack)
  exact hstep.1 h.2.head ⟨_, rfl, rfl⟩

end CmetricsRuby
