import CmetricsRuby.Reference

/-!
# What the exporters return

An encoder says how many bytes it produced. `to_msgpack` hands over that many; the other exporters
stop at the first NUL, which for a remote write message is in the middle of a sample.
-/

namespace CmetricsRuby
namespace Serde

variable {lib : Library} {E : Type} {self : ObjId} {w : World lib E} {s : CMetricsSerde lib}
  {ctx : lib.Ctx} {e : Exporter} {x y : Bytes}

/-- The bytes the encoder behind an exporter produces from a context, if it produces any. -/
def produced (ctx : lib.Ctx) (mem : lib.Mem) : Exporter → Option Bytes
  | .prometheusRemoteWrite => (lib.cmtEncode .remoteWrite (some ctx) mem).1.map Sds.bytes
  | .toPrometheus => (lib.cmtEncode .prometheus (some ctx) mem).1.map Sds.bytes
  | .toInflux => (lib.cmtEncode .influx (some ctx) mem).1.map Sds.bytes
  | .toText => (lib.cmtEncode .text (some ctx) mem).1.map Sds.bytes
  | .toMsgpack =>
    let r := (lib.cmtEncodeMsgpackCreate (some ctx) mem).1
    if r.1 = 0 then some r.2.bytes else none

def carried (x : Bytes) : Exporter → Bytes
  | .toMsgpack => x
  | _ => (CStr.ofPtr x).bytes

def Returns (w : World lib E) (self : ObjId) (e : Exporter) (x : Bytes) : Prop :=
  ∃ w', (Serde.runExporter self e).run w = .ok (.string x) w'

theorem returns_exportSds {enc : SdsEncoder}
    (h : (lib.cmtEncode enc (some ctx) w.mem).1.map Sds.bytes = some x) :
    ∃ w', (exportSds enc (some ctx) : M lib E Value).run w = .ok (.string (CStr.ofPtr x).bytes) w' := by
  obtain ⟨b, hb, rfl⟩ := Option.map_eq_some_iff.1 h
  rw [run_exportSds]
  simp only [hb]
  exact ⟨_, rfl⟩

theorem returns_exportText (h : (lib.cmtEncode .text (some ctx) w.mem).1.map Sds.bytes = some x) :
    ∃ w', (exportText (some ctx) : M lib E Value).run w = .ok (.string (CStr.ofPtr x).bytes) w' := by
  obtain ⟨b, hb, rfl⟩ := Option.map_eq_some_iff.1 h
  rw [run_exportText]
  simp only [hb]
  exact ⟨_, rfl⟩

theorem returns_iff (hself : w.heap self = .serde s) (hinst : s.inst = some ctx)
    (hx : produced ctx w.mem e = some x) : Returns w self e y ↔ carried x e = y := by
  have hctx := run_checkContext hself hinst
  have h : ∃ w', (Serde.runExporter self e).run w = .ok (.string (carried x e)) w' := by
    cases e with
    | prometheusRemoteWrite =>
      simpa [Serde.runExporter, prometheusRemoteWrite, hctx, carried] using returns_exportSds hx
    | toPrometheus => simpa [Serde.runExporter, toPrometheus, hctx, carried] using returns_exportSds hx
    | toInflux => simpa [Serde.runExporter, toInflux, hctx, carried] using returns_exportSds hx
    | toText => simpa [Serde.runExporter, toText, hctx, carried] using returns_exportText hx
    | toMsgpack =>
      simp only [produced] at hx
      split at hx
      · rename_i hret
        cases hx
        simp [Serde.runExporter, toMsgpack, hctx, run_exportMsgpack, hret, carried]
      · cases hx
  obtain ⟨w', hw'⟩ := h
  constructor
  · rintro ⟨w'', hw''⟩
    rw [hw'] at hw''
    cases hw''
    rfl
  · rintro rfl
    exact ⟨w', hw'⟩

theorem carried_eq_iff : carried x e = x ↔ e = .toMsgpack ∨ (0 : UInt8) ∉ x := by
  cases e with
  | toMsgpack => simp [carried]
  | _ => simp [carried, CStr.bytes_ofPtr_eq_iff]

/-- The String has the bytes of the encoder exactly when it comes from `to_msgpack` or there is no NUL
among them, and then different bytes make different Strings. -/
theorem export_lossless_iff (hself : w.heap self = .serde s) (hinst : s.inst = some ctx)
    (hx : produced ctx w.mem e = some x) :
    (Returns w self e x ↔ e = .toMsgpack ∨ (0 : UInt8) ∉ x) ∧
    ∀ {v : World lib E} {other : ObjId} {s' : CMetricsSerde lib} {ctx' : lib.Ctx} {y z : Bytes},
      v.heap other = .serde s' → s'.inst = some ctx' → produced ctx' v.mem e = some y →
      (e = .toMsgpack ∨ (0 : UInt8) ∉ x ∧ (0 : UInt8) ∉ y) →
      Returns w self e z → Returns v other e z → x = y := by
  refine ⟨(returns_iff hself hinst hx).trans carried_eq_iff, ?_⟩
  intro v other s' ctx' y z hother hinst' hy hnul hz hz'
  rw [returns_iff hself hinst hx] at hz
  rw [returns_iff hother hinst' hy] at hz'
  have hx' : carried x e = x := carried_eq_iff.2 (hnul.imp_right And.left)
  have hy' : carried y e = y := carried_eq_iff.2 (hnul.imp_right And.right)
  exact hx'.symm.trans (hz.trans (hz'.symm.trans hy'))

/-- A remote write message: one series `a` with the one sample 1.0, at 1 ms. -/
def remoteWriteMessage : Bytes :=
  [0x0a, 0x1c, 0x0a, 0x0d, 0x0a, 0x08, 0x5f, 0x5f, 0x6e, 0x61, 0x6d, 0x65, 0x5f, 0x5f, 0x12, 0x01,
   0x61, 0x12, 0x0b, 0x09, 0x00, 0x00, 0x00, 0x00, 0x00, 0x00, 0xf0, 0x3f, 0x10, 0x01]

theorem export_lossless_msgpack :
    Returns (Reference.start [0x00] () [.serde ⟨some (Reference.ctx 0), 0⟩]) 0 .toMsgpack [0x00] :=
  (export_lossless_iff (s := ⟨some (Reference.ctx 0), 0⟩) rfl rfl rfl).1.2 (.inl rfl)

/-- The message is cut in front of its sample. -/
theorem remoteWrite_truncated :
    let w := Reference.start remoteWriteMessage () [.serde ⟨some (Reference.ctx 0), 0⟩]
    produced (Reference.ctx (x := remoteWriteMessage) 0) w.mem .prometheusRemoteWrite =
        some remoteWriteMessage ∧
      ¬ Returns w 0 .prometheusRemoteWrite remoteWriteMessage := by
  intro w
  refine ⟨rfl, fun h => ?_⟩
  rw [returns_iff (s := ⟨some (Reference.ctx 0), 0⟩) rfl rfl rfl, carried_eq_iff] at h
  revert h
  decide

end Serde
end CmetricsRuby
