import CmetricsRuby.Hashes
import CmetricsRuby.Reference

/-!
# What `metrics` returns

One group a counter, gauge or untyped, in the order of their lists, and in each group one Hash a sample.
The Hashes are those of `HashOf`, so nothing is lost, doubled or under the name of another metric.
-/

namespace CmetricsRuby

/-- The groups of all lists in one go. -/
theorem formatContext_eq (seconds : Nat → Double) (cmt : Cmt) : formatContext seconds cmt = (do
    let groups ← (cmt.counters ++ cmt.gauges ++ cmt.untypeds).mapM (formatMetrics seconds cmt)
    return .array groups) := by
  simp [formatContext, List.mapM_append]

/-- Maps in which every sample can be formatted come out as the Hashes of all their samples. -/
theorem mapM_formatMetrics_ok {seconds : Nat → Double} {cmt : Cmt} {maps : List CmtMap}
    (h : ∀ map ∈ maps, ∀ metric ∈ map.samples, Formats cmt map metric) : ∃ groups : List (List Entries),
      maps.mapM (formatMetrics seconds cmt) = .ok (groups.map fun g => .array (g.map .hash)) ∧
      List.Forall₂ (fun map g =>
        List.Forall₂ (fun metric => HashOf seconds cmt (map.repeated metric) metric) map.samples g) maps groups := by
  refine ⟨maps.map (groupHashes seconds cmt), ?_, ?_⟩
  · rw [mapM_eq_ok_map fun map hmap => formatMetrics_ok (h map hmap), List.map_map]
    rfl
  · rw [List.forall₂_map_right_iff, List.forall₂_same]
    exact fun map _ => hashOf_groupHashes seconds cmt map

namespace Serde

variable {lib : Library} {E : Type} {w : World lib E} {self : ObjId} {s : CMetricsSerde lib}
  {ctx : lib.Ctx}

theorem run_getMetrics (hself : w.heap self = .serde s) (hinst : s.inst = some ctx) :
    (getMetrics self).run w = match formatContext lib.seconds (lib.cmt w.mem ctx) with
      | .ok v => .ok v w
      | .error e => .error e w := by
  simp only [getMetrics, EStateM.run_bind, run_checkContext hself hinst]
  cases h : formatContext lib.seconds (lib.cmt w.mem ctx) <;> simp [EStateM.run, h] <;> rfl

theorem getMetrics_formats (hself : w.heap self = .serde s) (hinst : s.inst = some ctx)
    (h : ∀ map ∈ (lib.cmt w.mem ctx).counters ++ (lib.cmt w.mem ctx).gauges ++ (lib.cmt w.mem ctx).untypeds,
      ∀ metric ∈ map.samples, Formats (lib.cmt w.mem ctx) map metric) :
    ∃ groups : List (List Entries),
      (getMetrics self).run w = .ok (.array (groups.map fun g => .array (g.map .hash))) w ∧
      List.Forall₂ (fun map g => List.Forall₂
          (fun metric => HashOf lib.seconds (lib.cmt w.mem ctx) (map.repeated metric) metric) map.samples g)
        ((lib.cmt w.mem ctx).counters ++ (lib.cmt w.mem ctx).gauges ++ (lib.cmt w.mem ctx).untypeds)
        groups := by
  obtain ⟨groups, hmapM, hgroups⟩ := mapM_formatMetrics_ok h
  have hrun := run_getMetrics hself hinst
  rw [formatContext_eq, hmapM] at hrun
  exact ⟨groups, hrun, hgroups⟩

/-- For every context without NULL, in whatever way it came about. -/
theorem getMetrics_groups (hself : w.heap self = .serde s) (hinst : s.inst = some ctx)
    (hstatic : (lib.cmt w.mem ctx).StaticWhole)
    (hmaps : ∀ map ∈ (lib.cmt w.mem ctx).counters ++ (lib.cmt w.mem ctx).gauges ++
      (lib.cmt w.mem ctx).untypeds, map.Whole) :
    ∃ groups : List (List Entries),
      (getMetrics self).run w = .ok (.array (groups.map fun g => .array (g.map .hash))) w ∧
      List.Forall₂ (fun map g => List.Forall₂ (HashOf lib.seconds (lib.cmt w.mem ctx) map) map.samples g)
        ((lib.cmt w.mem ctx).counters ++ (lib.cmt w.mem ctx).gauges ++ (lib.cmt w.mem ctx).untypeds)
        groups := by
  obtain ⟨groups, hrun, hgroups⟩ := getMetrics_formats hself hinst fun map hmap metric hmetric =>
    (hmaps map hmap).formats hstatic hmetric
  -- no sample has more labels than its map has keys, so no key comes up a second time
  refine ⟨groups, hrun, ((List.forall₂_and_left _ _).2 ⟨hmaps, hgroups⟩).imp fun map g h => ?_⟩
  exact ((List.forall₂_and_left _ _).2 ⟨h.1.labels, h.2⟩).imp fun metric x h => h.2.of_repeated h.1

/-- A Serde whose context has a counter with two samples, an untyped with none and a static label that is
set twice. -/
def sampled : World (reference []) Unit :=
  let str : UInt8 → Option CStr := fun c => some (CStr.ofPtr [c])
  let opts : CmtOpts := ⟨str 0x6e, str 0x73, str 0x61, str 0x68⟩
  let counter : CmtMap := ⟨opts, [str 0x6b, str 0x6c], 1, ⟨3, 0, []⟩, [⟨5, 0, [str 0x78, str 0x79]⟩]⟩
  let untyped : CmtMap := ⟨opts, [], 0, ⟨0, 0, []⟩, []⟩
  let context : Cmt := ⟨[⟨str 0x74, str 0x75⟩, ⟨str 0x74, str 0x76⟩], [counter], [], [untyped]⟩
  { Reference.start [] () [.serde ⟨some (Reference.ctx 0), 0⟩] with mem := ([context] : Reference.Mem) }

theorem getMetrics_groups_sampled : ∃ first second : Entries,
    (getMetrics 0).run sampled = .ok (.array [.array [.hash first, .hash second], .array []]) sampled ∧
      first.lookup (rbLit "value") = some (.float 3) ∧ first.lookup (rbLit "labels") = none ∧
      second.lookup (rbLit "value") = some (.float 5) := by
  have hself : sampled.heap 0 = .serde ⟨some (Reference.ctx 0), 0⟩ := rfl
  have hstatic : ((reference []).cmt sampled.mem (Reference.ctx 0)).StaticWhole := by
    unfold Cmt.StaticWhole
    decide
  obtain ⟨groups, hrun, hgroups⟩ := getMetrics_groups hself rfl hstatic (by
    intro map hmap
    rcases List.mem_cons.1 hmap with rfl | hmap
    · constructor <;> decide
    · rcases List.mem_singleton.1 hmap with rfl
      constructor <;> decide)
  cases hgroups with
  | cons hcounter hgroups =>
    cases hgroups with
    | cons huntyped hgroups =>
      cases hgroups
      cases huntyped
      cases hcounter with
      | cons hfirst hcounter =>
        cases hcounter with
        | cons hsecond hcounter =>
          cases hcounter
          exact ⟨_, _, hrun, hfirst.value, hfirst.noLabels rfl, hsecond.value⟩

end Serde
end CmetricsRuby
