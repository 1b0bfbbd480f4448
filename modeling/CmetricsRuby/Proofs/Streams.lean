import CmetricsRuby.Reference

/-!
# Reading a stream

`feed_each` calls its block once for each record of the buffer, whatever the block does to the Serde
meanwhile. Polling longer and longer fronts of a stream with `from_msgpack` finds each record once.
The two styles see the same records, and one can take over where the other was left.
-/

-- for the runs over the reference library
set_option maxRecDepth 4000

namespace CmetricsRuby
namespace Serde

open Decoder (frames)
open Reference (start newSerde newSerde_heap wire length_wire enc frames_empty decodes keepsDecoded)

variable {lib : Library} {E : Type} {d : Decoder UInt8 Cmt} {self : ObjId} {w : World lib E}
  {fuel : Nat}

/-- `feed_each` with a block that returns each time it is called, and leaves the String alone. -/
theorem feedEach_frames (hlib : lib.Decodes d) {s : CMetricsSerde lib} (hself : w.heap self = .serde s)
    (bytes : E → Bytes) (block : Block lib E) (hfuel : (bytes w.env).length < fuel) :
    let r := feedEach fuel self (.string bytes) (some block) w
    (∀ w₁ ∈ r.yields, ∃ w₂, block.run w₁ = .ok () w₂ ∧ bytes w₂.env = bytes w₁.env) →
    (∃ w', r.result = .ok .nil w' ∧ w'.heap = (afterLast block w r.yields).heap) ∧
    r.decodes.length ≤ (bytes w.env).length + 1 ∧
    ∀ (enc : Cmt → Bytes) (cs : List Cmt) (t : Bytes), (∀ c ∈ cs, d.Frames enc c) → d.decode t = none →
      bytes w.env = cs.flatMap enc ++ t →
      r.yields.length = cs.length ∧ ∀ i (hi : i < cs.length), ∃ w₁, r.yields[i]? = some w₁ ∧
        w₁.shows self = some (some cs[i], ((cs.take (i + 1)).map fun c => (enc c).length).sum) := by
  intro r hblock
  obtain ⟨hdecodes, hshows, hend⟩ : r.decodes.length ≤ _ ∧ r.yields.map (·.shows self) = _ ∧ _ :=
    feedEach_returns hlib hself hfuel hblock
  refine ⟨hend, ?_, ?_⟩
  · have := d.length_records_le (s := bytes w.env) 0
    omega
  · intro enc cs t hcs ht hB
    rw [hB, d.records_frames enc cs t hcs ht] at hshows
    have hlen : r.yields.length = cs.length := by
      rw [← Decoder.length_frames enc cs, ← List.length_map atRecord, ← hshows, List.length_map]
    refine ⟨hlen, fun i hi => ?_⟩
    have hi' := congrArg (·[i]?) hshows
    simp only [List.getElem?_map, Decoder.getElem?_frames enc cs i, List.getElem?_eq_getElem hi] at hi'
    simpa [atRecord] using hi'

/-- Two records and a stray byte, with a block that clears the Serde each time. -/
theorem feedEach_frames_two :
    (feedEach 200 0 (.string id) (some (putObj 0 (.serde ⟨none, 7⟩)))
      (newSerde [] (wire ++ wire ++ [0xc1]))).yields.length = 2 := by
  have h := feedEach_frames (decodes []) (newSerde_heap [] (wire ++ wire ++ [0xc1])) id
    (putObj 0 (.serde ⟨none, 7⟩)) (show _ < 200 by simp [length_wire]) (fun _ _ => ⟨_, rfl, rfl⟩)
  exact (h.2.2 enc [Cmt.empty, Cmt.empty] [0xc1] (by simp [frames_empty]) (by decide)
    (by simp [enc])).1

/-- Polling longer and longer fronts of a stream, from a new Serde. After each round it is at the last record
of the front, as long as a decode that fails leaves the contexts alone. -/
theorem pollRounds_frames {d : PrefixDecoder UInt8 Cmt} (hlib : lib.Decodes d.toDecoder) (enc : Cmt → Bytes)
    (cs : List Cmt) (t : Bytes) (hcs : ∀ c ∈ cs, d.Frames enc c) (ht : d.decode t = none) {ps : List Bytes}
    (hps : ∀ p ∈ ps, p <+: cs.flatMap enc ++ t) (hinc : ps.Pairwise (· <+: ·))
    {s₀ : CMetricsSerde lib} {w₀ : World lib E} (hself : w₀.heap self = .serde s₀)
    (hnew : (rbInit self).run w₀ = .ok .nil w) (hfuel : (cs.flatMap enc ++ t).length < fuel) :
    let rs := pollRounds self fuel ps w
    let contained := fun p : Bytes => (frames enc 0 cs).filter fun x => decide (x.2 ≤ p.length)
    (∀ p, ps.getLast? = some p → (installs rs).map (·.shows self) = (contained p).map atRecord) ∧
    ∀ i (hi : i < ps.length), ∃ r, rs[i]? = some r ∧ r.stopped = true ∧
      (installs (rs.take (i + 1))).map (·.shows self) = (contained ps[i]).map atRecord ∧
      r.final.heap self = ((installs (rs.take (i + 1))).getLast?.getD w).heap self ∧
      (∃ s, r.final.heap self = .serde s ∧
        s.unpackMsgpackOffset = Decoder.stop 0 (contained ps[i]) ∧
        (contained ps[i] = [] → s.inst = none)) ∧
      ∀ live, lib.KeepsDecoded live → r.final.shows self = showsAfter (some (none, 0)) (contained ps[i]) := by
  intro rs contained
  have hself' := heap_of_rbInit hself hnew
  have hzero : ((frames enc 0 cs).filter fun x => decide (x.2 ≤ 0)) = [] := by
    rw [List.filter_eq_nil_iff, ← d.records_frames enc cs t hcs ht]
    intro x hx
    have := d.records_end_gt 0 x hx
    simp; omega
  have hround := pollRounds_follows hlib hps hinc (fun p _ => Nat.zero_le p.length) hself'
    (by rw [d.records_frames enc cs t hcs ht, hzero]; rfl) hfuel
  simp only [d.records_frames enc cs t hcs ht, hzero, List.nil_append] at hround
  refine ⟨fun p hp => ?_, fun i hi => ?_⟩
  · obtain ⟨init, rfl⟩ := List.getLast?_eq_some_iff.1 hp
    obtain ⟨r, new, -, -, hnew, hshows, -⟩ := hround init.length (by simp)
    rw [List.getElem_concat_length rfl] at hnew
    have hlen : rs.length ≤ init.length + 1 := by rw [length_pollRounds]; simp
    rw [List.take_of_length_le hlen, ← hnew] at hshows
    exact hshows
  · obtain ⟨r, new, hr, hstop, hnew, hshows, hheap, ⟨s, hs, hoff⟩, hfinal⟩ := hround i hi
    rw [← hnew] at hshows
    refine ⟨r, hr, hstop, hshows, congrFun hheap self, ⟨s, hs, hoff, fun hnone => ?_⟩, fun live hkeeps => ?_⟩
    · -- nothing was installed, so the Serde is as it was at first
      have hempty : installs (rs.take (i + 1)) = [] :=
        List.map_eq_nil_iff.1 (hshows.trans (congrArg (List.map atRecord) hnone))
      rw [hempty] at hheap
      cases hself'.symm.trans ((congrFun hheap self).symm.trans hs)
      rfl
    · have hlive : w.HoldsLive self live := by
        intro s ctx hs hctx
        cases hself'.symm.trans hs
        cases hctx
      have hshows₀ : w.shows self = some (none, 0) := by
        unfold World.shows
        rw [hself']
        rfl
      rw [hfinal live hkeeps hlive, hshows₀, ← hnew]

/-- A front that cuts the record, and then the record with a byte behind it. -/
theorem pollRounds_frames_cut :
    let rs := pollRounds 0 200 [wire.take 10, wire ++ [0xc1]] (newSerde [] ())
    (installs rs).map (·.shows 0) = [some (some Cmt.empty, 63)] ∧
      rs.map (·.final.shows 0) = [some (none, 0), some (some Cmt.empty, 63)] := by
  have hnew : (rbInit 0).run (start [] () [.serde ⟨none, 0⟩]) = .ok .nil (newSerde [] ()) := rfl
  have hps : ∀ p ∈ [wire.take 10, wire ++ [0xc1]], p <+: [Cmt.empty].flatMap enc ++ [0xc1] := by decide
  have hlen : ([Cmt.empty].flatMap enc ++ [0xc1]).length < 200 := by decide
  have h := pollRounds_frames (decodes []) enc [Cmt.empty] [0xc1] (by simp [frames_empty]) (by decide) hps
    (by decide) rfl hnew hlen
  refine ⟨h.1 _ rfl, ?_⟩
  obtain ⟨_, hfirst, -, -, -, -, hcut⟩ := h.2 0 (by decide)
  obtain ⟨_, hsecond, -, -, -, -, hwhole⟩ := h.2 1 (by decide)
  cases hfirst
  cases hsecond
  exact congrArg₂ (fun x y => [x, y]) (hcut _ (keepsDecoded [])) (hwhole _ (keepsDecoded []))

/-- Polling a buffer from a new Serde and `feed_each` over it, with a block that leaves the String
alone: the same records, and where the block only reads the Serde and leaves the iteration, polling
goes on behind it. -/
theorem poll_feedEach (hlib : lib.Decodes d) (B : Bytes) {s₀ : CMetricsSerde lib} {w₀ : World lib E}
    (hself : w₀.heap self = .serde s₀) (hnew : (rbInit self).run w₀ = .ok .nil w)
    (hfuel : B.length < fuel) {other : ObjId} {s : CMetricsSerde lib} {v : World lib E}
    (hother : v.heap other = .serde s) (bytes : E → Bytes) (hB : bytes v.env = B)
    (block : Block lib E) :
    let pairs := (poll self B fuel w).installs.map (·.shows self)
    let r := feedEach fuel other (.string bytes) (some block) v
    (∀ v₁ ∈ r.yields, bytes (stateOf (block.run v₁)).env = bytes v₁.env) →
    (poll self B fuel w).stopped = true ∧
    ((∀ v₁ ∈ r.yields, ∃ v₂, block.run v₁ = .ok () v₂) → r.yields.map (·.shows other) = pairs) ∧
    ∀ e v₁, r.result = .error e v₁ →
      (∀ v₂ ∈ r.yields, (stateOf (block.run v₂)).heap other = v₂.heap other) →
      r.yields.map (·.shows other) = pairs.take r.yields.length ∧
      (poll other B fuel v₁).stopped = true ∧
      (poll other B fuel v₁).installs.map (·.shows other) = pairs.drop r.yields.length := by
  intro pairs r hblock
  have hself' := heap_of_rbInit hself hnew
  have hpoll := poll_follows hlib hself' rfl (by omega) (show B.length < fuel + 0 by omega)
  have hit : Iterates other block (d.records B 0) v r := by
    subst hB
    exact feedEach_iterates hlib hother hblock hfuel
  have htake : r.yields.map (·.shows other) = pairs.take r.yields.length := by
    rw [hit.shows_take, show pairs = _ from hpoll.shows, List.map_take]
  refine ⟨hpoll.stopped, fun hreturns => (hit.returns hreturns).1.trans hpoll.shows.symm,
    fun e v₁ hr hread => ⟨htake, ?_⟩⟩
  · rcases hit.result with ⟨-, _, hr', -⟩ | ⟨v₂, v₃, e', hlast, hb, hr'⟩
    · rw [hr'] at hr; cases hr
    · rw [hr'] at hr; cases hr
      -- the Serde is still at the last record the block saw
      obtain ⟨x, hx, hshows⟩ : ∃ x, ((d.records B 0).take r.yields.length).getLast? = some x ∧
          v₂.shows other = atRecord x := by
        have h := congrArg List.getLast? hit.shows_take
        rw [List.getLast?_map, List.getLast?_map, hlast] at h
        obtain ⟨x, hx, hshows⟩ := Option.map_eq_some_iff.1 h.symm
        exact ⟨x, hx, hshows.symm⟩
      obtain ⟨s₁, hs₁, hoff₁⟩ := serde_of_shows hshows
      have hkeep := hread v₂ (List.mem_of_getLast? hlast)
      rw [hb, stateOf_error, hs₁] at hkeep
      have hrest := poll_follows hlib hkeep hoff₁ (by omega) (show B.length < fuel + x.2 by omega)
      rw [← Decoder.stop_of_getLast? 0 hx,
        d.records_stop (List.take_append_drop r.yields.length _).symm] at hrest
      refine ⟨hrest.stopped, ?_⟩
      rw [hrest.shows, show pairs = _ from hpoll.shows, List.map_drop]

/-- Two records; the block breaks out at the first, and polling finds the other. -/
theorem poll_feedEach_break :
    (poll 0 (wire ++ wire) 200 (stateOf (feedEach 200 0 (.string id) (some fun w => .error .brk w)
      (newSerde [] (wire ++ wire))).result)).installs.map (·.shows 0) = [some (some Cmt.empty, 126)] := by
  have hnew : (rbInit 0).run (start [] (wire ++ wire) [.serde ⟨none, 0⟩]) =
      .ok .nil (newSerde [] (wire ++ wire)) := rfl
  have hlen : (wire ++ wire).length < 200 := by simp [length_wire]
  have h := poll_feedEach (decodes []) (wire ++ wire) rfl hnew hlen
    (newSerde_heap [] (wire ++ wire)) id rfl (fun w => .error .brk w) (fun _ _ => rfl)
  exact (h.2.2 .brk _ rfl fun _ _ => rfl).2.2

end Serde
end CmetricsRuby
