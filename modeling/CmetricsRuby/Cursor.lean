import CmetricsRuby.Serde
import CmetricsRuby.Base.PrefixDecoder

/-!
# The cursor of a Serde

What a Serde shows of a stream is its context and its stored offset. `Library.Decodes` is what is
assumed of `cmt_decode_msgpack_create`. Over it both ways of reading a stream follow the records of
`Decoder.records`: `Iterates` is one pass of `feed_each` over a list of records, and `poll` is
a Ruby program that calls `from_msgpack` until it gets no further.
-/

namespace CmetricsRuby

variable {lib : Library} {E : Type}

/-- The decoder reads only the window it is given. It does there what `d` does: where `d` finds a
record it hands out a context that holds the record and moves the offset behind it, and where `d`
finds none it fails, with anything in its out-parameters. -/
structure Library.Decodes (lib : Library) (d : Decoder UInt8 Cmt) : Prop where
  fail : ∀ {buf : Bytes} {length offset : Nat} (mem : lib.Mem), offset ≤ length → length ≤ buf.length →
    d.decode ((buf.take length).drop offset) = none →
    (lib.cmtDecodeMsgpackCreate buf length offset mem).1.ret ≠ 0
  succeed : ∀ {buf : Bytes} {length offset k : Nat} {c : Cmt} (mem : lib.Mem),
    offset ≤ length → length ≤ buf.length →
    d.decode ((buf.take length).drop offset) = some (c, k) →
    let r := lib.cmtDecodeMsgpackCreate buf length offset mem
    r.1.ret = 0 ∧ r.1.offset = offset + k ∧ ∃ ctx, r.1.cmt = some ctx ∧ lib.cmt r.2 ctx = c

/-- A decode that fails leaves the contexts there are, `live`, as they were; one that succeeds adds one. -/
structure Library.KeepsDecoded (lib : Library) (live : lib.Mem → lib.Ctx → Prop) : Prop where
  fail : ∀ buf length offset mem,
    let r := lib.cmtDecodeMsgpackCreate buf length offset mem
    r.1.ret ≠ 0 → ∀ ctx, live mem ctx → live r.2 ctx ∧ lib.cmt r.2 ctx = lib.cmt mem ctx
  succeed : ∀ buf length offset mem,
    let r := lib.cmtDecodeMsgpackCreate buf length offset mem
    r.1.ret = 0 → ∀ ctx, r.1.cmt = some ctx → live r.2 ctx

def World.shows (w : World lib E) (self : ObjId) : Option (Option Cmt × Nat) :=
  match w.heap self with
  | .serde s => some (s.inst.map (lib.cmt w.mem), s.unpackMsgpackOffset)
  | _ => none

def atRecord (r : Cmt × Nat) : Option (Option Cmt × Nat) := some (some r.1, r.2)

/-- The context of the Serde, if it has one, is there. -/
def World.HoldsLive (w : World lib E) (self : ObjId) (live : lib.Mem → lib.Ctx → Prop) : Prop :=
  ∀ s ctx, w.heap self = .serde s → s.inst = some ctx → live w.mem ctx

namespace Serde

variable {d : Decoder UInt8 Cmt} {self : ObjId} {w w₁ : World lib E} {buf : Bytes}
  {off k fuel : Nat} {c : Cmt} {live : lib.Mem → lib.Ctx → Prop}

theorem decodeInto_none (self : ObjId) (w : World lib E) (hlib : lib.Decodes d) (hoff : off ≤ buf.length)
    (hd : d.decode (buf.drop off) = none) :
    ∃ w₁, (decodeInto self ⟨buf, buf.length, off⟩).run w = .ok none w₁ ∧
      w₁.heap = w.heap ∧ w₁.env = w.env := by
  rw [← List.take_length (l := buf)] at hd
  have hret := hlib.fail w.mem hoff le_rfl hd
  rw [run_decodeInto]
  simp only [if_neg hret]
  exact ⟨_, rfl, rfl, rfl⟩

theorem decodeInto_some (self : ObjId) (w : World lib E) (hlib : lib.Decodes d)
    (hd : d.decode (buf.drop off) = some (c, k)) :
    ∃ w₁, (decodeInto self ⟨buf, buf.length, off⟩).run w = .ok (some (off + k)) w₁ ∧
      w₁.shows self = atRecord (c, off + k) ∧ w₁.env = w.env := by
  have hoff := d.drop_length_le hd
  rw [← List.take_length (l := buf)] at hd
  obtain ⟨hret, hend, ctx, hctx, hc⟩ := hlib.succeed w.mem (by omega) le_rfl hd
  rw [run_decodeInto]
  simp only [if_pos hret, hend]
  refine ⟨_, rfl, ?_, rfl⟩
  simp [World.shows, atRecord, hctx, hc]

theorem decodeInto_keeps (hkeeps : lib.KeepsDecoded live) (hlive : w.HoldsLive self live) {call : DecodeCall}
    {offset : Option Nat} (hrun : (decodeInto self call).run w = .ok offset w₁) :
    w₁.HoldsLive self live ∧ (offset = none → w₁.shows self = w.shows self) := by
  rw [run_decodeInto] at hrun
  by_cases hret : (lib.cmtDecodeMsgpackCreate call.buf call.length call.offset w.mem).1.ret = 0
  · simp only [if_pos hret] at hrun
    cases hrun
    refine ⟨fun s ctx hs hctx => ?_, nofun⟩
    rw [World.put_heap_self] at hs
    cases hs
    exact hkeeps.succeed _ _ _ _ hret ctx hctx
  · have hfail := hkeeps.fail _ _ _ _ hret
    simp only [if_neg hret] at hrun
    cases hrun
    refine ⟨fun s ctx hs hctx => (hfail ctx (hlive s ctx hs hctx)).1, fun _ => ?_⟩
    unfold World.shows
    rw [World.called_heap, World.called_mem]
    split
    · rename_i s hs
      have hsame := Option.map_congr fun ctx hctx => (hfail ctx (hlive s ctx hs hctx)).2
      rw [hsame]
    · rfl

/-! ### `feed_each` -/

/-- `r` is a pass over the records `l` from the world `w`: the block is called once a record, with
the Serde at that record, and the pass ends when the records or the block do. -/
inductive Iterates (self : ObjId) (block : Block lib E) :
    List (Cmt × Nat) → World lib E → FeedRun lib E → Prop
  | done {w w₁ call} : w₁.heap = w.heap → Iterates self block [] w ⟨.ok .nil w₁, [call], []⟩
  | left {x l w w₁ w₂ e call} : w₁.shows self = atRecord x → block.run w₁ = .error e w₂ →
      Iterates self block (x :: l) w ⟨.error e w₂, [call], [w₁]⟩
  | turn {x l w w₁ w₂ call r} : w₁.shows self = atRecord x → block.run w₁ = .ok () w₂ →
      Iterates self block l w₂ r →
      Iterates self block (x :: l) w ⟨r.result, call :: r.decodes, w₁ :: r.yields⟩

/-- The world in which the last call of the block leaves things, or `w` when there was none. -/
def afterLast (block : Block lib E) (w : World lib E) (yields : List (World lib E)) : World lib E :=
  (yields.getLast?.map fun w₁ => stateOf (block.run w₁)).getD w

namespace Iterates

variable {block : Block lib E} {l : List (Cmt × Nat)} {r : FeedRun lib E}

theorem shows_take (h : Iterates self block l w r) :
    r.yields.map (·.shows self) = (l.take r.yields.length).map atRecord := by
  induction h with
  | done => rfl
  | left hx => simp [hx]
  | turn hx _ _ ih => simp [hx, ih]

theorem length_decodes (h : Iterates self block l w r) : r.decodes.length ≤ l.length + 1 := by
  induction h with
  | done => simp
  | left => simp
  | turn _ _ _ ih => simpa using ih

/-- A pass ends with `nil` behind the last record, or as the block does at its last call. -/
theorem result (h : Iterates self block l w r) :
    (r.yields.length = l.length ∧ ∃ w', r.result = .ok .nil w' ∧ w'.heap = (afterLast block w r.yields).heap) ∨
      ∃ w₁ w₂ e, r.yields.getLast? = some w₁ ∧ block.run w₁ = .error e w₂ ∧ r.result = .error e w₂ := by
  induction h with
  | done hw => exact .inl ⟨rfl, _, rfl, hw⟩
  | left _ hb => exact .inr ⟨_, _, _, rfl, hb, rfl⟩
  | @turn x l w w₁ w₂ call r _ hb _ ih =>
    rcases ih with ⟨hlen, w', hr, hw'⟩ | ⟨w₃, w₄, e, hlast, hb', hr⟩
    · refine .inl ⟨by simpa using hlen, w', hr, hw'.trans ?_⟩
      cases hy : r.yields.getLast? with
      | none => simp [afterLast, List.getLast?_cons, hy, hb]
      | some w₃ => simp [afterLast, List.getLast?_cons, hy]
    · refine .inr ⟨w₃, w₄, e, ?_, hb', hr⟩
      simp [List.getLast?_cons, hlast]

/-- A block that always returns sees all records. -/
theorem returns (h : Iterates self block l w r) (hblock : ∀ w₁ ∈ r.yields, ∃ w₂, block.run w₁ = .ok () w₂) :
    r.yields.map (·.shows self) = l.map atRecord ∧
      ∃ w', r.result = .ok .nil w' ∧ w'.heap = (afterLast block w r.yields).heap := by
  rcases h.result with ⟨hlen, hend⟩ | ⟨w₁, w₂, e, hlast, hb, -⟩
  · refine ⟨?_, hend⟩
    rw [h.shows_take, hlen, List.take_length]
  · obtain ⟨w₃, hb'⟩ := hblock w₁ (List.mem_of_getLast? hlast)
    rw [hb'] at hb
    cases hb

end Iterates

theorem feedLoop_iterates (hlib : lib.Decodes d) {bytes : E → Bytes} {block : Block lib E}
    (hblock : ∀ w₁ ∈ (feedLoop self bytes buf.length block fuel off w).yields,
      bytes (stateOf (block.run w₁)).env = bytes w₁.env)
    (hbuf : bytes w.env = buf) (hoff : off ≤ buf.length) (hfuel : buf.length < fuel + off) :
    Iterates self block (d.records buf off) w (feedLoop self bytes buf.length block fuel off w) := by
  induction off using d.records_induction buf generalizing fuel w with
  | stop off h =>
    obtain ⟨fuel, rfl⟩ : ∃ n, fuel = n + 1 := ⟨fuel - 1, by omega⟩
    obtain ⟨w₁, hrun, hheap, -⟩ := decodeInto_none self w hlib hoff h
    rw [d.records_none h, feedLoop, if_pos hoff]
    simp only [hbuf, hrun]
    exact .done hheap
  | step off c k h ih =>
    have hend := d.drop_length_le h
    have hk := d.pos h
    obtain ⟨fuel, rfl⟩ : ∃ n, fuel = n + 1 := ⟨fuel - 1, by omega⟩
    obtain ⟨w₁, hrun, hshows, henv⟩ := decodeInto_some self w hlib h
    rw [d.records_some h]
    rw [feedLoop, if_pos hoff] at hblock ⊢
    simp only [hbuf, hrun] at hblock ⊢
    cases hb : block.run w₁ with
    | error e w₂ => exact .left hshows hb
    | ok u w₂ =>
      simp only [hb] at hblock
      have hkeep := hblock w₁ (List.mem_cons_self ..)
      rw [hb, stateOf_ok, henv, hbuf] at hkeep
      exact .turn hshows hb
        (ih (fun w₃ hw₃ => hblock w₃ (List.mem_cons_of_mem _ hw₃)) hkeep hend (by omega))

theorem feedEach_iterates (hlib : lib.Decodes d) {s : CMetricsSerde lib} (hself : w.heap self = .serde s)
    {bytes : E → Bytes} {block : Block lib E}
    (hblock : ∀ w₁ ∈ (feedEach fuel self (.string bytes) (some block) w).yields,
      bytes (stateOf (block.run w₁)).env = bytes w₁.env)
    (hfuel : (bytes w.env).length < fuel) :
    Iterates self block (d.records (bytes w.env) 0) w
      (feedEach fuel self (.string bytes) (some block) w) := by
  simp only [feedEach, fromMsgpackFeedEachImpl, run_serdeStruct hself] at hblock ⊢
  exact feedLoop_iterates hlib hblock rfl (Nat.zero_le _) hfuel

/-- A block that returns each time and leaves the String alone. -/
theorem feedEach_returns (hlib : lib.Decodes d) {s : CMetricsSerde lib} (hself : w.heap self = .serde s)
    {bytes : E → Bytes} {block : Block lib E} (hfuel : (bytes w.env).length < fuel)
    (hblock : ∀ w₁ ∈ (feedEach fuel self (.string bytes) (some block) w).yields,
      ∃ w₂, block.run w₁ = .ok () w₂ ∧ bytes w₂.env = bytes w₁.env) :
    let r := feedEach fuel self (.string bytes) (some block) w
    r.decodes.length ≤ (d.records (bytes w.env) 0).length + 1 ∧
      r.yields.map (·.shows self) = (d.records (bytes w.env) 0).map atRecord ∧
      ∃ w', r.result = .ok .nil w' ∧ w'.heap = (afterLast block w r.yields).heap := by
  intro r
  have hit : Iterates self block (d.records (bytes w.env) 0) w r := by
    refine feedEach_iterates hlib hself (fun w₁ hw₁ => ?_) hfuel
    obtain ⟨w₂, hb, hw₂⟩ := hblock w₁ hw₁
    rwa [hb]
  refine ⟨hit.length_decodes, hit.returns fun w₁ hw₁ => ?_⟩
  obtain ⟨w₂, hb, -⟩ := hblock w₁ hw₁
  exact ⟨w₂, hb⟩

/-! ### `from_msgpack` until it gets no further -/

/-- The worlds right after each decoded record, the world at the end, and whether the end came with
`nil` or an exception. -/
structure PollRun (lib : Library) (E : Type) where
  installs : List (World lib E)
  final : World lib E
  stopped : Bool

/-- `nil while serde.from_msgpack(p)`, with the exception at the end of the buffer rescued. -/
def poll (self : ObjId) (p : Bytes) : (fuel : Nat) → World lib E → PollRun lib E
  | 0, w => ⟨[], w, false⟩
  | fuel + 1, w =>
    match (fromMsgpack [.string p] self).run w with
    | .ok .true w₁ =>
      let r := poll self p fuel w₁
      ⟨w₁ :: r.installs, r.final, r.stopped⟩
    | .ok .nil w₁ => ⟨[], w₁, true⟩
    | .error (.raised _ _) w₁ => ⟨[], w₁, true⟩
    | r => ⟨[], stateOf r, false⟩

/-- What a Serde shows that showed `x` and then decoded the records `l`. -/
def showsAfter (x : Option (Option Cmt × Nat)) (l : List (Cmt × Nat)) : Option (Option Cmt × Nat) :=
  (l.getLast?.map atRecord).getD x

theorem showsAfter_append (x : Option (Option Cmt × Nat)) (l m : List (Cmt × Nat)) :
    showsAfter x (l ++ m) = showsAfter (showsAfter x l) m := by
  unfold showsAfter
  rw [List.getLast?_append]
  cases m.getLast? <;> rfl

/-- `r` decodes the records `l`, one after the other, and leaves the Serde as the last one did. -/
structure PollRun.Follows (id : ObjId) (off : Nat) (l : List (Cmt × Nat)) (w : World lib E)
    (r : PollRun lib E) : Prop where
  stopped : r.stopped = true
  shows : r.installs.map (·.shows id) = l.map atRecord
  heap : r.final.heap = (r.installs.getLast?.getD w).heap
  offset : ∃ s, r.final.heap id = .serde s ∧ s.unpackMsgpackOffset = Decoder.stop off l
  final : ∀ live, lib.KeepsDecoded live → w.HoldsLive id live →
    r.final.HoldsLive id live ∧ r.final.shows id = showsAfter (w.shows id) l

theorem run_fromMsgpack_string {s : CMetricsSerde lib} (hself : w.heap self = .serde s) (p : Bytes) :
    (fromMsgpack [.string p] self).run w =
      if p.length ≤ s.unpackMsgpackOffset then
        .error (.raised .runtimeError "offset should be smaller than msgpack buffer size.") w
      else (do
        let offset ← decodeInto self ⟨p, p.length, s.unpackMsgpackOffset⟩
        return if offset.isSome then .true else .nil : M lib E Value).run w := by
  rw [run_fromMsgpack hself]
  by_cases h : p.length ≤ s.unpackMsgpackOffset <;>
    simp [msgpackCall, rbScanArgs, msgpackWindow, msgpackLength, msgpackOffset, Value.isNil, rstringLen,
      stringValuePtr, rbRaise, h]

theorem serde_of_shows {x : Cmt × Nat} (h : w.shows self = atRecord x) :
    ∃ s, w.heap self = .serde s ∧ s.unpackMsgpackOffset = x.2 := by
  unfold World.shows at h
  split at h
  · rename_i s hs
    simp only [atRecord, Option.some.injEq, Prod.mk.injEq] at h
    exact ⟨s, hs, h.2⟩
  · cases h

theorem poll_follows (hlib : lib.Decodes d) {s : CMetricsSerde lib} (hself : w.heap self = .serde s)
    (hoff : s.unpackMsgpackOffset = off) (hpos : 0 < fuel) (hfuel : buf.length < fuel + off) :
    (poll self buf fuel w).Follows self off (d.records buf off) w := by
  induction off using d.records_induction buf generalizing fuel w s with
  | stop off h =>
    obtain ⟨fuel, rfl⟩ : ∃ n, fuel = n + 1 := ⟨fuel - 1, by omega⟩
    rw [d.records_none h, poll, run_fromMsgpack_string hself, hoff]
    by_cases hend : buf.length ≤ off
    · simp only [if_pos hend]
      exact ⟨rfl, rfl, rfl, ⟨s, hself, hoff⟩, fun live _ hlive => ⟨hlive, rfl⟩⟩
    · obtain ⟨w₁, hrun, hheap, -⟩ := decodeInto_none self w hlib (by omega) h
      simp only [if_neg hend, EStateM.run_bind, hrun]
      refine ⟨rfl, rfl, hheap, ⟨s, (congrFun hheap self).trans hself, hoff⟩, fun live hkeeps hlive => ?_⟩
      obtain ⟨hlive₁, hsame⟩ := decodeInto_keeps hkeeps hlive hrun
      exact ⟨hlive₁, hsame rfl⟩
  | step off c k h ih =>
    have hlt := d.lt_length h
    have hk := d.pos h
    obtain ⟨fuel, rfl⟩ : ∃ n, fuel = n + 1 := ⟨fuel - 1, by omega⟩
    obtain ⟨w₁, hrun, hshows, -⟩ := decodeInto_some self w hlib h
    obtain ⟨s₁, hself₁, hoff₁⟩ := serde_of_shows hshows
    have hend := d.drop_length_le h
    have ih := ih (w := w₁) hself₁ hoff₁ (show 0 < fuel by omega) (by omega)
    rw [d.records_some h, poll, run_fromMsgpack_string hself, hoff, if_neg (by omega)]
    simp only [EStateM.run_bind, hrun, EStateM.run_pure, Option.isSome_some, if_true]
    refine ⟨ih.stopped, ?_, ?_, ih.offset, fun live hkeeps hlive => ?_⟩
    · simp only [List.map_cons, hshows, ih.shows]
    · rw [List.getLast?_cons]
      exact ih.heap
    · obtain ⟨hlive₁, hfinal⟩ := ih.final live hkeeps (decodeInto_keeps hkeeps hlive hrun).1
      refine ⟨hlive₁, hfinal.trans ?_⟩
      rw [hshows]
      exact (showsAfter_append (w.shows self) [(c, off + k)] _).symm

def pollRounds (self : ObjId) (fuel : Nat) : List Bytes → World lib E → List (PollRun lib E)
  | [], _ => []
  | p :: ps, w =>
    let r := poll self p fuel w
    r :: pollRounds self fuel ps r.final

@[simp] theorem length_pollRounds (ps : List Bytes) :
    (pollRounds self fuel ps w).length = ps.length := by
  induction ps generalizing w with
  | nil => rfl
  | cons p ps ih => simp [pollRounds, ih]

def installs (rs : List (PollRun lib E)) : List (World lib E) := rs.flatMap (·.installs)

section
variable {d : PrefixDecoder UInt8 Cmt}

/-- Polling longer and longer fronts of a stream `S`, of which the records up to `m` have been read:
after the `i`-th round the records read since are those up to the end of the `i`-th front. -/
theorem pollRounds_follows (hlib : lib.Decodes d.toDecoder) {S : Bytes} {ps : List Bytes} {m : Nat}
    (hps : ∀ p ∈ ps, p <+: S) (hinc : ps.Pairwise (· <+: ·)) (hm : ∀ p ∈ ps, m ≤ p.length)
    {s : CMetricsSerde lib} (hself : w.heap self = .serde s)
    (hoff : s.unpackMsgpackOffset =
      Decoder.stop 0 ((d.records S 0).filter fun x => decide (x.2 ≤ m)))
    (hfuel : S.length < fuel) (i : Nat) (hi : i < ps.length) :
    ∃ r new, (pollRounds self fuel ps w)[i]? = some r ∧ r.stopped = true ∧
      ((d.records S 0).filter fun x => decide (x.2 ≤ ps[i].length)) =
        ((d.records S 0).filter fun x => decide (x.2 ≤ m)) ++ new ∧
      (installs ((pollRounds self fuel ps w).take (i + 1))).map (·.shows self) = new.map atRecord ∧
      r.final.heap = ((installs ((pollRounds self fuel ps w).take (i + 1))).getLast?.getD w).heap ∧
      (∃ s, r.final.heap self = .serde s ∧ s.unpackMsgpackOffset =
        Decoder.stop 0 ((d.records S 0).filter fun x => decide (x.2 ≤ ps[i].length))) ∧
      ∀ live, lib.KeepsDecoded live → w.HoldsLive self live →
        r.final.shows self = showsAfter (w.shows self) new := by
  induction ps generalizing w s m i with
  | nil => simp at hi
  | cons p ps ih =>
    obtain ⟨hp, hps⟩ := List.forall_mem_cons.1 hps
    obtain ⟨hpp, hinc⟩ := List.pairwise_cons.1 hinc
    obtain ⟨hmp, -⟩ := List.forall_mem_cons.1 hm
    obtain ⟨new, hnew⟩ := d.exists_filter_append (s := S) hmp 0
    -- the records of `p` from the stored offset on are the new ones
    have hrec : d.records p s.unpackMsgpackOffset = new := by
      rw [hoff]
      refine d.records_stop ?_
      rw [← hnew, ← d.takeWhile_records, ← d.records_take, ← List.prefix_iff_eq_take.1 hp]
    have hround := poll_follows (w := w) hlib hself rfl (show 0 < fuel by omega)
      (show p.length < fuel + s.unpackMsgpackOffset by have := hp.length_le; omega)
    rw [hrec] at hround
    obtain ⟨s₁, hself₁, hoff₁⟩ := hround.offset
    rw [hoff, ← Decoder.stop_append, ← hnew] at hoff₁
    cases i with
    | zero =>
      refine ⟨_, new, rfl, hround.stopped, hnew, ?_, ?_, ⟨s₁, hself₁, hoff₁⟩, ?_⟩
      · simpa [pollRounds, installs] using hround.shows
      · simpa [pollRounds, installs] using hround.heap
      · exact fun live hkeeps hlive => (hround.final live hkeeps hlive).2
    | succ i =>
      have hi : i < ps.length := by simpa using hi
      obtain ⟨r, new', hr, hstop, hnew', hshows, hheap, hcur, hfinal⟩ :=
        ih hps hinc (fun q hq => (hpp q hq).length_le) hself₁ hoff₁ i hi
      refine ⟨r, new ++ new', hr, hstop, ?_, ?_, ?_, hcur, fun live hkeeps hlive => ?_⟩
      · rw [List.getElem_cons_succ, hnew', hnew, List.append_assoc]
      · simp only [pollRounds, installs, List.take_succ_cons, List.flatMap_cons, List.map_append]
        rw [hround.shows]
        exact congrArg _ hshows
      · rw [hheap]
        simp only [pollRounds, installs, List.take_succ_cons, List.flatMap_cons, List.getLast?_append]
        cases (List.flatMap _ _).getLast? with
        | none => exact hround.heap
        | some w₁ => rfl
      · obtain ⟨hlive₁, hshows₁⟩ := hround.final live hkeeps hlive
        rw [hfinal live hkeeps hlive₁, hshows₁, showsAfter_append]

end

end Serde
end CmetricsRuby
