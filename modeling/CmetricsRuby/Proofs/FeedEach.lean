import CmetricsRuby.Reference

/-!
# `feed_each` and its block

Two things a caller may expect of `feed_each`. Without a block it returns an Enumerator, but the String is
not recorded in it, so running it raises. And the loop keeps the length the String had at first, so its
windows lie in the String as long as the block does not make the String shorter.
-/

-- for the runs over the reference library
set_option maxRecDepth 4000

namespace CmetricsRuby

/-- A decoder that succeeds on a window of its buffer moves the offset on, and not past the window. -/
def Library.Advances (lib : Library) : Prop :=
  ∀ (buf : Bytes) (length offset : Nat) (mem : lib.Mem), offset ≤ length → length ≤ buf.length →
    let r := (lib.cmtDecodeMsgpackCreate buf length offset mem).1
    r.ret = 0 → offset < r.offset ∧ r.offset ≤ length

namespace Serde

variable {lib : Library} {E : Type} {self : ObjId} {w : World lib E} {s : CMetricsSerde lib}
  {bytes : E → Bytes} {block : Block lib E} {fuel length offset : Nat}

/-- How a turn of the loop ends: the decoder fails, or the block leaves, or the loop goes on behind the
record. -/
theorem feedLoop_turn (self : ObjId) (bytes : E → Bytes) (block : Block lib E) (fuel : Nat)
    (w : World lib E) (hoff : offset ≤ length) :
    let call : DecodeCall := ⟨bytes w.env, length, offset⟩
    let d := (lib.cmtDecodeMsgpackCreate (bytes w.env) length offset w.mem).1
    let r := feedLoop self bytes length block (fuel + 1) offset w
    (d.ret ≠ 0 ∧ ∃ w₁, r = ⟨.ok .nil w₁, [call], []⟩) ∨
    (d.ret = 0 ∧ ∃ w₁ e w₂, block.run w₁ = .error e w₂ ∧ r = ⟨.error e w₂, [call], [w₁]⟩) ∨
    (d.ret = 0 ∧ ∃ w₁ w₂, block.run w₁ = .ok () w₂ ∧
      let rest := feedLoop self bytes length block fuel d.offset w₂
      r = ⟨rest.result, call :: rest.decodes, w₁ :: rest.yields⟩) := by
  intro call d r
  have hr : r = feedLoop self bytes length block (fuel + 1) offset w := rfl
  rw [feedLoop, if_pos hoff] at hr
  simp only [run_decodeInto] at hr
  by_cases hret : d.ret = 0
  · right
    simp only [if_pos (show (lib.cmtDecodeMsgpackCreate (bytes w.env) length offset w.mem).1.ret = 0 from
      hret)] at hr
    split at hr
    · rename_i e w₂ hb
      exact .inl ⟨hret, _, e, w₂, hb, hr⟩
    · rename_i u w₂ hb
      exact .inr ⟨hret, _, w₂, hb, hr⟩
  · left
    simp only [if_neg (show (lib.cmtDecodeMsgpackCreate (bytes w.env) length offset w.mem).1.ret ≠ 0 from
      hret)] at hr
    exact ⟨hret, _, hr⟩

/-! ### Without a block -/

/-- What can be seen of a call of `feed_each` on a Serde: how it ends, where it leaves the Serde, and
where the Serde is each time the block is called. -/
structure FeedRun.SameAs (id : ObjId) (r r' : FeedRun lib E) : Prop where
  outcome : outcomeOf r.result = outcomeOf r'.result
  final : (stateOf r.result).shows id = (stateOf r'.result).shows id
  yields : r.yields.map (·.shows id) = r'.yields.map (·.shows id)

/-- Without a block `feed_each` returns an Enumerator that, run with a block, does what `feed_each` does
with that block. -/
def Deferred (fuel : Nat) (self : ObjId) (bytes : E → Bytes) (block : Block lib E) (w : World lib E) :
    Prop :=
  ∃ enum w₁, (feedEach fuel self (.string bytes) none w).result = .ok enum w₁ ∧
    (enumeratorEach fuel enum block w₁).SameAs self (feedEach fuel self (.string bytes) (some block) w)

/-- A pass that calls no block returns, or runs out of fuel. -/
theorem feedLoop_of_no_yield (h : (feedLoop self bytes length block fuel offset w).yields = []) :
    outcomeOf (feedLoop self bytes length block fuel offset w).result = .ok .nil ∨
      outcomeOf (feedLoop self bytes length block fuel offset w).result = .error .diverged := by
  cases fuel with
  | zero => exact .inr rfl
  | succ fuel =>
    by_cases hoff : offset ≤ length
    · rcases feedLoop_turn self bytes block fuel w hoff with
        ⟨-, w₁, hr⟩ | ⟨-, w₁, e, w₂, -, hr⟩ | ⟨-, w₁, w₂, -, hr⟩
      · rw [hr]
        exact .inl rfl
      · rw [hr] at h
        cases h
      · rw [hr] at h
        cases h
    · rw [feedLoop, if_neg hoff]
      exact .inl rfl

theorem enumeratorEach_feedEach (fuel : Nat) (self : ObjId) (block : Block lib E) (w : World lib E) :
    enumeratorEach fuel (.enumerator self "feed_each" []) block w =
      .ofResult (.error (.raised .argError "wrong number of arguments") w) := rfl

/-- For no String, Serde and block does the Enumerator do what `feed_each` does with the block. -/
theorem feedEach_not_deferred (hself : w.heap self = .serde s) (fuel : Nat) (bytes : E → Bytes)
    (block : Block lib E) : ¬ Deferred fuel self bytes block w := by
  rintro ⟨enum, w₁, henum, hsame⟩
  cases henum
  have hrun : feedEach fuel self (.string bytes) (some block) w =
      feedLoop self bytes (bytes w.env).length block fuel 0 w := by
    simp only [feedEach, fromMsgpackFeedEachImpl, run_serdeStruct hself]
  rw [enumeratorEach_feedEach, hrun] at hsame
  have hnone := List.map_eq_nil_iff.1 hsame.yields.symm
  have hout := hsame.outcome
  rcases feedLoop_of_no_yield hnone with h | h
  · rw [h] at hout
    cases hout
  · rw [h] at hout
    cases hout

open Reference (wire newSerde newSerde_heap)

/-- Not even for a String with no record in it. -/
theorem feedEach_not_deferred_stray :
    ¬ Deferred 200 0 (fun _ => [0xc1]) (fun w => .ok () w) (newSerde [] ()) :=
  feedEach_not_deferred (newSerde_heap [] ()) 200 _ _

/-- `feed_each` of one record calls its block once; the Enumerator never calls it. -/
theorem enumerator_yields_nothing :
    let w := newSerde [] ()
    let block : Block (reference []) Unit := fun w => .ok () w
    (feedEach 200 0 (.string fun _ => wire) (some block) w).yields.length = 1 ∧
      ¬ Deferred 200 0 (fun _ => wire) block w := by
  intro w block
  have hone : (feedEach 200 0 (.string fun _ => wire) (some block) w).yields.length = 1 := rfl
  refine ⟨hone, ?_⟩
  rintro ⟨enum, w₁, henum, hsame⟩
  cases henum
  have hlen := congrArg List.length hsame.yields
  rw [enumeratorEach_feedEach, List.length_map, List.length_map, hone] at hlen
  cases hlen

/-! ### A block that changes the String -/

/-- Every decoder call is given a window that lies in what the String holds at that moment. -/
def InBounds (r : FeedRun lib E) : Prop := ∀ c ∈ r.decodes, c.length ≤ c.buf.length ∧ c.offset ≤ c.length

theorem mem_feedLoop_decodes (hoff : offset ≤ length) :
    ⟨bytes w.env, length, offset⟩ ∈ (feedLoop self bytes length block (fuel + 1) offset w).decodes := by
  rcases feedLoop_turn self bytes block fuel w hoff with
    ⟨-, w₁, hr⟩ | ⟨-, w₁, e, w₂, -, hr⟩ | ⟨-, w₁, w₂, -, hr⟩ <;>
  · rw [hr]
    exact List.mem_cons_self ..

theorem feedLoop_inBounds_iff (hlib : lib.Advances) (hoff : offset ≤ length) (hfuel : length < fuel + offset)
    (hlen : length ≤ (bytes w.env).length) :
    InBounds (feedLoop self bytes length block fuel offset w) ↔
      ∀ w₁ ∈ (feedLoop self bytes length block fuel offset w).yields, ∀ w₂, block.run w₁ = .ok () w₂ →
        length ≤ (bytes w₂.env).length := by
  induction fuel generalizing offset w with
  | zero => omega
  | succ fuel ih =>
    have hcall : length ≤ (bytes w.env).length ∧ offset ≤ length := ⟨hlen, hoff⟩
    rcases feedLoop_turn self bytes block fuel w hoff with
      ⟨-, w₁, hr⟩ | ⟨-, w₁, e, w₂, hb, hr⟩ | ⟨hret, w₁, w₂, hb, hr⟩
    · rw [hr]
      exact iff_of_true (List.forall_mem_singleton.2 hcall) nofun
    · rw [hr]
      refine iff_of_true (List.forall_mem_singleton.2 hcall) (List.forall_mem_singleton.2 fun w₃ h => ?_)
      rw [hb] at h
      cases h
    · obtain ⟨hlt, hle⟩ := hlib _ _ _ w.mem hoff hlen hret
      have hthis : (∀ w₃, block.run w₁ = .ok () w₃ → length ≤ (bytes w₃.env).length) ↔
          length ≤ (bytes w₂.env).length := by
        constructor
        · exact fun h => h w₂ hb
        · intro h w₃ hb'
          rw [hb] at hb'
          cases hb'
          exact h
      rw [hr]
      unfold InBounds at ih ⊢
      rw [List.forall_mem_cons, List.forall_mem_cons, and_iff_right hcall, hthis]
      by_cases hshort : length ≤ (bytes w₂.env).length
      · rw [and_iff_right hshort]
        exact ih hle (by omega) hshort
      · -- the loop goes on, and calls the decoder on the shorter String
        obtain ⟨fuel, rfl⟩ : ∃ n, fuel = n + 1 := ⟨fuel - 1, by omega⟩
        refine iff_of_false (fun h => hshort ?_) fun h => hshort h.1
        exact (h _ (mem_feedLoop_decodes hle)).1

/-- The windows of `feed_each` lie in the String exactly when, each time the block returns, the String is
as long as it was at first or longer. -/
theorem feedEach_inBounds_iff (hlib : lib.Advances) (hself : w.heap self = .serde s) (bytes : E → Bytes)
    (block : Block lib E) (hfuel : (bytes w.env).length < fuel) :
    let r := feedEach fuel self (.string bytes) (some block) w
    InBounds r ↔ ∀ w₁ ∈ r.yields, ∀ w₂, block.run w₁ = .ok () w₂ →
      (bytes w.env).length ≤ (bytes w₂.env).length := by
  simp only [feedEach, fromMsgpackFeedEachImpl, run_serdeStruct hself]
  exact feedLoop_inBounds_iff hlib (Nat.zero_le _) hfuel le_rfl

theorem advances (x : Bytes) : (reference x).Advances := by
  intro buf length offset mem hoff hlen
  let r := (Reference.decodeMsgpackCreate Reference.known buf length offset mem).1
  show r.ret = 0 → offset < r.offset ∧ r.offset ≤ length
  cases hd : Reference.decoder.decode ((buf.take length).drop offset) with
  | none => exact fun hret => absurd hret (Reference.decodeMsgpackCreate_none mem hd)
  | some p =>
    obtain ⟨-, hend, -⟩ := Reference.decodeMsgpackCreate_some mem hd
    have hpos := Reference.decoder.pos hd
    have hle := Reference.decoder.drop_length_le hd
    rw [List.length_take] at hle
    intro _
    show offset < r.offset ∧ r.offset ≤ length
    rw [hend]
    omega

/-- A block that replaces the String with a longer one. -/
theorem feedEach_inBounds_longer :
    InBounds (feedEach 200 0 (.string id) (some fun w => .ok () { w with env := wire ++ wire })
      (newSerde [] wire)) := by
  refine (feedEach_inBounds_iff (advances []) (newSerde_heap [] wire) id _ (by decide)).2 ?_
  intro w₁ _ w₂ h
  cases h
  show wire.length ≤ (wire ++ wire).length
  decide

/-- A block that clears the String: the second window is 126 bytes of an empty String. -/
theorem feedEach_clear_out_of_bounds :
    ¬ InBounds (feedEach 200 0 (.string id) (some fun w => .ok () { w with env := [] })
      (newSerde [] (wire ++ wire))) := by
  intro h
  have hmem : (⟨[], 126, 63⟩ : DecodeCall) ∈ (feedEach 200 0 (.string id)
      (some fun w => .ok () { w with env := [] }) (newSerde [] (wire ++ wire))).decodes := by
    exact List.mem_cons_of_mem _ (List.mem_cons_self ..)
  exact absurd (h _ hmem).1 (by decide)

end Serde
end CmetricsRuby
