import CmetricsRuby.Proofs.Window

/-!
# Explicit and stored offsets

`from_msgpack` starts at the offset it is given, or at the one stored in the Serde. The stored one is a
`size_t`; the one given goes through an `int`, and raises where it does not fit.
-/

namespace CmetricsRuby

/-- What the decoder makes of a window does not depend on the memory. -/
def Library.DecodesAlike (lib : Library) : Prop :=
  ∀ (buf : Bytes) (length offset : Nat) (mem mem' : lib.Mem),
    let r := lib.cmtDecodeMsgpackCreate buf length offset mem
    let r' := lib.cmtDecodeMsgpackCreate buf length offset mem'
    r.1.ret = r'.1.ret ∧ (r.1.ret = 0 → r.1.offset = r'.1.offset ∧
      r.1.cmt.map (lib.cmt r.2) = r'.1.cmt.map (lib.cmt r'.2))

/-- An Integer: a Fixnum where it fits. -/
def integer (n : Int) : Value :=
  if h : -2 ^ 62 ≤ n ∧ n < 2 ^ 62 then .fixnum ⟨n, h.1, h.2⟩ else .bignum n

namespace Serde

variable {lib : Library} {E : Type} {id₁ id₂ : ObjId} {w₁ w₂ : World lib E} {s₁ s₂ : CMetricsSerde lib}
  {B : Bytes} {o : Nat}

/-- Two calls end alike, and where they decode a record, they leave the two Serdes at the same one. -/
structure SameRecord (id₁ id₂ : ObjId) (r₁ r₂ : EStateM.Result Exit (World lib E) Value) : Prop where
  outcome : outcomeOf r₁ = outcomeOf r₂
  record : outcomeOf r₁ = .ok .true → (stateOf r₁).shows id₁ = (stateOf r₂).shows id₂

theorem sameRecord_raised {e : Exit} : SameRecord id₁ id₂ (.error e w₁) (.error e w₂) :=
  ⟨rfl, nofun⟩

theorem integer_of_lt (h : o < 2 ^ 31) : ∃ n : Fixnum, integer o = .fixnum n ∧ n.val = o := by
  have hfix : -2 ^ 62 ≤ (o : Int) ∧ (o : Int) < 2 ^ 62 := by omega
  exact ⟨⟨o, hfix.1, hfix.2⟩, dif_pos hfix, rfl⟩

theorem msgpackOffset_integer (stored : Nat) (h : o < 2 ^ 31) :
    msgpackOffset (integer o) stored = .ok o := by
  obtain ⟨n, hn, hval⟩ := integer_of_lt h
  have hin : ¬ OutsideInt (some n) := by
    show ¬ (n.val < -2 ^ 31 ∨ 2 ^ 31 ≤ n.val)
    omega
  have hoff : startOffset stored (some n) = o := by
    show (n.val % 2 ^ 64).toNat = o
    omega
  rw [hn]
  exact (msgpackOffset_inside hin).trans (congrArg Except.ok hoff)

theorem msgpackOffset_integer_big (stored : Nat) (h : 2 ^ 31 ≤ o) :
    ∃ cls msg, cls ≠ .runtimeError ∧ msgpackOffset (integer o) stored = .error (.raised cls msg) := by
  by_cases hfix : -2 ^ 62 ≤ (o : Int) ∧ (o : Int) < 2 ^ 62
  · have hout : OutsideInt (some ⟨o, hfix.1, hfix.2⟩) := .inr (show (2 ^ 31 : Int) ≤ o by omega)
    obtain ⟨msg, hmsg⟩ := msgpackOffset_outside stored hout
    refine ⟨.rangeError, msg, by decide, ?_⟩
    rw [integer, dif_pos hfix]
    exact hmsg
  · refine ⟨.typeError, "wrong argument type (expected Integer)", by decide, ?_⟩
    rw [integer, dif_neg hfix]
    rfl

theorem msgpackCall_offset (f : Nat → Nat) (B : Bytes) (v : Value) (stored : Nat) :
    msgpackCall f [.string B, .nil, v] stored = (do
      let offset ← msgpackOffset v stored
      if B.length ≤ offset then
        rbRaise .runtimeError "offset should be smaller than msgpack buffer size."
      else return ⟨B, B.length, offset⟩) := by
  show msgpackWindow f (.string B) .nil v stored = _
  unfold msgpackWindow
  show (msgpackOffset v stored >>= _) = _
  cases msgpackOffset v stored <;> rfl

/-- One decoder call, for two Serdes. -/
theorem sameRecord_decode (hlib : lib.DecodesAlike) (c : DecodeCall) :
    SameRecord id₁ id₂
      ((do let offset ← decodeInto id₁ c; return if offset.isSome then .true else .nil :
        M lib E Value).run w₁)
      ((do let offset ← decodeInto id₂ c; return if offset.isSome then .true else .nil :
        M lib E Value).run w₂) := by
  obtain ⟨hret, hrecord⟩ := hlib c.buf c.length c.offset w₁.mem w₂.mem
  by_cases h : (lib.cmtDecodeMsgpackCreate c.buf c.length c.offset w₁.mem).1.ret = 0
  · obtain ⟨hoff, hcmt⟩ := hrecord h
    have h' := hret.symm.trans h
    refine ⟨?_, fun _ => ?_⟩
    · simp [run_decodeInto, h, h']
    · simp [run_decodeInto, h, h', World.shows, hoff, hcmt]
  · have h' : (lib.cmtDecodeMsgpackCreate c.buf c.length c.offset w₂.mem).1.ret ≠ 0 :=
      fun h' => h (hret.trans h')
    refine ⟨?_, fun hok => ?_⟩
    · simp [run_decodeInto, h, h']
    · simp [run_decodeInto, h] at hok

theorem outcome_ne_raised {cls : ExcClass} {msg : String} (h₁ : w₁.heap id₁ = .serde s₁)
    (hcls : cls ≠ .runtimeError) :
    outcomeOf ((fromMsgpack [.string B] id₁).run w₁) ≠ .error (.raised cls msg) := by
  rw [run_fromMsgpack_string h₁]
  split
  · rw [outcomeOf_error]
    intro h
    cases h
    exact hcls rfl
  · by_cases hret : (lib.cmtDecodeMsgpackCreate B B.length s₁.unpackMsgpackOffset w₁.mem).1.ret = 0 <;>
      simp [run_decodeInto, hret]

theorem not_sameRecord_of_le (h₁ : w₁.heap id₁ = .serde s₁) (h₂ : w₂.heap id₂ = .serde s₂)
    (hbig : 2 ^ 31 ≤ o) : ¬ SameRecord id₁ id₂ ((fromMsgpack [.string B] id₁).run w₁)
      ((fromMsgpack [.string B, .nil, integer o] id₂).run w₂) := by
  intro h
  obtain ⟨cls, msg, hcls, hoff⟩ := msgpackOffset_integer_big s₂.unpackMsgpackOffset hbig
  have hcall : msgpackCall lib.rbUint2big [.string B, .nil, integer o] s₂.unpackMsgpackOffset =
      .error (.raised cls msg) := by
    rw [msgpackCall_offset, hoff]
    rfl
  have hout := h.outcome
  rw [run_fromMsgpack_error h₂ hcall] at hout
  exact outcome_ne_raised h₁ hcls hout

/-- The given and the stored offset `o` address the same record exactly when `o` fits an `int`. -/
theorem offsets_agree_iff (hlib : lib.DecodesAlike) (h₁ : w₁.heap id₁ = .serde s₁)
    (h₂ : w₂.heap id₂ = .serde s₂) (ho : s₁.unpackMsgpackOffset = o) :
    SameRecord id₁ id₂ ((fromMsgpack [.string B] id₁).run w₁)
      ((fromMsgpack [.string B, .nil, integer o] id₂).run w₂) ↔ o < 2 ^ 31 := by
  constructor
  · intro h
    by_contra hbig
    exact not_sameRecord_of_le h₁ h₂ (not_lt.1 hbig) h
  · intro hlt
    have hcall := msgpackCall_offset lib.rbUint2big B (integer o) s₂.unpackMsgpackOffset
    rw [msgpackOffset_integer s₂.unpackMsgpackOffset hlt, ok_bind] at hcall
    rw [run_fromMsgpack_string h₁, ho]
    by_cases hend : B.length ≤ o
    · rw [if_pos hend] at hcall ⊢
      rw [run_fromMsgpack_error h₂ hcall]
      exact sameRecord_raised
    · rw [if_neg hend] at hcall ⊢
      rw [run_fromMsgpack h₂, hcall]
      exact sameRecord_decode hlib ⟨B, B.length, o⟩

open Reference (wire start)

theorem decodesAlike (x : Bytes) : (reference x).DecodesAlike := by
  intro buf length offset mem mem'
  show (Reference.decodeMsgpackCreate Reference.known buf length offset mem).1.ret =
      (Reference.decodeMsgpackCreate Reference.known buf length offset mem').1.ret ∧ _
  cases hd : Reference.decodeOf Reference.known ((buf.take length).drop offset) with
  | none => exact ⟨by simp [Reference.decodeMsgpackCreate, hd], fun hret =>
      absurd hret (Reference.decodeMsgpackCreate_none mem hd)⟩
  | some p =>
    obtain ⟨hret, hoff, ctx, hctx, hc⟩ := Reference.decodeMsgpackCreate_some mem hd
    obtain ⟨hret', hoff', ctx', hctx', hc'⟩ := Reference.decodeMsgpackCreate_some mem' hd
    refine ⟨hret.trans hret'.symm, fun _ => ⟨hoff.trans hoff'.symm, ?_⟩⟩
    show (Reference.decodeMsgpackCreate Reference.known buf length offset mem).1.cmt.map _ =
      (Reference.decodeMsgpackCreate Reference.known buf length offset mem').1.cmt.map _
    rw [hctx, hctx']
    exact congrArg some (hc.trans hc'.symm)

/-- The second of two records, from a Serde that is there and from a new one. -/
theorem offsets_agree_second :
    SameRecord 0 1
      ((fromMsgpack [.string (wire ++ wire)] 0).run (start [] () [.serde ⟨none, 63⟩, .serde ⟨none, 0⟩]))
      ((fromMsgpack [.string (wire ++ wire), .nil, integer (63 : Nat)] 1).run
        (start [] () [.serde ⟨none, 63⟩, .serde ⟨none, 0⟩])) := by
  have h₁ : (start [] () [.serde ⟨none, 63⟩, .serde ⟨none, 0⟩]).heap 0 = .serde ⟨none, 63⟩ := rfl
  have h₂ : (start [] () [.serde ⟨none, 63⟩, .serde ⟨none, 0⟩]).heap 1 = .serde ⟨none, 0⟩ := rfl
  exact (offsets_agree_iff (decodesAlike []) h₁ h₂ rfl).2 (by decide)

/-- A record behind 2 GiB of other bytes. -/
theorem offsets_differ :
    let B := List.replicate (2 ^ 31) 0xc1 ++ wire
    let w := start [] () [.serde ⟨none, 2 ^ 31⟩, .serde ⟨none, 0⟩]
    2 ^ 31 ≤ B.length ∧ ¬ SameRecord 0 1 ((fromMsgpack [.string B] 0).run w)
      ((fromMsgpack [.string B, .nil, integer ((2 ^ 31 : Nat) : Int)] 1).run w) := by
  intro B w
  have hlen : 2 ^ 31 ≤ B.length := by
    show _ ≤ (List.replicate (2 ^ 31) 0xc1 ++ wire).length
    rw [List.length_append, List.length_replicate]
    omega
  have h₁ : w.heap 0 = .serde ⟨none, 2 ^ 31⟩ := rfl
  have h₂ : w.heap 1 = .serde ⟨none, 0⟩ := rfl
  exact ⟨hlen, not_sameRecord_of_le h₁ h₂ le_rfl⟩

end Serde
end CmetricsRuby
