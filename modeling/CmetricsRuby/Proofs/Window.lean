import CmetricsRuby.Reference

/-!
# The window `from_msgpack` hands to the decoder

`WindowSafe` is what a caller relies on: the decoder only ever sees a part of a String. With no
length given it holds for every String. A length `n` that is given is turned into `4 * n + 3`, so
there it holds when the call is refused before the decoder is reached.
-/

namespace CmetricsRuby
namespace Serde

variable {lib : Library} {E : Type} {self : ObjId} {w : World lib E} {s : CMetricsSerde lib}

/-- The arguments of `from_msgpack`; the two numbers may be absent. -/
structure MsgpackArgs where
  buffer : Value
  length : Option Fixnum
  offset : Option Fixnum

def optFixnum : Option Fixnum → Value
  | none => .nil
  | some n => .fixnum n

/-- An absent argument is left out, or given as `nil`. -/
inductive MsgpackArgs.SentAs : MsgpackArgs → List Value → Prop
  | one (buffer) : SentAs ⟨buffer, none, none⟩ [buffer]
  | two (buffer length) : SentAs ⟨buffer, length, none⟩ [buffer, optFixnum length]
  | three (buffer length offset) :
      SentAs ⟨buffer, length, offset⟩ [buffer, optFixnum length, optFixnum offset]

def decodeCalls (log : List (LibCall lib)) : List DecodeCall :=
  log.filterMap fun
    | .decode buf length offset _ _ => some ⟨buf, length, offset⟩
    | _ => none

def newDecodes (w : World lib E) (r : EStateM.Result Exit (World lib E) Value) : List DecodeCall :=
  decodeCalls ((stateOf r).log.drop w.log.length)

structure WindowSafe (a : MsgpackArgs) (w : World lib E)
    (r : EStateM.Result Exit (World lib E) Value) : Prop where
  window : ∀ c ∈ newDecodes w r, a.buffer = .string c.buf ∧ c.offset < c.length ∧
    c.length ≤ c.buf.length ∧ ∀ n, a.length = some n → (c.length : Int) ≤ n.val
  raises : newDecodes w r = [] → ∃ cls msg w', r = .error (.raised cls msg) w'
  nilBuffer : a.buffer = .nil → ∃ msg w', r = .error (.raised .argError msg) w'

/-- What the code takes a given length `n` for: `4 * n + 3`, or the address of a Bignum. -/
def lengthTaken (rbUint2big : Nat → Nat) (n : Fixnum) : Nat :=
  if 0 ≤ n.val ∧ n.val < 2 ^ 61 then (4 * n.val + 3).toNat else rbUint2big n.word

def startOffset (stored : Nat) : Option Fixnum → Nat
  | none => stored
  | some o => toSizeT o.val

def OutsideInt : Option Fixnum → Prop
  | none => False
  | some o => o.val < -2 ^ 31 ∨ 2 ^ 31 ≤ o.val

/-- A call that works with `length` ends before the buffer is looked at. -/
def Refused (length stored : Nat) (o : Option Fixnum) : Prop :=
  OutsideInt o ∨ length ≤ startOffset stored o

/-- A buffer that is safe to go on with when the length `n` is given and not refused. -/
def Harmless (rbUint2big : Nat → Nat) (n : Fixnum) : Value → Prop
  | .string b => 2 ^ 61 ≤ n.val ∧ rbUint2big n.word ≤ b.length ∧ (rbUint2big n.word : Int) ≤ n.val
  | .other (some _) => False
  | _ => True

def WindowHolds (rbUint2big : Nat → Nat) (stored : Nat) (a : MsgpackArgs) : Prop :=
  match a.length with
  | none => ∃ b, a.buffer = .string b
  | some n =>
    (Refused (lengthTaken rbUint2big n) stored a.offset ∧ a.buffer ≠ .nil) ∨
      (¬ Refused (lengthTaken rbUint2big n) stored a.offset ∧ Harmless rbUint2big n a.buffer)

/-! ### The call the arguments come to -/

section
variable {f : Nat → Nat} {stored : Nat} {n : Fixnum} {o : Option Fixnum} {v : Value}

theorem ulong2num_word (f : Nat → Nat) (n : Fixnum) : ulong2num f n.word = lengthTaken f n := by
  have hlo := n.lo
  have hhi := n.hi
  unfold ulong2num lengthTaken Fixnum.word
  split <;> split <;> omega

theorem msgpackCall_of_sentAs {a : MsgpackArgs} {argv : List Value} (h : a.SentAs argv) :
    msgpackCall f argv stored =
      msgpackWindow f a.buffer (optFixnum a.length) (optFixnum a.offset) stored := by
  cases h <;> rfl

theorem msgpackLength_given (v : Value) (n : Fixnum) :
    msgpackLength f v (.fixnum n) = .ok (lengthTaken f n) := by
  simp [msgpackLength, Value.isNil, checkTypeFixnum, ulong2num_word, pure, Except.pure]

theorem msgpackOffset_fixnum (o : Fixnum) :
    msgpackOffset (.fixnum o) stored = (do return toSizeT (← num2int o)) := rfl

theorem msgpackOffset_outside (stored : Nat) (h : OutsideInt o) :
    ∃ msg, msgpackOffset (optFixnum o) stored = .error (.raised .rangeError msg) := by
  cases o with
  | none => exact h.elim
  | some o =>
    have h : o.val < -2 ^ 31 ∨ 2 ^ 31 ≤ o.val := h
    simp only [optFixnum, msgpackOffset_fixnum, num2int, rbRaise]
    split
    · exact ⟨_, rfl⟩
    · rw [if_pos (by omega)]
      exact ⟨_, rfl⟩

theorem msgpackOffset_inside (h : ¬ OutsideInt o) :
    msgpackOffset (optFixnum o) stored = .ok (startOffset stored o) := by
  cases o with
  | none => rfl
  | some o =>
    have h : ¬ (o.val < -2 ^ 31 ∨ 2 ^ 31 ≤ o.val) := h
    simp only [optFixnum, msgpackOffset_fixnum, num2int]
    rw [if_neg (by omega), if_neg (by omega)]
    rfl

variable {l : Value} {length : Nat}

theorem rstringLen_eq_undefined (h : ¬ ∃ b, v = .string b) : rstringLen v = .error .undefined := by
  cases v with
  | string b => exact absurd ⟨b, rfl⟩ h
  | _ => rfl

theorem msgpackWindow_length_error {e : Exit} (hl : msgpackLength f v l = .error e) :
    msgpackWindow f v l (optFixnum o) stored = .error e := by
  simp [msgpackWindow, hl]

theorem msgpackWindow_refused (hl : msgpackLength f v l = .ok length) (h : Refused length stored o) :
    ∃ cls msg, cls ≠ .argError ∧ msgpackWindow f v l (optFixnum o) stored = .error (.raised cls msg) := by
  by_cases ho : OutsideInt o
  · obtain ⟨msg, hmsg⟩ := msgpackOffset_outside stored ho
    exact ⟨.rangeError, msg, by decide, by simp [msgpackWindow, hl, hmsg]⟩
  · have hle : length ≤ startOffset stored o := h.resolve_left ho
    exact ⟨.runtimeError, "offset should be smaller than msgpack buffer size.", by decide, by
      simp [msgpackWindow, hl, msgpackOffset_inside ho, hle, rbRaise]⟩

theorem msgpackWindow_not_refused (hl : msgpackLength f v l = .ok length)
    (h : ¬ Refused length stored o) : msgpackWindow f v l (optFixnum o) stored =
      if v.isNil then rbRaise .argError "nil is not valid value for buffer"
      else do return ⟨← stringValuePtr v, length, startOffset stored o⟩ := by
  obtain ⟨ho, hlt⟩ := not_or.1 h
  simp [msgpackWindow, hl, msgpackOffset_inside ho, hlt]

end

/-! ### What a call does -/

section
variable {a : MsgpackArgs} {argv : List Value} {c : DecodeCall} {cls : ExcClass} {msg : String} {e : Exit}

theorem newDecodes_error (e : Exit) : newDecodes w (.error e w) = [] := by
  simp [newDecodes, decodeCalls]

theorem windowSafe_raised :
    WindowSafe a w (.error (.raised cls msg) w) ↔ (a.buffer = .nil → cls = .argError) := by
  constructor
  · intro h hnil
    obtain ⟨_, _, hr⟩ := h.nilBuffer hnil
    cases hr
    rfl
  · intro h
    refine ⟨fun c hc => ?_, fun _ => ⟨_, _, _, rfl⟩, fun hnil => ⟨msg, w, by rw [h hnil]⟩⟩
    rw [newDecodes_error] at hc
    cases hc

theorem not_windowSafe_undefined : ¬ WindowSafe a w (.error .undefined w) := by
  intro h
  obtain ⟨_, _, _, hr⟩ := h.raises (newDecodes_error _)
  cases hr

theorem run_fromMsgpack_error (hself : w.heap self = .serde s)
    (hc : msgpackCall lib.rbUint2big argv s.unpackMsgpackOffset = .error e) :
    (fromMsgpack argv self).run w = .error e w := by
  simp [run_fromMsgpack hself, hc]

theorem run_fromMsgpack_call (hself : w.heap self = .serde s)
    (hc : msgpackCall lib.rbUint2big argv s.unpackMsgpackOffset = .ok c) :
    ∃ v w', (fromMsgpack argv self).run w = .ok v w' ∧ newDecodes w (.ok v w') = [c] := by
  by_cases hret : (lib.cmtDecodeMsgpackCreate c.buf c.length c.offset w.mem).1.ret = 0 <;>
    simp [run_fromMsgpack hself, hc, run_decodeInto, hret, newDecodes, decodeCalls]

theorem windowSafe_call {v : Value} {w' : World lib E} (hnew : newDecodes w (.ok v w') = [c]) :
    WindowSafe a w (.ok v w') ↔ a.buffer = .string c.buf ∧ c.offset < c.length ∧
      c.length ≤ c.buf.length ∧ ∀ n, a.length = some n → (c.length : Int) ≤ n.val := by
  constructor
  · intro h
    exact h.window c (by rw [hnew]; exact List.mem_singleton_self c)
  · intro h
    refine ⟨fun c' hc' => ?_, fun hnil => ?_, fun hnil => ?_⟩
    · rw [hnew, List.mem_singleton] at hc'
      rwa [hc']
    · rw [hnew] at hnil
      cases hnil
    · rw [hnil] at h
      cases h.1

end

/-! ### When the window is safe -/

/-- What makes a call that works with `length` and is not refused a safe one. -/
def GoesOn (length : Nat) (given : Option Fixnum) : Value → Prop
  | .string b => length ≤ b.length ∧ ∀ n, given = some n → (length : Int) ≤ n.val
  | .other (some _) => False
  | _ => True

section
variable {a : MsgpackArgs} {argv : List Value} {length : Nat}

theorem windowSafe_refused (hself : w.heap self = .serde s) (hargv : a.SentAs argv)
    (hl : msgpackLength lib.rbUint2big a.buffer (optFixnum a.length) = .ok length)
    (h : Refused length s.unpackMsgpackOffset a.offset) :
    WindowSafe a w ((fromMsgpack argv self).run w) ↔ a.buffer ≠ .nil := by
  obtain ⟨cls, msg, hcls, hc⟩ := msgpackWindow_refused (v := a.buffer) hl h
  rw [run_fromMsgpack_error hself ((msgpackCall_of_sentAs hargv).trans hc), windowSafe_raised]
  exact ⟨fun h hnil => hcls (h hnil), fun h hnil => absurd hnil h⟩

theorem windowSafe_not_refused (hself : w.heap self = .serde s) (hargv : a.SentAs argv)
    (hl : msgpackLength lib.rbUint2big a.buffer (optFixnum a.length) = .ok length)
    (h : ¬ Refused length s.unpackMsgpackOffset a.offset) :
    WindowSafe a w ((fromMsgpack argv self).run w) ↔ GoesOn length a.length a.buffer := by
  have hc := (msgpackCall_of_sentAs hargv).trans (msgpackWindow_not_refused (v := a.buffer) hl h)
  have hlt : startOffset s.unpackMsgpackOffset a.offset < length := by
    have := (not_or.1 h).2
    omega
  have called : ∀ b, stringValuePtr a.buffer = .ok b → (WindowSafe a w ((fromMsgpack argv self).run w) ↔
      a.buffer = .string b ∧ length ≤ b.length ∧ ∀ n, a.length = some n → (length : Int) ≤ n.val) := by
    intro b hb
    have hnil : a.buffer.isNil = false := by
      cases hv : a.buffer <;> simp_all [stringValuePtr, rbRaise, Value.isNil]
    rw [hnil, hb] at hc
    obtain ⟨v, w', hrun, hnew⟩ := run_fromMsgpack_call hself hc
    rw [hrun, windowSafe_call hnew]
    simp [hlt]
  have raised : ∀ cls msg, msgpackCall lib.rbUint2big argv s.unpackMsgpackOffset =
      .error (.raised cls msg) → (a.buffer = .nil → cls = .argError) →
      WindowSafe a w ((fromMsgpack argv self).run w) := by
    intro cls msg hc hcls
    rw [run_fromMsgpack_error hself hc]
    exact windowSafe_raised.2 hcls
  obtain ⟨buffer, given, o⟩ := a
  cases buffer with
  | string b => simpa [GoesOn] using called b rfl
  | nil => exact iff_of_true (raised _ _ hc fun _ => rfl) trivial
  | other toStr =>
    cases toStr with
    | none => exact iff_of_true (raised _ _ hc (by simp)) trivial
    | some b => simpa [GoesOn] using called b rfl
  | _ => exact iff_of_true (raised _ _ hc (by simp)) trivial

/-- No number is at least `4 * n + 3` and at most `n`. -/
theorem goesOn_given (n : Fixnum) (v : Value) :
    GoesOn (lengthTaken lib.rbUint2big n) (some n) v ↔ Harmless lib.rbUint2big n v := by
  cases v with
  | string b =>
    simp only [GoesOn, Harmless, lengthTaken, Option.some.injEq, forall_eq']
    split <;> omega
  | other toStr => cases toStr <;> exact Iff.rfl
  | _ => exact Iff.rfl

end

theorem fromMsgpack_window_iff (hself : w.heap self = .serde s) {a : MsgpackArgs} {argv : List Value}
    (hargv : a.SentAs argv) : WindowSafe a w ((fromMsgpack argv self).run w) ↔
      WindowHolds lib.rbUint2big s.unpackMsgpackOffset a := by
  obtain ⟨buffer, given, o⟩ := a
  cases given with
  | some n =>
    have hl := msgpackLength_given (f := lib.rbUint2big) buffer n
    by_cases h : Refused (lengthTaken lib.rbUint2big n) s.unpackMsgpackOffset o
    · simp [windowSafe_refused hself hargv hl h, WindowHolds, h]
    · simp [windowSafe_not_refused hself hargv hl h, WindowHolds, h, goesOn_given]
  | none =>
    by_cases hb : ∃ b, buffer = .string b
    · obtain ⟨b, rfl⟩ := hb
      have hl : msgpackLength lib.rbUint2big (.string b) (optFixnum none) = .ok b.length := rfl
      refine iff_of_true ?_ ⟨b, rfl⟩
      by_cases h : Refused b.length s.unpackMsgpackOffset o
      · exact (windowSafe_refused hself hargv hl h).2 nofun
      · exact (windowSafe_not_refused hself hargv hl h).2 (by simp [GoesOn])
    · -- the length field of something that is not a String is read
      have hl : msgpackLength lib.rbUint2big buffer (optFixnum none) = .error .undefined :=
        rstringLen_eq_undefined hb
      rw [run_fromMsgpack_error hself
        ((msgpackCall_of_sentAs hargv).trans (msgpackWindow_length_error hl))]
      exact iff_of_false not_windowSafe_undefined hb

theorem fromMsgpack_window_record :
    WindowSafe ⟨.string Reference.wire, none, none⟩ (Reference.newSerde [] ())
      ((fromMsgpack [.string Reference.wire] 0).run (Reference.newSerde [] ())) := by
  have h := fromMsgpack_window_iff (Reference.newSerde_heap [] ()) (.one (.string Reference.wire))
  exact h.2 ⟨Reference.wire, rfl⟩

/-- `from_msgpack("\x81", 1)` has the decoder read 7 bytes. -/
theorem fromMsgpack_reads_past_end :
    ¬ WindowSafe ⟨.string [0x81], some ⟨1, by decide, by decide⟩, none⟩ (Reference.newSerde [] ())
      ((fromMsgpack [.string [0x81], .fixnum ⟨1, by decide, by decide⟩] 0).run
        (Reference.newSerde [] ())) := by
  intro h
  have := h.window ⟨[0x81], 7, 0⟩ (List.mem_singleton_self _)
  revert this
  simp

end Serde
end CmetricsRuby
