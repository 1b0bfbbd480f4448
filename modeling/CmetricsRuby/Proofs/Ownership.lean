import CmetricsRuby.System
import CmetricsRuby.Reference
import CmetricsRuby.Base.Account

/-!
# Who owns a context

The contexts handed out by `cmt_create` and by a successful decoding, less those destroyed, should be
the one in the Serde. They are, as long as no decoding succeeds on a Serde that has a context already:
that context is overwritten and never destroyed.
-/

-- for the runs over the reference library
set_option maxRecDepth 4000

namespace CmetricsRuby
namespace Serde

open Reference (wire newSerde start)

variable {lib : Library} {E : Type} {self : ObjId} {w w' : World lib E} {s : CMetricsSerde lib}

/-- The ledger of contexts; a failing decoding hands out none. -/
def ctxAccount (lib : Library) : Account (LibCall lib) lib.Ctx where
  gains
    | .create (some ctx) => {ctx}
    | .decode _ _ _ ret (some ctx) => if ret = 0 then {ctx} else 0
    | _ => 0
  drops
    | .destroy (some ctx) => {ctx}
    | _ => 0

def ofInst : Option lib.Ctx → Multiset lib.Ctx
  | none => 0
  | some ctx => {ctx}

/-- The contexts outstanding are exactly the one in the Serde. -/
def Owned (self : ObjId) (w : World lib E) : Prop :=
  ∃ s, w.heap self = .serde s ∧ (ctxAccount lib).Held w.log (ofInst s.inst)

def Uses (self : ObjId) : Act E → Prop
  | .serde id m => id = self ∧ m ≠ .init
  | .feedTurn id _ => id = self
  | .ruby _ => True
  | _ => False

def decoderCall (s : CMetricsSerde lib) : Act E → Option DecodeCall
  | .serde _ (.fromMsgpack argv) =>
    (msgpackCall lib.rbUint2big argv s.unpackMsgpackOffset).toOption
  | .feedTurn _ c => some c
  | _ => none

/-- The action decodes a record while the Serde still holds a context. -/
def Overwrites (self : ObjId) (a : Act E) (w : World lib E) : Prop :=
  ∃ s c, w.heap self = .serde s ∧ s.inst ≠ none ∧ decoderCall s a = some c ∧
    (lib.cmtDecodeMsgpackCreate c.buf c.length c.offset w.mem).1.ret = 0

section
variable (cmt dst : Option lib.Ctx)

@[simp] theorem gains_create : (ctxAccount lib).gains (.create cmt) = ofInst cmt := by
  cases cmt <;> rfl

@[simp] theorem gains_decode (buf length offset ret) :
    (ctxAccount lib).gains (.decode buf length offset ret cmt) = if ret = 0 then ofInst cmt else 0 := by
  cases cmt <;> simp [ctxAccount, ofInst]

@[simp] theorem gains_cat (ret) : (ctxAccount lib).gains (.cat dst cmt ret) = 0 := rfl

@[simp] theorem gains_destroy : (ctxAccount lib).gains (.destroy cmt) = 0 := rfl

@[simp] theorem drops_create : (ctxAccount lib).drops (.create cmt) = 0 := rfl

@[simp] theorem drops_decode (buf length offset ret) :
    (ctxAccount lib).drops (.decode buf length offset ret cmt) = 0 := rfl

@[simp] theorem drops_cat (ret) : (ctxAccount lib).drops (.cat dst cmt ret) = 0 := rfl

@[simp] theorem drops_destroy : (ctxAccount lib).drops (.destroy cmt) = ofInst cmt := by
  cases cmt <;> rfl

end

theorem ofInst_eq_zero {inst : Option lib.Ctx} : ofInst inst = 0 ↔ inst = none := by
  cases inst <;> simp [ofInst]

theorem idle_of_exportCalls {inst : Option lib.Ctx} {calls : List (LibCall lib)}
    (h : ExportCalls inst calls) :
    (ctxAccount lib).obtained calls = 0 ∧ (ctxAccount lib).released calls = 0 := by
  cases h <;> simp [ctxAccount]

theorem owned_iff_of_does {calls : List (LibCall lib)} {s' : CMetricsSerde lib}
    (hheld : (ctxAccount lib).Held w.log (ofInst s.inst)) (hdoes : w.Does self calls (.serde s') w') :
    Owned self w' ↔ ofInst s.inst + (ctxAccount lib).obtained calls =
      (ctxAccount lib).released calls + ofInst s'.inst := by
  rw [← hheld.append_iff, ← hdoes.log]
  constructor
  · rintro ⟨t, ht, hheld'⟩
    obtain rfl := serde_inj hdoes.heap_self ht
    exact hheld'
  · exact fun h => ⟨s', hdoes.heap_self, h⟩

theorem owned_decodeInto (hself : w.heap self = .serde s)
    (hheld : (ctxAccount lib).Held w.log (ofInst s.inst)) (c : DecodeCall) :
    Owned self (stateOf ((decodeInto self c).run w)) ↔
      ¬ (s.inst ≠ none ∧ (lib.cmtDecodeMsgpackCreate c.buf c.length c.offset w.mem).1.ret = 0) := by
  rw [owned_iff_of_does hheld (decodeInto_does hself c)]
  by_cases h : (lib.cmtDecodeMsgpackCreate c.buf c.length c.offset w.mem).1.ret = 0
  · simp [h, ofInst_eq_zero]
  · simp [h]

theorem overwrites_iff (hself : w.heap self = .serde s) {a : Act E} :
    Overwrites self a w ↔ ∃ c, s.inst ≠ none ∧ decoderCall s a = some c ∧
      (lib.cmtDecodeMsgpackCreate c.buf c.length c.offset w.mem).1.ret = 0 := by
  constructor
  · rintro ⟨t, c, ht, h⟩
    obtain rfl := serde_inj hself ht
    exact ⟨c, h⟩
  · rintro ⟨c, h⟩
    exact ⟨s, c, hself, h⟩

theorem owned_send {m : SerdeMethod} (hself : w.heap self = .serde s)
    (hheld : (ctxAccount lib).Held w.log (ofInst s.inst)) (hinit : m ≠ .init)
    (hm : ∀ argv, m ≠ .fromMsgpack argv) : Owned self (stateOf ((send self m).run w)) := by
  rcases send_does hself m with h | ⟨calls, s', hasks, hdoes⟩
  · rw [h]
    exact ⟨s, hself, hheld⟩
  · rw [owned_iff_of_does hheld hdoes]
    cases hasks with
    | init => exact absurd rfl hinit
    | decoded argv => exact absurd rfl (hm argv)
    | undecoded argv => exact absurd rfl (hm argv)
    | created v h => simp [h, ofInst]
    | appended => simp
    | appendedNew v id k src ret h => simp [h, ofInst]
    | exported e _ _ hcalls =>
      obtain ⟨hg, hd⟩ := idle_of_exportCalls hcalls
      simp [hg, hd]

theorem owned_step {a : Act E} (ha : Uses self a) (hw : Owned self w) :
    Owned self (step a w) ↔ ¬ Overwrites self a w := by
  obtain ⟨s, hself, hheld⟩ := hw
  have howned : Owned self w := ⟨s, hself, hheld⟩
  rw [overwrites_iff hself]
  cases a with
  | serde id m =>
    obtain ⟨rfl, hm⟩ := ha
    cases m with
    | fromMsgpack argv =>
      rcases fromMsgpack_does hself argv with ⟨e, hc, hr⟩ | ⟨c, hc, hr⟩
      · rw [step, send, hr, stateOf_error]
        exact iff_of_true howned (by simp [decoderCall, hc, Except.toOption])
      · rw [step, send, hr, owned_decodeInto hself hheld]
        simp [decoderCall, hc, Except.toOption]
    | _ => exact iff_of_true (owned_send hself hheld hm (by simp)) (by simp [decoderCall])
  | feedTurn id c =>
    obtain rfl : id = self := ha
    rw [step_feedTurn hself, owned_decodeInto hself hheld]
    simp [decoderCall]
  | ruby env => exact iff_of_true howned (by simp [decoderCall])
  | alloc id c => exact ha.elim
  | metric k id m => exact ha.elim

/-- `serde_free` destroys the context in the Serde, and then nothing is outstanding. -/
theorem released_free (hw : Owned self w) :
    let w' := stateOf ((Serde.free self).run w)
    (ctxAccount lib).obtained w'.log = (ctxAccount lib).released w'.log := by
  obtain ⟨s, hself, hheld⟩ := hw
  intro w'
  rw [← Account.held_zero_iff]
  cases hinst : s.inst with
  | none =>
    have hlog : w'.log = w.log := by
      simp [w', Serde.free, run_serdeStruct hself, hinst]
    rw [hinst] at hheld
    rw [hlog]
    exact hheld
  | some ctx =>
    have hlog : w'.log = w.log ++ [.destroy s.inst] := by
      simp [w', Serde.free, run_serdeStruct hself, hinst]
    rw [hlog, hheld.append_iff]
    simp

/-- Along a run that uses a Serde the contexts outstanding are always the one it holds, and they are
all destroyed with it, exactly when no action of the run overwrites a context. -/
theorem owned_iff (hself : w.heap self = .serde s) (hlog : w.log = [])
    (hnew : (rbInit self).run w = .ok .nil w') {as : List (Act E)} (has : ∀ a ∈ as, Uses self a) :
    (Machine.Always step (Owned self) as w' ∧
      let w'' := stateOf ((Serde.free self).run (Machine.run step as w'))
      (ctxAccount lib).obtained w''.log = (ctxAccount lib).released w''.log) ↔
    Machine.Along step (fun a w => ¬ Overwrites self a w) as w' := by
  rw [run_rbInit hself] at hnew
  cases hnew
  have howned : Owned self ((w.called .init (lib.cmtInitialize w.mem)).put self (.serde ⟨none, 0⟩)) := by
    refine ⟨⟨none, 0⟩, World.put_heap_self .., ?_⟩
    rw [World.put_log, World.called_log, hlog]
    rfl
  have hiff := Machine.always_iff_along (J := fun _ => True) howned trivial
    (fun a ha w hw _ => owned_step (has a ha) hw) (fun _ _ _ _ _ _ => trivial)
  rw [← hiff]
  exact ⟨And.left, fun h => ⟨h, released_free h.last⟩⟩

theorem owned_iff_record : Machine.Always step (Owned 0)
    [.serde 0 (.fromMsgpack [.string wire])] (newSerde [] ()) := by
  have huses : ∀ a ∈ [Act.serde 0 (.fromMsgpack [.string wire])], Uses (E := Unit) 0 a := by
    simp [Uses]
  have h := owned_iff (w := start [] () [.serde ⟨none, 0⟩]) rfl rfl rfl huses
  refine (h.2 ⟨?_, trivial⟩).1
  rintro ⟨s, c, hs, hne, -⟩
  cases hs
  exact hne rfl

/-- The second of two records leaves the context of the first without an owner. -/
theorem decode_twice_leaks : ¬ Machine.Always step (Owned 0)
    [.serde 0 (.fromMsgpack [.string (wire ++ wire)]),
      .serde 0 (.fromMsgpack [.string (wire ++ wire)])] (newSerde [] ()) := by
  intro h
  have hstep := owned_step (a := .serde 0 (.fromMsgpack [.string (wire ++ wire)])) ⟨rfl, nofun⟩ h.2.head
  exact hstep.1 h.2.2 ⟨⟨some (Reference.ctx 0), 63⟩, ⟨wire ++ wire, 126, 63⟩, rfl, nofun, rfl, rfl⟩

end Serde
end CmetricsRuby
