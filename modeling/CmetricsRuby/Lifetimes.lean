import CmetricsRuby.Contexts
import CmetricsRuby.System
import CmetricsRuby.Base.Owners

/-!
# Lifetimes of what the library hands out

Contexts, metrics and buffers are the library's; it hands out pointers to them and takes them back. The
log tells which are in use: `InUse.after` is what one call does to that. `GcAct` adds to the actions of a
program those of the garbage collector, which may free any object between any two of them.
-/

namespace CmetricsRuby

variable {lib : Library} {E : Type}

inductive Ptr (lib : Library)
  | ctx (c : lib.Ctx)
  | metric (k : Kind) (m : lib.Metric)
  | buf (b : lib.Buf)

namespace LibCall

/-- The pointers a call is given, but for NULL. -/
def passed : LibCall lib → Set (Ptr lib)
  | .destroy cmt | .metricCreate _ cmt _ _ | .labelAdd cmt _ _ _ | .encode _ cmt _
  | .encodeMsgpack cmt _ _ => there (cmt.map .ctx)
  | .metricDestroy k m | .getVal k m _ _ _ => there (m.map (.metric k))
  | .update u m _ _ _ _ => there (m.map (.metric u.kind))
  | .encodeDestroy _ buf => there (buf.map .buf)
  | .cat dst src _ => there (dst.map .ctx) ∪ there (src.map .ctx)
  | .init | .create _ | .decode _ _ _ _ _ => ∅

/-- The pointers a call hands out. A failing decoding and a failing msgpack encoding hand out none. -/
def returned : LibCall lib → Set (Ptr lib)
  | .create ret => there (ret.map .ctx)
  | .decode _ _ _ ret cmt => if ret = 0 then there (cmt.map .ctx) else ∅
  | .metricCreate k _ _ ret => there (ret.map (.metric k))
  | .encode _ _ ret => there (ret.map .buf)
  | .encodeMsgpack _ ret buf => if ret = 0 then {.buf buf} else ∅
  | _ => ∅

end LibCall

/-- The pointers in use, and the context each metric has been made in. -/
structure InUse (lib : Library) where
  ptrs : Set (Ptr lib)
  madeIn : Kind → lib.Metric → Option lib.Ctx → Prop

namespace InUse

def nothing : InUse lib := ⟨∅, fun _ _ _ => False⟩

/-- The pointers a call takes back; a context takes its metrics with it. -/
def ended (s : InUse lib) : LibCall lib → Set (Ptr lib)
  | .destroy cmt =>
    there (cmt.map .ctx) ∪ {p | ∃ c k m, cmt = some c ∧ p = .metric k m ∧ s.madeIn k m (some c)}
  | .metricDestroy k m => there (m.map (.metric k))
  | .encodeDestroy _ buf => there (buf.map .buf)
  | _ => ∅

def madeBy : LibCall lib → (Kind → lib.Metric → Option lib.Ctx → Prop) → Kind → lib.Metric → Option lib.Ctx → Prop
  | .metricCreate k cmt _ (some m), madeIn => fun k' m' cmt' =>
    (k' = k ∧ m' = m ∧ cmt' = cmt) ∨ (¬ (k' = k ∧ m' = m) ∧ madeIn k' m' cmt')
  | _, madeIn => madeIn

def after (c : LibCall lib) (s : InUse lib) : InUse lib where
  ptrs := (s.ptrs \ s.ended c) ∪ c.returned
  madeIn := madeBy c s.madeIn

/-- A call may be given what is in use only. -/
def Valid (c : LibCall lib) (s : InUse lib) : Prop := c.passed ⊆ s.ptrs

/-- What is in use is not handed out once more. -/
def Fresh (c : LibCall lib) (s : InUse lib) : Prop := ∀ p ∈ c.returned, p ∉ s.ptrs

end InUse

namespace World

variable (w : World lib E)

def inUse : InUse lib := Machine.run InUse.after w.log .nothing

/-- Every call so far was given pointers in use only: none that was taken back before, and so nothing was
taken back twice. -/
def NoDangling : Prop := Machine.Along InUse.after InUse.Valid w.log .nothing

/-- The library has not handed out a pointer that was in use. -/
def FreshLog : Prop := Machine.Along InUse.after InUse.Fresh w.log .nothing

end World

/-! ### Garbage collection -/

inductive GcAct (E : Type)
  | act (a : Act E)
  | collect (id : ObjId)

/-- The function of the object's class that frees it. -/
def collect (id : ObjId) (w : World lib E) : World lib E :=
  match w.heap id with
  | .free => w
  | .metric k _ => stateOf ((Metric.free k id).run w)
  | .serde _ => stateOf ((Serde.free id).run w)

def gcStep : GcAct E → World lib E → World lib E
  | .act a, w => step a w
  | .collect id, w => collect id w

def Obj.metricPtr : Obj lib → Option (Ptr lib)
  | .metric k s => s.metric.map (.metric k)
  | _ => none

/-- The calls that free an object: its metric first, then its context. -/
def Obj.freeCalls : Obj lib → List (LibCall lib)
  | .free => []
  | .metric k s => (if s.metric.isSome then [.metricDestroy k s.metric] else []) ++
      if s.inst.isSome then [.destroy s.inst] else []
  | .serde s => if s.inst.isSome then [.destroy s.inst] else []

theorem collect_does (id : ObjId) (w : World lib E) :
    w.Does id (w.heap id).freeCalls .free (collect id w) := by
  unfold collect
  cases ho : w.heap id with
  | free => exact .of_heap_eq ho rfl (List.append_nil _).symm rfl
  | metric k s =>
    cases hm : s.metric <;> cases hinst : s.inst <;>
      exact ⟨by simp [Metric.free, run_metricStruct ho, hm, hinst, World.put],
        by simp [Metric.free, run_metricStruct ho, hm, hinst, Obj.freeCalls],
        by simp [Metric.free, run_metricStruct ho, hm, hinst]⟩
  | serde s =>
    cases hinst : s.inst <;>
      exact ⟨by simp [Serde.free, run_serdeStruct ho, hinst, World.put],
        by simp [Serde.free, run_serdeStruct ho, hinst, Obj.freeCalls],
        by simp [Serde.free, run_serdeStruct ho, hinst]⟩

/-- With garbage collection: a step of a program, or an object is freed. -/
inductive GcObjectStep (w : World lib E) : GcAct E → ObjId → List (LibCall lib) → Obj lib → Prop
  | act {a id calls o} : ObjectStep w a id calls o → GcObjectStep w (.act a) id calls o
  | collect (id) : GcObjectStep w (.collect id) id (w.heap id).freeCalls .free

theorem gcStep_cases (a : GcAct E) (w : World lib E) :
    ((gcStep a w).heap = w.heap ∧ (gcStep a w).log = w.log) ∨
    ∃ id calls o, GcObjectStep w a id calls o ∧ w.Does id calls o (gcStep a w) := by
  cases a with
  | act a =>
    rcases step_cases a w with h | ⟨id, calls, o, hstep, hdoes⟩
    · exact .inl h
    · exact .inr ⟨id, calls, o, .act hstep, hdoes⟩
  | collect id => exact .inr ⟨id, _, .free, .collect id, collect_does id w⟩

end CmetricsRuby
