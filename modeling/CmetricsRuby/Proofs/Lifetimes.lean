import CmetricsRuby.Lifetimes
import CmetricsRuby.Proofs.Ownership

/-!
# No dangling pointers, and what leaks

An object owns its context and its metric. In every state that a program and the garbage collector get to,
what objects own is in use, no two of them own the same, and a metric is owned with the context it was made
in, so that destroying one context takes no metric away from another object.
-/

namespace CmetricsRuby

variable {lib : Library} {E : Type} {w w' : World lib E} {id : ObjId} {k : Kind} {o : Obj lib}
  {c : LibCall lib} {calls : List (LibCall lib)} {s : InUse lib} {heap : ObjId → Obj lib}

namespace Obj

def owns (o : Obj lib) : Set (Ptr lib) := there (o.ctx.map .ctx) ∪ there o.metricPtr

def MadeIn (s : InUse lib) (o : Obj lib) : Prop :=
  ∀ k m, o.metricPtr = some (.metric k m) → s.madeIn k m o.ctx

theorem metricPtr_ne_ctx {x : lib.Ctx} : o.metricPtr ≠ some (.ctx x) := by
  cases o with
  | metric k t => cases t.metric <;> simp [metricPtr]
  | _ => simp [metricPtr]

theorem ctx_mem_owns {x : lib.Ctx} : .ctx x ∈ o.owns ↔ o.ctx = some x := by
  simp [owns, metricPtr_ne_ctx]

theorem metric_mem_owns {m : lib.Metric} : .metric k m ∈ o.owns ↔ o.metricPtr = some (.metric k m) := by
  simp [owns]

theorem buf_not_mem_owns {p : lib.Buf} : .buf p ∉ o.owns := by
  cases o with
  | metric k t => cases t.metric <;> simp [owns, metricPtr]
  | _ => simp [owns, metricPtr]

theorem owns_blank (c : Cls) : (c.blank : Obj lib).owns = ∅ := by
  cases c <;> simp [owns, Cls.blank, ctx, metricPtr, there]

end Obj

structure Tidy (s : InUse lib) (heap : ObjId → Obj lib) : Prop where
  owned : Owned s.ptrs (Obj.owns ∘ heap)
  made : ∀ id, (heap id).MadeIn s
  single : ∀ {k m x y}, s.madeIn k m x → s.madeIn k m y → x = y

namespace InUse

/-- A call changes where a metric was made only for the one it hands out. -/
theorem madeIn_after {m : lib.Metric} (hm : .metric k m ∉ c.returned) {x : Option lib.Ctx} :
    (s.after c).madeIn k m x ↔ s.madeIn k m x := by
  cases c with
  | metricCreate k' cmt d ret =>
    cases ret with
    | none => exact Iff.rfl
    | some m' =>
      have hne : ¬ (k = k' ∧ m = m') := by
        rintro ⟨rfl, rfl⟩
        exact hm rfl
      exact ⟨fun h => h.elim (fun h => absurd ⟨h.1, h.2.1⟩ hne) And.right, fun h => .inr ⟨hne, h⟩⟩
  | _ => exact Iff.rfl

theorem single_after (h : ∀ {k m x y}, s.madeIn k m x → s.madeIn k m y → x = y) {m : lib.Metric}
    {x y : Option lib.Ctx} (hx : (s.after c).madeIn k m x) (hy : (s.after c).madeIn k m y) : x = y := by
  cases c with
  | metricCreate k' cmt d ret =>
    cases ret with
    | none => exact h hx hy
    | some m' =>
      rcases hx with ⟨hk, hm, rfl⟩ | ⟨hne, hx⟩ <;> rcases hy with ⟨hk', hm', rfl⟩ | ⟨hne', hy⟩
      · rfl
      · exact absurd ⟨hk, hm⟩ hne'
      · exact absurd ⟨hk', hm'⟩ hne
      · exact h hx hy
  | _ => exact h hx hy

theorem mem_after {p : Ptr lib} : p ∈ (s.after c).ptrs ↔ (p ∈ s.ptrs ∧ p ∉ s.ended c) ∨ p ∈ c.returned :=
  Iff.rfl

end InUse

namespace Tidy

/-- One call, made for the object `id`, which is `o` afterwards. -/
theorem after (h : Tidy s heap) (hfresh : s.Fresh c)
    (hended : ∀ j, j ≠ id → ∀ p ∈ s.ended c, p ∉ (heap j).owns) (hmem : o.owns ⊆ (s.after c).ptrs)
    (hfrom : ∀ p ∈ o.owns, p ∈ (heap id).owns ∨ p ∈ c.returned) (hmade : o.MadeIn (s.after c)) :
    Tidy (s.after c) (Function.update heap id o) := by
  constructor
  · rw [Function.comp_update]
    refine h.owned.update ?_ hmem fun p hp => (hfrom p hp).imp_right (hfresh p)
    exact fun j hj p hp => .inl ⟨h.owned.sub j hp, fun he => hended j hj p he hp⟩
  · intro j
    by_cases hj : j = id
    · rw [hj, Function.update_self]
      exact hmade
    · rw [Function.update_of_ne hj]
      intro k m hm
      have hp := h.owned.sub j (Obj.metric_mem_owns.2 hm)
      exact (InUse.madeIn_after fun hr => hfresh _ hr hp).2 (h.made j k m hm)
  · exact InUse.single_after h.single

/-- One call that leaves the objects what they are. -/
theorem idle (h : Tidy s heap) (hfresh : s.Fresh c)
    (hended : ∀ j, ∀ p ∈ s.ended c, p ∉ (heap j).owns) : Tidy (s.after c) heap := by
  have hkept : Tidy (s.after c) (Function.update heap 0 (heap 0)) := by
    refine h.after hfresh (fun j _ => hended j) ?_ (fun p hp => .inl hp) ?_
    · exact fun p hp => .inl ⟨h.owned.sub 0 hp, fun he => hended 0 p he hp⟩
    · intro k m hm
      have hp := h.owned.sub 0 (Obj.metric_mem_owns.2 hm)
      exact (InUse.madeIn_after fun hr => hfresh _ hr hp).2 (h.made 0 k m hm)
  rwa [Function.update_eq_self] at hkept

theorem ctx_sub (h : Tidy s heap) (id : ObjId) : there ((heap id).ctx.map .ctx) ⊆ s.ptrs :=
  Set.subset_union_left.trans (h.owned.sub id)

theorem metric_sub (h : Tidy s heap) (id : ObjId) : there (heap id).metricPtr ⊆ s.ptrs :=
  Set.subset_union_right.trans (h.owned.sub id)

/-- A new context for an object that keeps nothing else. -/
theorem newCtx (h : Tidy s heap) (hfresh : s.Fresh c) (hended : s.ended c = ∅) (hmetric : o.metricPtr = none)
    (hret : c.returned = there (o.ctx.map .ctx)) : Tidy (s.after c) (Function.update heap id o) := by
  have howns : o.owns = c.returned := by
    rw [hret, Obj.owns, hmetric]
    simp [there]
  refine h.after hfresh ?_ ?_ ?_ ?_
  · rw [hended]
    exact fun j _ p hp => hp.elim
  · rw [howns]
    exact fun p hp => .inr hp
  · rw [howns]
    exact fun p hp => .inr hp
  · intro k m hm
    rw [hmetric] at hm
    cases hm

/-- An object that owns nothing afterwards. -/
theorem release (h : Tidy s heap) (ho : o.owns = ∅) : Tidy s (Function.update heap id o) := by
  constructor
  · rw [Function.comp_update]
    exact h.owned.update (fun j _ => h.owned.sub j) (ho ▸ Set.empty_subset _) (ho ▸ fun _ => False.elim)
  · intro j
    by_cases hj : j = id
    · rw [hj, Function.update_self]
      intro k m hm
      rw [← Obj.metric_mem_owns, ho] at hm
      exact hm.elim
    · rw [Function.update_of_ne hj]
      exact h.made j
  · exact h.single

/-- Destroying the context of the object `id` ends nothing that another object owns. -/
theorem not_mem_destroyed (h : Tidy s heap) {id j : ObjId} (hj : j ≠ id) {p : Ptr lib}
    (hp : p ∈ s.ended (.destroy (heap id).ctx)) : p ∉ (heap j).owns := by
  rcases hp with hp | ⟨x, k, m, hx, rfl, hm⟩
  · intro hown
    exact hj (h.owned.apart (i := j) (j := id) hown (.inl hp))
  · intro hown
    have hmade := h.made j k m (Obj.metric_mem_owns.1 hown)
    have hctx : (heap j).ctx = some x := h.single hmade hm
    exact hj (h.owned.apart (i := j) (j := id) (Obj.ctx_mem_owns.2 hctx) (Obj.ctx_mem_owns.2 hx))

end Tidy

/-! ### The calls of one step -/

/-- The calls are given pointers in use only, and tidy is what they leave. -/
structure Goes (s : InUse lib) (heap : ObjId → Obj lib) (id : ObjId) (calls : List (LibCall lib)) (o : Obj lib) :
    Prop where
  valid : Machine.Along InUse.after InUse.Valid calls s
  tidy : Tidy (Machine.run InUse.after calls s) (Function.update heap id o)

variable (hfresh : Machine.Along InUse.after InUse.Fresh calls s)

theorem goes_same (h : Tidy s heap) (ho : heap id = o)
    (hended : ∀ j, ∀ p ∈ s.ended c, p ∉ (heap j).owns) (hvalid : s.Valid c) (hfresh : s.Fresh c) :
    Goes s heap id [c] o := by
  refine ⟨⟨hvalid, trivial⟩, ?_⟩
  rw [← ho, Function.update_eq_self]
  exact h.idle hfresh hended

include hfresh

theorem goes_export (h : Tidy s heap) (ho : heap id = o) (hcalls : ExportCalls o.ctx calls) :
    Goes s heap id calls o := by
  have hctx := h.ctx_sub id
  rw [ho] at hctx
  cases hcalls with
  | failed e => exact goes_same h ho (fun _ _ => nofun) hctx hfresh.1
  | msgpack ret p => exact goes_same h ho (fun _ _ => nofun) hctx hfresh.1
  | freed e p =>
    have h₁ := h.idle hfresh.1 fun _ _ => nofun
    have hbuf : s.Fresh (.encode e o.ctx (some p)) := hfresh.1
    refine ⟨⟨hctx, fun q hq => .inr hq, trivial⟩, ?_⟩
    rw [← ho, Function.update_eq_self]
    refine h₁.idle hfresh.2.1 ?_
    rintro j q hq hown
    obtain rfl : Ptr.buf p = q := Option.some.inj hq
    exact Obj.buf_not_mem_owns hown

namespace Metric

variable {t t' : CMetricsMetric lib} {r : Request}

theorem goes (h : Tidy s heap) (ho : heap id = .metric k t) {m : MetricMethod} (hp : plan k t m = .ok r)
    (hasks : Asks k t r calls t') :
    Goes s heap id calls (.metric k t') := by
  have hctx := h.ctx_sub id
  have hmetric := h.metric_sub id
  have hsub := h.owned.sub id
  rw [Function.comp_apply] at hsub
  rw [ho] at hctx hmetric hsub
  cases hasks with
  | init inst =>
    have h₁ := h.idle hfresh.1 fun _ _ => nofun
    exact ⟨⟨nofun, nofun, trivial⟩, h₁.newCtx hfresh.2.1 rfl rfl rfl⟩
  | create d m =>
    refine ⟨⟨hctx, trivial⟩, h.after hfresh.1 (fun _ _ _ => nofun) ?_ ?_ ?_⟩
    · exact fun p hp => hp.elim (fun hp => .inl ⟨hctx hp, nofun⟩) .inr
    · rw [ho]
      exact fun p hp => hp.imp_left .inl
    · intro k' m' hm'
      obtain ⟨m, rfl, hm⟩ := Option.map_eq_some_iff.1 hm'
      cases hm
      exact .inl ⟨rfl, rfl, rfl⟩
  | update u ts n L ret =>
    cases plan_cases hp with
    | update m u v L _ hk =>
      rw [← hk] at hmetric
      exact goes_same h ho (fun _ _ => nofun) hmetric hfresh.1
  | getVal n L ret => exact goes_same h ho (fun _ _ => nofun) hmetric hfresh.1
  | addLabel key val ret => exact goes_same h ho (fun _ _ => nofun) hctx hfresh.1
  | encode e calls hcalls => exact goes_export hfresh h ho hcalls
  | text calls hcalls => exact goes_export hfresh h ho hcalls
  | msgpack calls hcalls => exact goes_export hfresh h ho hcalls

end Metric

namespace Serde

variable {t t' : CMetricsSerde lib} {m : SerdeMethod}

theorem goes (h : Tidy s w.heap) (ho : w.heap id = .serde t) (hasks : Asks w t m calls t') :
    Goes s w.heap id calls (.serde t') := by
  have hctx := h.ctx_sub id
  rw [ho] at hctx
  cases hasks with
  | init =>
    refine ⟨⟨nofun, trivial⟩, h.newCtx hfresh.1 rfl rfl ?_⟩
    simp [LibCall.returned, Obj.ctx, there]
  | decoded argv c cmt offset => exact ⟨⟨nofun, trivial⟩, h.newCtx hfresh.1 rfl rfl rfl⟩
  | undecoded argv c ret cmt hret => exact goes_same h ho (fun _ _ => nofun) nofun hfresh.1
  | created v hinst => exact ⟨⟨nofun, trivial⟩, h.newCtx hfresh.1 rfl rfl rfl⟩
  | appended v j k src ret hinst hsrc hm =>
    have hsrcCtx := h.ctx_sub j
    rw [hsrc] at hsrcCtx
    exact goes_same h ho (fun _ _ => nofun) (Set.union_subset hctx hsrcCtx) hfresh.1
  | appendedNew v j k src ret hinst hsrc hm =>
    have hsrcCtx := h.ctx_sub j
    rw [hsrc] at hsrcCtx
    have h₁ : Tidy (s.after (.create (lib.cmtCreate w.mem).1))
        (Function.update w.heap id (.serde { t with inst := (lib.cmtCreate w.mem).1 })) :=
      h.newCtx hfresh.1 rfl rfl rfl
    refine ⟨⟨nofun, ?_, trivial⟩, h₁.idle hfresh.2.1 fun _ _ => nofun⟩
    exact Set.union_subset (fun p hp => .inr hp) fun p hp => .inl ⟨hsrcCtx hp, nofun⟩
  | exported e calls hinst hcalls => exact goes_export hfresh h ho hcalls

end Serde

omit hfresh

theorem not_mem_released (heap : ObjId → Obj lib) {p : Ptr lib} (hp : ∀ j, j ≠ id → p ∉ (heap j).owns) (j : ObjId) :
    p ∉ (Function.update heap id .free j).owns := by
  by_cases hj : j = id
  · rw [hj, Function.update_self]
    exact fun h => h.elim nofun nofun
  · rw [Function.update_of_ne hj]
    exact hp j hj

/-- Freeing an object: its metric goes first, which the library still finds in its context. -/
theorem goes_collect (h : Tidy s heap) (hfresh : Machine.Along InUse.after InUse.Fresh (heap id).freeCalls s) :
    Goes s heap id (heap id).freeCalls .free := by
  have hfree : Tidy s (Function.update heap id .free) := h.release (by simp [Obj.owns, Obj.ctx, Obj.metricPtr, there])
  have hctx := h.ctx_sub id
  have hmetric := h.metric_sub id
  have hdestroyed : ∀ j, ∀ p ∈ s.ended (.destroy (heap id).ctx), p ∉ (Function.update heap id .free j).owns :=
    fun j p hp => not_mem_released heap (fun i hi => h.not_mem_destroyed hi hp) j
  have hended : ∀ j, ∀ p ∈ there (heap id).metricPtr, p ∉ (Function.update heap id .free j).owns :=
    fun j p hp => not_mem_released heap (fun i hi hown => hi (h.owned.apart (i := i) (j := id) hown (.inr hp))) j
  cases ho : heap id with
  | free =>
    rw [ho] at hfresh
    exact ⟨trivial, hfree⟩
  | serde t =>
    rw [ho] at hfresh hctx hdestroyed
    cases hinst : t.inst with
    | none =>
      simp only [Obj.freeCalls, hinst] at hfresh ⊢
      exact ⟨trivial, hfree⟩
    | some x =>
      simp only [Obj.freeCalls, hinst] at hfresh ⊢
      simp only [Obj.ctx, hinst] at hctx hdestroyed
      exact ⟨⟨hctx, trivial⟩, hfree.idle hfresh.1 hdestroyed⟩
  | metric k t =>
    rw [ho] at hfresh hctx hmetric hdestroyed hended
    cases hm : t.metric <;> cases hinst : t.inst <;>
      simp only [Obj.freeCalls, hm, hinst] at hfresh ⊢ <;>
      simp only [Obj.ctx, Obj.metricPtr, hm, hinst] at hctx hmetric hdestroyed hended
    · exact ⟨trivial, hfree⟩
    · exact ⟨⟨hctx, trivial⟩, hfree.idle hfresh.1 hdestroyed⟩
    · exact ⟨⟨hmetric, trivial⟩, hfree.idle hfresh.1 hended⟩
    · refine ⟨⟨hmetric, fun p hp => .inl ⟨hctx hp, ?_⟩, trivial⟩, ?_⟩
      · intro he
        cases hp
        cases he
      · exact (hfree.idle hfresh.1 hended).idle hfresh.2.1 hdestroyed

/-! ### Whole runs -/

namespace World

theorem inUse_of_does (hdoes : w.Does id calls o w') : w'.inUse = Machine.run InUse.after calls w.inUse := by
  rw [inUse, inUse, hdoes.log, Machine.run_append]

theorem freshLog_of_does (hdoes : w.Does id calls o w') (h : w'.FreshLog) :
    w.FreshLog ∧ Machine.Along InUse.after InUse.Fresh calls w.inUse := by
  rw [FreshLog, hdoes.log, Machine.along_append] at h
  exact h

/-- No pointer was dangling so far, and none will be. -/
structure Safe (w : World lib E) : Prop where
  noDangling : w.NoDangling
  tidy : Tidy w.inUse w.heap

theorem Safe.of_does (h : w.Safe) (hdoes : w.Does id calls o w') (hgoes : Goes w.inUse w.heap id calls o) :
    w'.Safe := by
  constructor
  · rw [NoDangling, hdoes.log, Machine.along_append]
    exact ⟨h.noDangling, hgoes.valid⟩
  · rw [inUse_of_does hdoes, hdoes.heap]
    exact hgoes.tidy

theorem Safe.of_eq (h : w.Safe) (hheap : w'.heap = w.heap) (hlog : w'.log = w.log) : w'.Safe := by
  constructor
  · rw [NoDangling, hlog]
    exact h.noDangling
  · rw [inUse, hlog, hheap]
    exact h.tidy

end World

theorem goes_objectStep {a : Act E} (h : Tidy w.inUse w.heap) (hstep : ObjectStep w a id calls o)
    (hfresh : Machine.Along InUse.after InUse.Fresh calls w.inUse) : Goes w.inUse w.heap id calls o := by
  cases hstep with
  | alloc id c => exact ⟨trivial, h.release (Obj.owns_blank c)⟩
  | metric ho hp hasks => exact Metric.goes hfresh h ho hp hasks
  | serde ho hasks => exact Serde.goes hfresh h ho hasks
  | feedTurn ho hasks => exact Serde.goes hfresh h ho hasks

theorem goes_gcObjectStep {a : GcAct E} (h : Tidy w.inUse w.heap) (hstep : GcObjectStep w a id calls o)
    (hfresh : Machine.Along InUse.after InUse.Fresh calls w.inUse) : Goes w.inUse w.heap id calls o := by
  cases hstep with
  | act hstep => exact goes_objectStep h hstep hfresh
  | collect id => exact goes_collect h hfresh

theorem freshLog_of_gcStep {a : GcAct E} (h : (gcStep a w).FreshLog) : w.FreshLog := by
  rcases gcStep_cases a w with ⟨-, hlog⟩ | ⟨id, calls, o, -, hdoes⟩
  · rw [World.FreshLog, hlog] at h
    exact h
  · exact (World.freshLog_of_does hdoes h).1

theorem World.Safe.gcStep {a : GcAct E} (h : w.Safe) (hfresh : (gcStep a w).FreshLog) : (gcStep a w).Safe := by
  rcases gcStep_cases a w with ⟨hheap, hlog⟩ | ⟨id, calls, o, hstep, hdoes⟩
  · exact h.of_eq hheap hlog
  · exact h.of_does hdoes (goes_gcObjectStep h.tidy hstep (World.freshLog_of_does hdoes hfresh).2)

theorem safe_start (hheap : ∀ id, w.heap id = .free) (hlog : w.log = []) : w.Safe := by
  constructor
  · rw [World.NoDangling, hlog]
    trivial
  · rw [World.inUse, hlog]
    refine ⟨⟨fun i => ?_, fun {i j p} hi hj => ?_⟩, fun i k m hm => ?_, fun hx => hx.elim⟩
    · rw [Function.comp_apply, hheap]
      exact fun p hp => hp.elim nofun nofun
    · rw [Function.comp_apply, hheap] at hi
      exact hi.elim nofun nofun
    · rw [hheap] at hm
      cases hm

/-- As long as the library hands out no pointer that is in use, whatever a program does, and whatever the
garbage collector frees in between, the library is never given a pointer that is not in use. -/
theorem run_noDangling (hheap : ∀ id, w.heap id = .free) (hlog : w.log = []) (as : List (GcAct E))
    (hfresh : (Machine.run gcStep as w).FreshLog) : (Machine.run gcStep as w).NoDangling := by
  have halong := Machine.along_of_run (I := World.FreshLog) (fun a w => freshLog_of_gcStep) hfresh
  exact (Machine.run_keeps_along (I := World.Safe) halong.2 (safe_start hheap hlog)
    fun a w hR h => h.gcStep hR).noDangling

open Reference (start)

/-- A counter that is made and created, added to a new Serde and then freed, the Serde after it. -/
def lifeActs : List (GcAct Unit) :=
  [.act (.alloc 0 (.metric .counter)), .act (.metric .counter 0 .init),
    .act (.metric .counter 0 (.create [.string [], .string [], .string [0x61], .string [0x68]])),
    .act (.alloc 1 .serde), .act (.serde 1 .init), .act (.serde 1 (.concat (.object 0))),
    .collect 0, .collect 1]

theorem freshLog_lifeActs : (Machine.run gcStep lifeActs (start [] () [])).FreshLog := by
  have hlog : (Machine.run gcStep lifeActs (start [] () [])).log =
      [.init, .create (some (Reference.ctx 0)), .metricCreate .counter (some (Reference.ctx 0))
        ⟨.ofPtr [], .ofPtr [], .ofPtr [0x61], .ofPtr [0x68], 0, []⟩ (some Reference.metric), .init,
        .create (some (Reference.ctx 1)), .cat (some (Reference.ctx 1)) (some (Reference.ctx 0)) 0,
        .metricDestroy .counter (some Reference.metric), .destroy (some (Reference.ctx 0)),
        .destroy (some (Reference.ctx 1))] := rfl
  have hne : Reference.ctx (x := []) 0 ≠ Reference.ctx 1 := Nat.zero_ne_one
  rw [World.FreshLog, hlog]
  simp [Machine.Along, InUse.Fresh, InUse.mem_after, InUse.nothing, LibCall.returned, hne]

theorem run_noDangling_lifeActs : (Machine.run gcStep lifeActs (start [] () [])).NoDangling :=
  run_noDangling (w := start [] () []) (fun _ => rfl) rfl lifeActs freshLog_lifeActs

end CmetricsRuby
