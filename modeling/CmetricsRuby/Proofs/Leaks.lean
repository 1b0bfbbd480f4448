import CmetricsRuby.Proofs.Lifetimes

/-!
# What leaks

A context that is in use and that no object has is never destroyed. It comes about in two ways only:
`initialize` on an object that has a context already, and a decoding that succeeds on such a Serde.
-/

namespace CmetricsRuby

variable {lib : Library} {E : Type} {w w' : World lib E} {id : ObjId} {k : Kind} {o os : Obj lib}
  {calls : List (LibCall lib)} {s : InUse lib} {x : lib.Ctx}

/-- Every context in use is some object's. -/
def World.NoLeak (w : World lib E) : Prop := ∀ x, .ctx x ∈ w.inUse.ptrs → ∃ id, (w.heap id).ctx = some x

/-- The action puts another context, or none, in the place of one that an object has. -/
def Replaces : GcAct E → World lib E → Prop
  | .act (.metric k id .init), w => ∃ s, w.heap id = .metric k s ∧ s.inst ≠ none
  | .act (.serde id .init), w => ∃ s, w.heap id = .serde s ∧ s.inst ≠ none
  | .act (.serde id (.fromMsgpack argv)), w => Serde.Overwrites id (.serde id (.fromMsgpack argv)) w
  | .act (.feedTurn id c), w => Serde.Overwrites id (.feedTurn id c) w
  | _, _ => False

namespace World

theorem NoLeak.of_eq (h : w.NoLeak) (hheap : w'.heap = w.heap) (hlog : w'.log = w.log) : w'.NoLeak := by
  unfold NoLeak inUse at *
  rw [hheap, hlog]
  exact h

/-- A step of one object, whose context is the only one it brings into use, leaks if it loses one. -/
theorem noLeak_iff (h : w.NoLeak) (htidy : Tidy w.inUse w.heap) (hdoes : w.Does id calls o w')
    (hctx : ∀ x, .ctx x ∈ w'.inUse.ptrs ↔ .ctx x ∈ w.inUse.ptrs ∨ o.ctx = some x) :
    w'.NoLeak ↔ ∀ x, (w.heap id).ctx = some x → o.ctx = some x := by
  constructor
  · intro hleak x hx
    obtain ⟨j, hj⟩ := hleak x ((hctx x).2 (.inl (htidy.owned.sub id (Obj.ctx_mem_owns.2 hx))))
    by_cases hid : j = id
    · rw [hid, hdoes.heap_self] at hj
      exact hj
    · rw [hdoes.heap_of_ne hid] at hj
      exact absurd (htidy.owned.apart (Obj.ctx_mem_owns.2 hj) (Obj.ctx_mem_owns.2 hx)) hid
  · intro hkept x hx
    have own : o.ctx = some x → ∃ j, (w'.heap j).ctx = some x := fun ho => ⟨id, by rw [hdoes.heap_self, ho]⟩
    rcases (hctx x).1 hx with hx | hx
    · obtain ⟨j, hj⟩ := h x hx
      by_cases hid : j = id
      · exact own (hkept x (hid ▸ hj))
      · exact ⟨j, by rw [hdoes.heap_of_ne hid, hj]⟩
    · exact own hx

end World

/-! ### The contexts in use after a step -/

theorem there_ctx {inst : Option lib.Ctx} : Ptr.ctx x ∈ there (inst.map .ctx) ↔ inst = some x := by
  simp

theorem ctx_mem_export {inst : Option lib.Ctx} (hcalls : ExportCalls inst calls) :
    .ctx x ∈ (Machine.run InUse.after calls s).ptrs ↔ .ctx x ∈ s.ptrs := by
  cases hcalls with
  | failed e => simp [Machine.run, InUse.mem_after, InUse.ended, LibCall.returned]
  | freed e p => simp [Machine.run, InUse.mem_after, InUse.ended, LibCall.returned]
  | msgpack ret p =>
    by_cases hret : ret = 0 <;> simp [Machine.run, InUse.mem_after, InUse.ended, LibCall.returned, hret]

theorem ctx_mem_metric {t t' : CMetricsMetric lib} {r : Request} (h : Metric.Asks k t r calls t')
    (hctx : ∀ x, t.inst = some x → .ctx x ∈ s.ptrs) :
    .ctx x ∈ (Machine.run InUse.after calls s).ptrs ↔ .ctx x ∈ s.ptrs ∨ t'.inst = some x := by
  have same : .ctx x ∈ s.ptrs ↔ .ctx x ∈ s.ptrs ∨ t.inst = some x := (or_iff_left_of_imp (hctx x)).symm
  cases h with
  | init inst => simp [Machine.run, InUse.mem_after, InUse.ended, LibCall.returned]
  | encode e calls hcalls => exact (ctx_mem_export hcalls).trans same
  | text calls hcalls => exact (ctx_mem_export hcalls).trans same
  | msgpack calls hcalls => exact (ctx_mem_export hcalls).trans same
  | _ =>
    rw [← same]
    simp [Machine.run, InUse.mem_after, InUse.ended, LibCall.returned]

theorem ctx_mem_serde {t t' : CMetricsSerde lib} {m : SerdeMethod} (h : Serde.Asks w t m calls t')
    (hctx : ∀ x, t.inst = some x → .ctx x ∈ s.ptrs) :
    .ctx x ∈ (Machine.run InUse.after calls s).ptrs ↔ .ctx x ∈ s.ptrs ∨ t'.inst = some x := by
  have same : .ctx x ∈ s.ptrs ↔ .ctx x ∈ s.ptrs ∨ t.inst = some x := (or_iff_left_of_imp (hctx x)).symm
  cases h with
  | init => simp [Machine.run, InUse.mem_after, InUse.ended, LibCall.returned]
  | decoded argv c cmt offset => simp [Machine.run, InUse.mem_after, InUse.ended, LibCall.returned]
  | undecoded argv c ret cmt hret =>
    rw [← same]
    simp [Machine.run, InUse.mem_after, InUse.ended, LibCall.returned, hret]
  | created v hinst => simp [Machine.run, InUse.mem_after, InUse.ended, LibCall.returned]
  | appended v id k src ret hinst hsrc hm =>
    rw [← same]
    simp [Machine.run, InUse.mem_after, InUse.ended, LibCall.returned]
  | appendedNew v id k src ret hinst hsrc hm =>
    simp [Machine.run, InUse.mem_after, InUse.ended, LibCall.returned]
  | exported e calls hinst hcalls => exact (ctx_mem_export hcalls).trans same

theorem ctx_mem_objectStep {a : Act E} (h : ObjectStep w a id calls o)
    (hctx : ∀ x, (w.heap id).ctx = some x → .ctx x ∈ s.ptrs) :
    .ctx x ∈ (Machine.run InUse.after calls s).ptrs ↔ .ctx x ∈ s.ptrs ∨ o.ctx = some x := by
  cases h with
  | alloc id c ho => cases c <;> simp [Machine.run, Cls.blank, Obj.ctx]
  | metric ho hp hasks =>
    rw [ho] at hctx
    exact ctx_mem_metric hasks hctx
  | serde ho hasks =>
    rw [ho] at hctx
    exact ctx_mem_serde hasks hctx
  | feedTurn ho hasks =>
    rw [ho] at hctx
    exact ctx_mem_serde hasks hctx

theorem ctx_mem_freeCalls (h : .ctx x ∈ (Machine.run InUse.after o.freeCalls s).ptrs) :
    .ctx x ∈ s.ptrs ∧ o.ctx ≠ some x := by
  cases o with
  | free => exact ⟨h, nofun⟩
  | serde t =>
    cases hinst : t.inst with
    | none =>
      simp only [Obj.freeCalls, hinst] at h
      exact ⟨h, by simp [Obj.ctx, hinst]⟩
    | some y =>
      simp [Obj.freeCalls, hinst, Machine.run, InUse.mem_after, InUse.ended, LibCall.returned] at h
      simpa [Obj.ctx, hinst] using h
  | metric k t =>
    cases hm : t.metric <;> cases hinst : t.inst <;>
      simp [Obj.freeCalls, hm, hinst, Machine.run, InUse.mem_after, InUse.ended, LibCall.returned] at h <;>
      simpa [Obj.ctx, hinst] using h

theorem World.noLeak_objectStep {a : Act E} (h : w.NoLeak) (htidy : Tidy w.inUse w.heap)
    (hstep : ObjectStep w a id calls o) (hdoes : w.Does id calls o w') :
    w'.NoLeak ↔ ∀ x, (w.heap id).ctx = some x → o.ctx = some x := by
  refine noLeak_iff h htidy hdoes fun x => ?_
  rw [inUse_of_does hdoes]
  exact ctx_mem_objectStep hstep fun y hy => htidy.owned.sub id (Obj.ctx_mem_owns.2 hy)

/-- Nothing is lost of an object that had no context, or that keeps it. -/
theorem kept_or_none (h : os.ctx = none ∨ o.ctx = os.ctx) : ∀ x, os.ctx = some x → o.ctx = some x := by
  intro x hx
  rcases h with h | h
  · rw [h] at hx
    cases hx
  · rw [h, hx]

/-- What becomes of the context of an object that gets one that was not in use, or none. -/
theorem lost_iff (htidy : Tidy w.inUse w.heap) (id : ObjId) (inst : Option lib.Ctx)
    (hnew : ∀ x, inst = some x → .ctx x ∉ w.inUse.ptrs) :
    (∀ x, (w.heap id).ctx = some x → inst = some x) ↔ ¬ (w.heap id).ctx ≠ none := by
  rw [not_not]
  constructor
  · intro h
    by_contra hne
    obtain ⟨x, hx⟩ := Option.ne_none_iff_exists'.1 hne
    exact hnew x (h x hx) (htidy.owned.sub id (Obj.ctx_mem_owns.2 hx))
  · intro h x hx
    rw [h] at hx
    cases hx

theorem Serde.asks_inst {t t' : CMetricsSerde lib} {m : SerdeMethod} (h : Asks w t m calls t') (hinit : m ≠ .init)
    (hm : ∀ argv, m ≠ .fromMsgpack argv) : t.inst = none ∨ t'.inst = t.inst := by
  cases h with
  | init => exact absurd rfl hinit
  | decoded argv => exact absurd rfl (hm argv)
  | undecoded argv => exact absurd rfl (hm argv)
  | created v hinst => exact .inl hinst
  | appendedNew v id k src ret hinst => exact .inl hinst
  | _ => exact .inr rfl

/-! ### One step -/

theorem not_replaces {m : MetricMethod} (hm : m ≠ .init) : ¬ Replaces (.act (.metric k id m)) w := by
  cases m with
  | init => exact absurd rfl hm
  | _ => exact fun h => h

theorem replaces_init {t : CMetricsMetric lib} (hself : w.heap id = .metric k t) :
    Replaces (.act (.metric k id .init)) w ↔ t.inst ≠ none := by
  constructor
  · rintro ⟨t', ht', hne⟩
    rwa [metric_inj hself ht']
  · exact fun hne => ⟨t, hself, hne⟩

/-- Freeing an object destroys the context it had. -/
theorem noLeak_collect (h : w.NoLeak) (id : ObjId) : (collect id w).NoLeak := by
  have hdoes := collect_does id w
  intro x hx
  rw [World.inUse_of_does hdoes] at hx
  obtain ⟨hx, hne⟩ := ctx_mem_freeCalls hx
  obtain ⟨j, hj⟩ := h x hx
  have hid : j ≠ id := by
    rintro rfl
    exact hne hj
  exact ⟨j, by rw [hdoes.heap_of_ne hid, hj]⟩

section
variable (h : w.NoLeak) (htidy : Tidy w.inUse w.heap)
include h htidy

theorem noLeak_metric (m : MetricMethod) (hfresh : (step (.metric k id m) w).FreshLog) :
    (step (.metric k id m) w).NoLeak ↔ ¬ Replaces (.act (.metric k id m)) w := by
  by_cases hself : ∃ t, w.heap id = .metric k t
  · obtain ⟨t, hself⟩ := hself
    rcases Metric.send_does hself m with ⟨e, hp, hr⟩ | ⟨r, calls, t', hp, hasks, hdoes⟩
    · have hstep : step (.metric k id m) w = w := by rw [step, hr, stateOf_error]
      rw [hstep]
      refine iff_of_true h (not_replaces ?_)
      rintro rfl
      cases k <;> cases hp
    · have hdoes : w.Does id calls (.metric k t') (step (.metric k id m) w) := hdoes
      rw [World.noLeak_objectStep h htidy (.metric hself hp hasks) hdoes]
      have hnew := (World.freshLog_of_does hdoes hfresh).2
      by_cases hm : m = .init
      · subst hm
        obtain rfl : r = .init := by cases k <;> cases hp <;> rfl
        cases hasks with
        | init inst =>
          have hlost := lost_iff htidy id inst fun x hx hmem =>
            hnew.2.1 (.ctx x) (there_ctx.2 hx) (.inl ⟨hmem, Set.notMem_empty _⟩)
          rw [replaces_init hself]
          rw [hself] at hlost ⊢
          exact hlost
      · refine iff_of_true (kept_or_none (.inr ?_)) (not_replaces hm)
        rw [hself]
        cases hasks with
        | init inst =>
          cases Metric.plan_cases hp
          exact absurd rfl hm
        | _ => rfl
  · have hstep : step (.metric k id m) w = w := Metric.send_of_not (not_exists.1 hself) m
    rw [hstep]
    refine iff_of_true h ?_
    cases m with
    | init =>
      rintro ⟨t, ht, -⟩
      exact hself ⟨t, ht⟩
    | _ => exact fun hf => hf

/-- A turn of the decoder, by `from_msgpack` or by `feed_each`. -/
theorem noLeak_decodeInto {t : CMetricsSerde lib} (hself : w.heap id = .serde t) (c : Serde.DecodeCall)
    (hfresh : (stateOf ((Serde.decodeInto id c).run w)).FreshLog) :
    (stateOf ((Serde.decodeInto id c).run w)).NoLeak ↔
      ¬ (t.inst ≠ none ∧ (lib.cmtDecodeMsgpackCreate c.buf c.length c.offset w.mem).1.ret = 0) := by
  have hdoes := Serde.decodeInto_does hself c
  by_cases hret : (lib.cmtDecodeMsgpackCreate c.buf c.length c.offset w.mem).1.ret = 0
  · simp only [hret, if_true] at hdoes
    have hnew := (World.freshLog_of_does hdoes hfresh).2.1
    have hlost := lost_iff htidy id _ fun x hx => hnew (.ctx x) (there_ctx.2 hx)
    rw [World.noLeak_objectStep h htidy (.feedTurn (c := c) hself (.decoded [] c _ _)) hdoes, and_iff_left hret]
    rw [hself] at hlost ⊢
    exact hlost
  · simp only [hret, if_false] at hdoes
    refine (World.noLeak_objectStep h htidy (.feedTurn (c := c) hself (.undecoded [] c _ _ hret)) hdoes).trans
      (iff_of_true ?_ fun hf => hret hf.2)
    exact kept_or_none (.inr (congrArg Obj.ctx hself.symm))

theorem noLeak_fromMsgpack {t : CMetricsSerde lib} (hself : w.heap id = .serde t) (argv : List Value)
    (hfresh : (step (.serde id (.fromMsgpack argv)) w).FreshLog) :
    (step (.serde id (.fromMsgpack argv)) w).NoLeak ↔
      ¬ Serde.Overwrites id (.serde (E := E) id (.fromMsgpack argv)) w := by
  rw [Serde.overwrites_iff hself]
  rcases Serde.fromMsgpack_does hself argv with ⟨e, hc, hr⟩ | ⟨c, hc, hr⟩
  · rw [step, Serde.send, hr, stateOf_error]
    exact iff_of_true h (by simp [Serde.decoderCall, hc, Except.toOption])
  · rw [step, Serde.send, hr] at hfresh ⊢
    rw [noLeak_decodeInto h htidy hself c hfresh]
    simp [Serde.decoderCall, hc, Except.toOption]

theorem noLeak_serdeInit {t : CMetricsSerde lib} (hself : w.heap id = .serde t) :
    (step (.serde id .init) w).NoLeak ↔ ¬ Replaces (.act (.serde id .init)) w := by
  have hdoes : w.Does id [.init] (.serde ⟨none, 0⟩) (step (.serde id .init) w) := by
    rw [step, Serde.send, Serde.run_rbInit hself]
    exact ⟨rfl, rfl, rfl⟩
  have hlost := lost_iff htidy id none fun x hx => absurd hx (Option.some_ne_none x).symm
  rw [hself] at hlost
  rw [World.noLeak_objectStep h htidy (.serde hself .init) hdoes, hself]
  refine hlost.trans (not_congr ?_)
  constructor
  · exact fun hne => ⟨t, hself, hne⟩
  · rintro ⟨t', ht', hne⟩
    rwa [Obj.ctx, serde_inj hself ht']

theorem noLeak_serde (m : SerdeMethod) (hfresh : (step (.serde id m) w).FreshLog) :
    (step (.serde id m) w).NoLeak ↔ ¬ Replaces (.act (.serde id m)) w := by
  by_cases hself : ∃ t, w.heap id = .serde t
  · obtain ⟨t, hself⟩ := hself
    cases hm : m with
    | init => exact noLeak_serdeInit h htidy hself
    | fromMsgpack argv => exact noLeak_fromMsgpack h htidy hself argv (hm ▸ hfresh)
    | _ =>
      refine iff_of_true ?_ fun hf => hf
      rw [← hm]
      rcases Serde.send_does hself m with hr | ⟨calls, t', hasks, hdoes⟩
      · rw [step, hr]
        exact h
      · have hdoes : w.Does id calls (.serde t') (step (.serde id m) w) := hdoes
        rw [World.noLeak_objectStep h htidy (.serde hself hasks) hdoes, hself]
        exact kept_or_none (Serde.asks_inst hasks (by simp [hm]) (by simp [hm]))
  · have hstep : step (.serde id m) w = w := Serde.send_of_not (not_exists.1 hself) m
    rw [hstep]
    refine iff_of_true h ?_
    cases m with
    | init =>
      rintro ⟨t, ht, -⟩
      exact hself ⟨t, ht⟩
    | fromMsgpack argv =>
      rintro ⟨t, c, ht, -⟩
      exact hself ⟨t, ht⟩
    | _ => exact fun hf => hf

theorem noLeak_feedTurn (c : Serde.DecodeCall) (hfresh : (step (.feedTurn id c) w).FreshLog) :
    (step (.feedTurn id c) w).NoLeak ↔ ¬ Replaces (.act (.feedTurn id c)) w := by
  by_cases hself : ∃ t, w.heap id = .serde t
  · obtain ⟨t, hself⟩ := hself
    show _ ↔ ¬ Serde.Overwrites id (.feedTurn (E := E) id c) w
    rw [step_feedTurn hself] at hfresh ⊢
    rw [noLeak_decodeInto h htidy hself c hfresh, Serde.overwrites_iff hself]
    simp [Serde.decoderCall]
  · rw [step_feedTurn_of_not (not_exists.1 hself)]
    refine iff_of_true h ?_
    rintro ⟨t, c, ht, -⟩
    exact hself ⟨t, ht⟩

theorem noLeak_gcStep (a : GcAct E) (hfresh : (gcStep a w).FreshLog) :
    (gcStep a w).NoLeak ↔ ¬ Replaces a w := by
  cases a with
  | collect id => exact iff_of_true (noLeak_collect h id) fun hf => hf
  | act a =>
    cases a with
    | alloc id c =>
      refine iff_of_true ?_ fun hf => hf
      rcases step_alloc (w := w) id c with ⟨ho, hstep⟩ | hstep
      · have hdoes : w.Does id [] c.blank (w.put id c.blank) := ⟨rfl, (List.append_nil _).symm, rfl⟩
        rw [gcStep, hstep, World.noLeak_objectStep h htidy (.alloc id c ho) hdoes, ho]
        exact kept_or_none (.inl rfl)
      · rw [gcStep, hstep]
        exact h
    | metric k id m => exact noLeak_metric h htidy m hfresh
    | serde id m => exact noLeak_serde h htidy m hfresh
    | feedTurn id c => exact noLeak_feedTurn h htidy c hfresh
    | ruby env => exact iff_of_true (h.of_eq rfl rfl) fun hf => hf

end

/-- In a program with garbage collection every context in use is always some object's, exactly when no
action puts another context in the place of one that an object has. -/
theorem always_noLeak_iff (hheap : ∀ id, w.heap id = .free) (hlog : w.log = []) (as : List (GcAct E))
    (hfresh : (Machine.run gcStep as w).FreshLog) :
    Machine.Always gcStep World.NoLeak as w ↔ Machine.Along gcStep (fun a w => ¬ Replaces a w) as w := by
  have halong := Machine.along_of_run (I := World.FreshLog) (fun a w => freshLog_of_gcStep) hfresh
  have hleak : w.NoLeak := by
    unfold World.NoLeak World.inUse
    rw [hlog]
    exact fun x hx => hx.elim
  exact Machine.always_iff_along_of (J := World.Safe) halong.2 hleak (safe_start hheap hlog)
    (fun a w hR h hJ => noLeak_gcStep h hJ.tidy a hR) fun a w hR hJ => hJ.gcStep hR

open Reference (start)

theorem always_noLeak_lifeActs : Machine.Always gcStep World.NoLeak lifeActs (start [] () []) := by
  refine (always_noLeak_iff (fun _ => rfl) rfl lifeActs freshLog_lifeActs).2 ?_
  refine ⟨fun h => h, ?_, fun h => h, fun h => h, ?_, fun h => h, fun h => h, fun h => h, trivial⟩
  · rintro ⟨s, hs, hne⟩
    cases hs
    exact hne rfl
  · rintro ⟨s, hs, hne⟩
    cases hs
    exact hne rfl

end CmetricsRuby
