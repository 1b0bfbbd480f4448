import CmetricsRuby.System
import CmetricsRuby.Reference

/-!
# No NULL for the library

The methods that use a metric check for it, and an object that has a metric has a context, so what these
hand to the library is there. The exporters of the metric classes and `create` use the context without a
check. On an object that was allocated and not initialized they hand over NULL, and nothing else does.
-/

namespace CmetricsRuby

variable {lib : Library} {E : Type} {w w' : World lib E} {id : ObjId} {k : Kind}
  {calls : List (LibCall lib)} {o : Obj lib}

def LibCall.PassesNull : LibCall lib → Prop
  | .destroy cmt => cmt = none
  | .metricCreate _ cmt _ _ => cmt = none
  | .metricDestroy _ m => m = none
  | .update _ m _ _ _ _ => m = none
  | .getVal _ m _ _ _ => m = none
  | .labelAdd cmt _ _ _ => cmt = none
  | .encode _ cmt _ => cmt = none
  | .encodeMsgpack cmt _ _ => cmt = none
  | .cat dst src _ => dst = none ∨ src = none
  | .init | .create _ | .encodeDestroy _ _ | .decode _ _ _ _ _ => False

def NoNull (w : World lib E) : Prop := ∀ c ∈ w.log, ¬ c.PassesNull

/-- An object that has a metric has a context. -/
def Coherent (w : World lib E) : Prop :=
  ∀ id k s, w.heap id = .metric k s → s.metric ≠ none → s.inst ≠ none

/-- The requests that use the context without a check. -/
def Request.UsesContext : Request → Prop
  | .create _ | .encode _ | .text | .msgpack => True
  | _ => False

/-- An exporter, or `create` with arguments it accepts, on a metric object that has no context. -/
def Unguarded : Act E → World lib E → Prop
  | .metric k id m, w => ∃ s r, w.heap id = .metric k s ∧ s.inst = none ∧
      Metric.plan k s m = .ok r ∧ r.UsesContext
  | _, _ => False

/-! ### The calls of one step -/

theorem noNull_iff_of_does (hnull : NoNull w) (hdoes : w.Does id calls o w') :
    NoNull w' ↔ ∀ c ∈ calls, ¬ c.PassesNull := by
  unfold NoNull
  rw [hdoes.log, List.forall_mem_append]
  exact and_iff_right hnull

theorem coherent_of_does (hcoh : Coherent w) (hdoes : w.Does id calls o w')
    (ho : ∀ k s, o = .metric k s → s.metric ≠ none → s.inst ≠ none) : Coherent w' := by
  intro id' k s hs
  by_cases hid : id' = id
  · subst hid
    rw [hdoes.heap_self] at hs
    exact ho k s hs
  · rw [hdoes.heap_of_ne hid] at hs
    exact hcoh id' k s hs

theorem passesNull_export {inst : Option lib.Ctx} (h : ExportCalls inst calls) :
    (∀ c ∈ calls, ¬ c.PassesNull) ↔ inst ≠ none := by
  cases h with
  | failed e =>
    rw [List.forall_mem_singleton]
    exact Iff.rfl
  | freed e p =>
    rw [List.forall_mem_cons, List.forall_mem_singleton]
    exact and_iff_left (fun hf : False => hf)
  | msgpack ret p =>
    rw [List.forall_mem_singleton]
    exact Iff.rfl

namespace Metric

variable {s s' : CMetricsMetric lib} {m : MetricMethod} {r : Request}

theorem passesNull_asks (hcoh : s.metric ≠ none → s.inst ≠ none) (hp : Plans k s m r)
    (h : Asks k s r calls s') : (∀ c ∈ calls, ¬ c.PassesNull) ↔ ¬ (s.inst = none ∧ r.UsesContext) := by
  have uses : r.UsesContext → (¬ (s.inst = none ∧ r.UsesContext) ↔ s.inst ≠ none) := fun hr =>
    not_congr (and_iff_left hr)
  cases h with
  | init inst =>
    refine iff_of_true ?_ fun hn => hn.2
    rw [List.forall_mem_cons, List.forall_mem_singleton]
    exact ⟨nofun, nofun⟩
  | create d m =>
    rw [uses trivial, List.forall_mem_singleton]
    exact Iff.rfl
  | update u ts n L ret =>
    refine iff_of_true ?_ fun hn => hn.2
    rw [List.forall_mem_singleton]
    cases hp with
    | update m u v L hc => exact hc
  | getVal n L ret =>
    refine iff_of_true ?_ fun hn => hn.2
    rw [List.forall_mem_singleton]
    cases hp with
    | getVal argv L hc => exact hc
  | addLabel key val ret =>
    refine iff_of_true ?_ fun hn => hn.2
    rw [List.forall_mem_singleton]
    cases hp with
    | addLabel key value kc vc hc => exact hcoh hc
  | encode e calls hcalls => rw [uses trivial, passesNull_export hcalls]
  | text calls hcalls => rw [uses trivial, passesNull_export hcalls]
  | msgpack calls hcalls => rw [uses trivial, passesNull_export hcalls]

theorem coherent_asks (hcoh : s.metric ≠ none → s.inst ≠ none) (h : Asks k s r calls s')
    (hg : ¬ (s.inst = none ∧ r.UsesContext)) : s'.metric ≠ none → s'.inst ≠ none := by
  cases h with
  | init inst => exact fun hne => absurd rfl hne
  | create d m => exact fun _ hinst => hg ⟨hinst, trivial⟩
  | _ => exact hcoh

end Metric

theorem unguarded_iff {s : CMetricsMetric lib} {m : MetricMethod} {r : Request}
    (hself : w.heap id = .metric k s) (hp : Metric.plan k s m = .ok r) :
    Unguarded (.metric k id m) w ↔ s.inst = none ∧ r.UsesContext := by
  constructor
  · rintro ⟨s', r', hs', hinst, hp', hr'⟩
    obtain rfl := metric_inj hself hs'
    obtain rfl := Except.ok.inj (hp.symm.trans hp')
    exact ⟨hinst, hr'⟩
  · rintro ⟨hinst, hr⟩
    exact ⟨s, r, hself, hinst, hp, hr⟩

theorem step_metric (hnull : NoNull w) (hcoh : Coherent w) (k : Kind) (id : ObjId) (m : MetricMethod) :
    (NoNull (step (.metric k id m) w) ↔ ¬ Unguarded (.metric k id m) w) ∧
      (¬ Unguarded (.metric k id m) w → Coherent (step (.metric k id m) w)) := by
  by_cases hself : ∃ s, w.heap id = .metric k s
  · obtain ⟨s, hself⟩ := hself
    rcases Metric.send_does hself m with ⟨e, hp, hr⟩ | ⟨r, calls, s', hp, hasks, hdoes⟩
    · have hstep : step (.metric k id m) w = w := by
        show stateOf _ = w
        rw [hr]
        rfl
      rw [hstep]
      refine ⟨iff_of_true hnull ?_, fun _ => hcoh⟩
      rintro ⟨s', r, hs', -, hp', -⟩
      obtain rfl := metric_inj hself hs'
      cases hp.symm.trans hp'
    · have hdoes : w.Does id calls (.metric k s') (step (.metric k id m) w) := hdoes
      have hs := hcoh id k s hself
      rw [unguarded_iff hself hp, noNull_iff_of_does hnull hdoes]
      refine ⟨Metric.passesNull_asks hs (Metric.plan_cases hp) hasks, fun hg => ?_⟩
      refine coherent_of_does hcoh hdoes fun k' t ht => ?_
      cases ht
      exact Metric.coherent_asks hs hasks hg
  · have hstep : step (.metric k id m) w = w := Metric.send_of_not (not_exists.1 hself) m
    rw [hstep]
    refine ⟨iff_of_true hnull ?_, fun _ => hcoh⟩
    rintro ⟨s, r, hs, -⟩
    exact hself ⟨s, hs⟩

theorem passesNull_serde {s s' : CMetricsSerde lib} {m : SerdeMethod}
    (hlib : ∀ mem, (lib.cmtCreate mem).1 ≠ none) (hcoh : Coherent w) (h : Serde.Asks w s m calls s') :
    ∀ c ∈ calls, ¬ c.PassesNull := by
  cases h with
  | init => exact List.forall_mem_singleton.2 nofun
  | decoded => exact List.forall_mem_singleton.2 nofun
  | undecoded => exact List.forall_mem_singleton.2 nofun
  | created => exact List.forall_mem_singleton.2 nofun
  | appended v id k src ret hinst hsrc hm =>
    refine List.forall_mem_singleton.2 ?_
    rintro (hdst | hnone)
    · exact hinst hdst
    · exact hcoh id k src hsrc hm hnone
  | appendedNew v id k src ret _ hsrc hm =>
    refine List.forall_mem_cons.2 ⟨nofun, List.forall_mem_singleton.2 ?_⟩
    rintro (hdst | hnone)
    · exact hlib _ hdst
    · exact hcoh id k src hsrc hm hnone
  | exported e calls hinst hcalls => exact (passesNull_export hcalls).2 hinst

theorem step_alloc_safe (hnull : NoNull w) (hcoh : Coherent w) (id : ObjId) (c : Cls) :
    NoNull (step (.alloc id c) w) ∧ Coherent (step (.alloc id c) w) := by
  rcases step_alloc (w := w) id c with ⟨-, hstep⟩ | hstep
  · have hdoes : w.Does id [] c.blank (w.put id c.blank) := ⟨rfl, (List.append_nil _).symm, rfl⟩
    rw [hstep]
    refine ⟨(noNull_iff_of_does hnull hdoes).2 nofun, coherent_of_does hcoh hdoes fun k s hs => ?_⟩
    cases c with
    | metric k' => cases hs; exact fun hne => absurd rfl hne
    | serde => cases hs
  · rw [hstep]
    exact ⟨hnull, hcoh⟩

theorem step_serde_safe (hlib : ∀ mem, (lib.cmtCreate mem).1 ≠ none) (hnull : NoNull w)
    (hcoh : Coherent w) (id : ObjId) (m : SerdeMethod) :
    NoNull (step (.serde id m) w) ∧ Coherent (step (.serde id m) w) := by
  by_cases hself : ∃ s, w.heap id = .serde s
  · obtain ⟨s, hself⟩ := hself
    rcases Serde.send_does hself m with hr | ⟨calls, s', hasks, hdoes⟩
    · have hstep : step (.serde id m) w = w := hr
      rw [hstep]
      exact ⟨hnull, hcoh⟩
    · have hdoes : w.Does id calls (.serde s') (step (.serde id m) w) := hdoes
      exact ⟨(noNull_iff_of_does hnull hdoes).2 (passesNull_serde hlib hcoh hasks),
        coherent_of_does hcoh hdoes nofun⟩
  · have hstep : step (.serde id m) w = w := Serde.send_of_not (not_exists.1 hself) m
    rw [hstep]
    exact ⟨hnull, hcoh⟩

theorem step_feedTurn_safe (hnull : NoNull w) (hcoh : Coherent w) (id : ObjId) (c : Serde.DecodeCall) :
    NoNull (step (.feedTurn id c) w) ∧ Coherent (step (.feedTurn id c) w) := by
  by_cases hself : ∃ s, w.heap id = .serde s
  · obtain ⟨s, hself⟩ := hself
    have hdoes := Serde.decodeInto_does hself c
    rw [step_feedTurn hself]
    exact ⟨(noNull_iff_of_does hnull hdoes).2 (List.forall_mem_singleton.2 nofun),
      coherent_of_does hcoh hdoes nofun⟩
  · rw [step_feedTurn_of_not (not_exists.1 hself)]
    exact ⟨hnull, hcoh⟩

theorem step_safe (hlib : ∀ mem, (lib.cmtCreate mem).1 ≠ none) (hnull : NoNull w) (hcoh : Coherent w)
    (a : Act E) : (NoNull (step a w) ↔ ¬ Unguarded a w) ∧ (¬ Unguarded a w → Coherent (step a w)) := by
  cases a with
  | metric k id m => exact step_metric hnull hcoh k id m
  | alloc id c =>
    have h := step_alloc_safe hnull hcoh id c
    exact ⟨iff_of_true h.1 fun hu => hu, fun _ => h.2⟩
  | serde id m =>
    have h := step_serde_safe hlib hnull hcoh id m
    exact ⟨iff_of_true h.1 fun hu => hu, fun _ => h.2⟩
  | feedTurn id c =>
    have h := step_feedTurn_safe hnull hcoh id c
    exact ⟨iff_of_true h.1 fun hu => hu, fun _ => h.2⟩
  | ruby env => exact ⟨iff_of_true hnull fun hu => hu, fun _ => hcoh⟩

/-! ### Whole runs -/

/-- From the start of a program on, the library is never given a NULL exactly when no call is unguarded. -/
theorem always_noNull_iff (hlib : ∀ mem, (lib.cmtCreate mem).1 ≠ none) (hheap : ∀ id, w.heap id = .free)
    (hlog : w.log = []) (as : List (Act E)) :
    Machine.Always step NoNull as w ↔ Machine.Along step (fun a w => ¬ Unguarded a w) as w := by
  have hnull : NoNull w := by
    unfold NoNull
    rw [hlog]
    nofun
  have hcoh : Coherent w := by
    intro id k s hs
    rw [hheap] at hs
    cases hs
  exact Machine.always_iff_along hnull hcoh (fun a _ w hn hc => (step_safe hlib hn hc a).1)
    fun a _ w hn hc => (step_safe hlib hn hc a).2

open Reference (start)

/-- A counter that is allocated, initialized, created and exported, and a Serde it is added to. -/
theorem always_noNull_counter : Machine.Always step NoNull
    [.alloc 0 (.metric .counter), .metric .counter 0 .init,
      .metric .counter 0 (.create [.string [], .string [], .string [0x61], .string [0x68]]),
      .metric .counter 0 .toText, .alloc 1 .serde, .serde 1 (.concat (.object 0))]
    (start [] () []) := by
  have hlib : ∀ mem, ((reference []).cmtCreate mem).1 ≠ none := fun mem => nofun
  refine (always_noNull_iff hlib (fun _ => rfl) rfl _).2 ⟨?_, ?_, ?_, ?_, ?_, ?_, trivial⟩
  · exact fun hu => hu
  · rintro ⟨s, r, hs, -, hp, hr⟩
    cases hp
    exact hr
  · rintro ⟨s, r, hs, hinst, -⟩
    cases hs
    cases hinst
  · rintro ⟨s, r, hs, hinst, -⟩
    cases hs
    cases hinst
  · exact fun hu => hu
  · exact fun hu => hu

/-- `CMetrics::Counter.allocate.to_msgpack` hands NULL to the encoder and does not raise. -/
theorem allocate_to_msgpack : ∃ v w', (Metric.send .counter 0 .toMsgpack).run
    (step (.alloc 0 (.metric .counter)) (start [] () [])) = .ok v w' ∧ ¬ NoNull w' := by
  refine ⟨_, _, rfl, fun hnull => ?_⟩
  exact hnull (.encodeMsgpack none _ _) (List.mem_singleton_self _) rfl

end CmetricsRuby
