import CmetricsRuby.Tally
import CmetricsRuby.Proofs.Lifetimes

/-!
# A metric object is its table

Whatever a program does with its other objects, and whatever the garbage collector frees, a metric object holds
the table that its own method calls make, and answers by it. Its series have nothing to do with each other.
-/

namespace CmetricsRuby

variable {lib : Library} {E : Type} {w w' w₀ : World lib E} {id id' : ObjId} {k : Kind} {o os : Obj lib}
  {calls log : List (LibCall lib)} {s : InUse lib} {m : lib.Metric} {mem₀ mem mem' : lib.Mem}
  {takes : Kind → lib.Mem → lib.Metric → Nat → Bool} {rounding : Rounding} {t : CMetricsMetric lib}

/-! ### Histories -/

theorem tracing_cmtDestroy (cmt : Option lib.Ctx) : Tracing (cmtDestroy cmt : M lib E Unit) := .call fun _ => rfl

theorem tracing_cmtMetricDestroy (k : Kind) (m : Option lib.Metric) :
    Tracing (cmtMetricDestroy k m : M lib E Unit) := .call fun _ => rfl

theorem tracing_metricFree (k : Kind) (id : ObjId) : Tracing (Metric.free k id : M lib E Unit) := by
  refine .bind (.metricStruct k id) fun s => ?_
  have hput : Tracing (putObj id .free : M lib E Unit) := .putObj _ _
  have hinst := Tracing.ite (c := s.inst.isSome = true) ((tracing_cmtDestroy s.inst).bind fun _ => hput) hput
  exact .ite ((tracing_cmtMetricDestroy k s.metric).bind fun _ => hinst) hinst

theorem tracing_serdeFree (id : ObjId) : Tracing (Serde.free id : M lib E Unit) := by
  refine .bind (.serdeStruct id) fun s => ?_
  have hput : Tracing (putObj id .free : M lib E Unit) := .putObj _ _
  exact .ite ((tracing_cmtDestroy s.inst).bind fun _ => hput) hput

theorem gcStep_traced (a : GcAct E) (w : World lib E) : w.Traced (gcStep a w) := by
  cases a with
  | act a => exact step_traced a w
  | collect id =>
    simp only [gcStep, collect]
    cases w.heap id with
    | free => exact .refl w
    | metric k s => exact tracing_metricFree k id w
    | serde s => exact tracing_serdeFree id w

namespace Library.History

theorem append (h : lib.History mem₀ log mem) (ht : Trace calls mem mem')
    (hvalid : Machine.Along InUse.after InUse.Valid calls (Machine.run InUse.after log .nothing))
    (hfresh : Machine.Along InUse.after InUse.Fresh calls (Machine.run InUse.after log .nothing)) :
    lib.History mem₀ (log ++ calls) mem' where
  trace := h.trace.append ht
  valid := Machine.along_append.2 ⟨h.valid, hvalid⟩
  fresh := Machine.along_append.2 ⟨h.fresh, hfresh⟩

end Library.History

/-! ### Calls that have nothing to do with a metric -/

/-- None of the calls ends the metric or updates it. -/
def Spares (k : Kind) (m : lib.Metric) (calls : List (LibCall lib)) (s : InUse lib) : Prop :=
  Machine.Along InUse.after (fun c s => .metric k m ∉ s.ended c ∧ ¬ c.updates k m) calls s

theorem table_of_spares (hlib : lib.Tabulates rounding takes) (h : lib.History mem₀ log mem)
    (hm : .metric k m ∈ (Machine.run InUse.after log .nothing).ptrs) (ht : Trace calls mem mem')
    (hvalid : Machine.Along InUse.after InUse.Valid calls (Machine.run InUse.after log .nothing))
    (hfresh : Machine.Along InUse.after InUse.Fresh calls (Machine.run InUse.after log .nothing))
    (hspares : Spares k m calls (Machine.run InUse.after log .nothing)) :
    takes k mem' m = takes k mem m ∧ lib.table k m mem' = lib.table k m mem := by
  induction calls generalizing log mem with
  | nil =>
    obtain rfl : mem' = mem := ht
    exact ⟨rfl, rfl⟩
  | cons c calls ih =>
    obtain ⟨mem₁, hc, ht⟩ := ht
    obtain ⟨⟨hended, hupdates⟩, hspares⟩ := hspares
    have h₁ : lib.History mem₀ (log ++ [c]) mem₁ :=
      h.append ⟨mem₁, hc, rfl⟩ ⟨hvalid.1, trivial⟩ ⟨hfresh.1, trivial⟩
    have hrun : Machine.run InUse.after (log ++ [c]) .nothing =
        (Machine.run InUse.after log .nothing).after c := Machine.run_append
    have ih := ih h₁ (hrun ▸ .inl ⟨hm, hended⟩) ht (hrun ▸ hvalid.2) (hrun ▸ hfresh.2) (hrun ▸ hspares)
    obtain ⟨htakes, htable⟩ := hlib.frame h hc hvalid.1 hfresh.1 hm hended hupdates
    exact ⟨ih.1.trans htakes, ih.2.trans htable⟩

theorem spares_export {inst : Option lib.Ctx} (hcalls : ExportCalls inst calls) : Spares k m calls s := by
  cases hcalls with
  | failed e => exact ⟨⟨nofun, nofun⟩, trivial⟩
  | freed e p => exact ⟨⟨nofun, nofun⟩, ⟨nofun, nofun⟩, trivial⟩
  | msgpack ret p => exact ⟨⟨nofun, nofun⟩, trivial⟩

theorem spares_update {u : Update} {m' : Option lib.Metric} {ts : Nat} {n ret : Int} {L : List CStr}
    (h : m'.map (Ptr.metric u.kind) ≠ some (.metric k m)) : Spares k m [.update u m' ts n L ret] s := by
  refine ⟨⟨nofun, ?_⟩, trivial⟩
  rintro ⟨rfl, rfl⟩
  exact h rfl

/-- A step of one object spares the metrics of the others, and its own when it does not update it. -/
theorem spares_metric {k' : Kind} {t' : CMetricsMetric lib} {r : Request} {m' : MetricMethod}
    (hp : Metric.plan k' t m' = .ok r) (hasks : Metric.Asks k' t r calls t')
    (h : (Obj.metric k' t).metricPtr ≠ some (.metric k m) ∨ ∀ u n L, r ≠ .update u n L) : Spares k m calls s := by
  cases hasks with
  | init inst => exact ⟨⟨nofun, nofun⟩, ⟨nofun, nofun⟩, trivial⟩
  | update u ts n L ret =>
    rcases h with h | h
    · cases Metric.plan_cases hp with
      | update m' u v L _ hk =>
        subst hk
        exact spares_update h
    · exact absurd rfl (h u n L)
  | encode e calls hcalls => exact spares_export hcalls
  | text calls hcalls => exact spares_export hcalls
  | msgpack calls hcalls => exact spares_export hcalls
  | _ => exact ⟨⟨nofun, nofun⟩, trivial⟩

theorem spares_serde {t t' : CMetricsSerde lib} {m' : SerdeMethod} (hasks : Serde.Asks w t m' calls t') :
    Spares k m calls s := by
  cases hasks with
  | exported e calls hinst hcalls => exact spares_export hcalls
  | appendedNew v id k src ret hinst hsrc hm => exact ⟨⟨nofun, nofun⟩, ⟨nofun, nofun⟩, trivial⟩
  | _ => exact ⟨⟨nofun, nofun⟩, trivial⟩

theorem spares_objectStep {a : Act E} (h : ObjectStep w a id calls o) (hm : (w.heap id).metricPtr ≠ some (.metric k m)) :
    Spares k m calls s := by
  cases h with
  | alloc id c => trivial
  | metric ho hp hasks =>
    rw [ho] at hm
    exact spares_metric hp hasks (.inl hm)
  | serde ho hasks => exact spares_serde hasks
  | feedTurn ho hasks => exact spares_serde hasks

/-- Freeing another object ends nothing of this one. -/
theorem spares_freeCalls {heap : ObjId → Obj lib} (h : Tidy s heap) (hid : id ≠ id')
    (hm : (heap id).metricPtr = some (.metric k m)) : Spares k m (heap id').freeCalls s := by
  have hown : .metric k m ∈ (heap id).owns := Obj.metric_mem_owns.2 hm
  have hctx : .metric k m ∉ s.ended (.destroy (heap id').ctx) := fun he => h.not_mem_destroyed hid he hown
  have hmetric : .metric k m ∉ there (heap id').metricPtr := fun he =>
    hid (h.owned.apart hown (.inr he))
  cases ho : heap id' with
  | free => trivial
  | serde t =>
    rw [ho] at hctx
    cases hinst : t.inst with
    | none =>
      simp only [Obj.freeCalls, hinst]
      trivial
    | some x =>
      simp only [Obj.ctx, hinst] at hctx
      simp only [Obj.freeCalls, hinst]
      exact ⟨⟨hctx, not_false⟩, trivial⟩
  | metric k t =>
    rw [ho] at hctx hmetric
    cases hmet : t.metric <;> cases hinst : t.inst <;> simp only [Obj.freeCalls, hmet, hinst] <;>
      simp only [Obj.ctx, Obj.metricPtr, hmet, hinst] at hctx hmetric
    · trivial
    · exact ⟨⟨hctx, not_false⟩, trivial⟩
    · exact ⟨⟨hmetric, not_false⟩, trivial⟩
    · exact ⟨⟨hmetric, not_false⟩, ⟨hctx, not_false⟩, trivial⟩

/-! ### One action -/

/-- The object is a metric object with a metric, in a state that a program gets to from its start. -/
structure Holds (mem₀ : lib.Mem) (k : Kind) (id : ObjId) (t : CMetricsMetric lib) (w : World lib E) : Prop where
  safe : w.Safe
  trace : Trace w.log mem₀ w.mem
  fresh : w.FreshLog
  self : w.heap id = .metric k t

namespace Holds

theorem history (h : Holds mem₀ k id t w) : lib.History mem₀ w.log w.mem := ⟨h.trace, h.safe.noDangling, h.fresh⟩

theorem mem_inUse (h : Holds mem₀ k id t w) (hm : t.metric = some m) :
    .metric k m ∈ w.inUse.ptrs := by
  have hsub := h.safe.tidy.metric_sub id
  rw [h.self] at hsub
  refine hsub ?_
  rw [mem_there, Obj.metricPtr, hm]
  rfl

theorem next (h : Holds mem₀ k id t w) {a : GcAct E} (hfresh : (gcStep a w).FreshLog)
    (hself : (gcStep a w).heap id = .metric k t) : Holds mem₀ k id t (gcStep a w) where
  safe := h.safe.gcStep hfresh
  trace := by
    obtain ⟨calls, hlog, ht⟩ := gcStep_traced a w
    rw [hlog]
    exact h.trace.append ht
  fresh := hfresh
  self := hself

/-- Calls that spare the metric leave its table. -/
theorem table_of_does (h : Holds mem₀ k id t w) (hlib : lib.Tabulates rounding takes) (hm : t.metric = some m)
    (hdoes : w.Does id' calls o w') (ht : w.Traced w') (hgoes : Goes w.inUse w.heap id' calls o)
    (hfresh : w'.FreshLog) (hspares : Spares k m calls w.inUse) :
    takes k w'.mem m = takes k w.mem m ∧ lib.table k m w'.mem = lib.table k m w.mem := by
  have htable := table_of_spares hlib h.history (h.mem_inUse hm) (ht.trace hdoes) hgoes.valid
    (World.freshLog_of_does hdoes hfresh).2 hspares
  exact htable

end Holds

/-- An action that calls no method of the object spares its metric, and so does one on another object. -/
theorem spares_of_not_methodOn {a : GcAct E} (h : Tidy w.inUse w.heap) (hself : w.heap id = .metric k t)
    (hm : t.metric = some m) (ha : a.methodOn k id = none) (hkeep : ¬ a.Resets k id)
    (hstep : GcObjectStep w a id' calls o) : id' ≠ id ∧ Spares k m calls w.inUse := by
  have hmetric : (w.heap id).metricPtr = some (.metric k m) := by
    rw [hself, Obj.metricPtr, hm]
    rfl
  have hid : id' ≠ id := by
    rintro rfl
    cases hstep with
    | collect i => exact hkeep rfl
    | act hstep =>
      cases hstep with
      | alloc i c ho =>
        rw [hself] at ho
        cases ho
      | metric ho hp hasks =>
        have h' := hself.symm.trans ho
        cases h'
        simp [GcAct.methodOn] at ha
      | serde ho hasks =>
        rw [hself] at ho
        cases ho
      | feedTurn ho hasks =>
        rw [hself] at ho
        cases ho
  refine ⟨hid, ?_⟩
  cases hstep with
  | collect i => exact spares_freeCalls h hid.symm hmetric
  | act hstep =>
    refine spares_objectStep hstep fun hm' => hid ?_
    exact h.owned.apart (Obj.metric_mem_owns.2 hm') (Obj.metric_mem_owns.2 hmetric)

/-- A method of the object that makes no new metric. -/
structure Tabled (rounding : Rounding) (takes : Kind → lib.Mem → lib.Metric → Nat → Bool) (k : Kind) (id : ObjId)
    (t : CMetricsMetric lib) (m : lib.Metric) (m' : MetricMethod) (w w' : World lib E) : Prop where
  self : w'.heap id = .metric k t
  sameTakes : takes k w'.mem m = takes k w.mem m
  table : lib.table k m w'.mem = (lib.table k m w.mem).call rounding (takes k w.mem m) k t m'
  answers : ∀ r, Metric.plan k t m' = .ok r →
    (lib.table k m w.mem).Answers (takes k w.mem m) r (outcomeOf ((Metric.send k id m').run w))

theorem tabled_update (h : Holds mem₀ k id t w) (hlib : lib.Tabulates rounding takes) (hm : t.metric = some m)
    {m' : MetricMethod} {u : Update} {L : List CStr} (hk : u.kind = k)
    (hp : Metric.plan k t m' = .ok (.update u L.length L)) :
    Tabled rounding takes k id t m m' w (stateOf ((Metric.send k id m').run w)) := by
  have hrun := (Metric.run_send_ok (E := E) h.self hp).trans (Metric.run_perform_update ..)
  subst hk
  obtain ⟨htakes, hup⟩ := hlib.update h.history u (h.mem_inUse hm) (lib.cflTimeNow w.mem) L
  rw [hm] at hrun
  by_cases hacc : (lib.table u.kind m w.mem).accepts (takes u.kind w.mem m) u L = true
  · rw [if_pos hacc] at hup
    constructor
    · rw [hrun]
      exact h.self
    · rw [hrun]
      exact htakes
    · rw [hrun]
      simp only [Table.call, hp, Table.ask, if_pos hacc]
      exact hup.2
    · intro r hr
      cases hp.symm.trans hr
      rw [hrun, outcomeOf_ok, Metric.retBool_of_eq hup.1]
      exact congrArg Except.ok (if_pos hacc).symm
  · rw [if_neg hacc] at hup
    constructor
    · rw [hrun]
      exact h.self
    · rw [hrun]
      exact htakes
    · rw [hrun]
      simp only [Table.call, hp, Table.ask, if_neg hacc]
      exact hup.2
    · intro r hr
      cases hp.symm.trans hr
      rw [hrun, outcomeOf_ok, Metric.retBool_of_ne hup.1]
      exact congrArg Except.ok (if_neg hacc).symm

theorem tabled_getVal (h : Holds mem₀ k id t w) (hm : t.metric = some m) {m' : MetricMethod} {L : List CStr}
    (hp : Metric.plan k t m' = .ok (.getVal L.length L)) :
    Tabled rounding takes k id t m m' w (stateOf ((Metric.send k id m').run w)) := by
  have hrun := (Metric.run_send_ok (E := E) h.self hp).trans (Metric.run_perform_getVal ..)
  rw [hm] at hrun
  constructor
  · rw [hrun]
    exact h.self
  · rw [hrun]
    rfl
  · rw [hrun]
    simp only [Table.call, hp, Table.ask]
    rfl
  · intro r hr
    cases hp.symm.trans hr
    rw [hrun, outcomeOf_ok]
    by_cases hret : (lib.cmtGetVal k (some m) L.length L w.mem).1 = 0
    · simp [Table.Answers, Library.table, hret]
    · simp [Table.Answers, Library.table, hret]

/-- A request that neither updates nor reads. -/
theorem tabled_other (h : Holds mem₀ k id t w) (hlib : lib.Tabulates rounding takes) (hm : t.metric = some m)
    {m' : MetricMethod} {r : Request} (hp : Metric.plan k t m' = .ok r) (hup : ∀ u n L, r ≠ .update u n L)
    (hval : ∀ n L, r ≠ .getVal n L) (hmake : r ≠ .init ∧ ∀ d, r ≠ .create d)
    (hfresh : (stateOf ((Metric.send k id m').run w)).FreshLog) :
    Tabled rounding takes k id t m m' w (stateOf ((Metric.send k id m').run w)) := by
  rcases Metric.send_does h.self m' with ⟨e, hp', -⟩ | ⟨r', calls, t', hp', hasks, hdoes⟩
  · rw [hp] at hp'
    cases hp'
  · cases hp.symm.trans hp'
    have hgoes := Metric.goes (World.freshLog_of_does hdoes hfresh).2 h.safe.tidy h.self hp hasks
    have ht := gcStep_traced (.act (.metric k id m')) w
    obtain ⟨htakes, htable⟩ := h.table_of_does hlib hm hdoes ht hgoes hfresh (spares_metric hp hasks (.inr hup))
    refine ⟨hdoes.heap_self.trans ?_, htakes, htable.trans ?_, ?_⟩
    · cases hasks with
      | init inst => exact absurd rfl hmake.1
      | create d m => exact absurd rfl (hmake.2 d)
      | _ => rfl
    · simp only [Table.call, hp]
      cases r with
      | update u n L => exact absurd rfl (hup u n L)
      | _ => rfl
    · intro r' hr'
      cases hp.symm.trans hr'
      cases r with
      | update u n L => exact absurd rfl (hup u n L)
      | getVal n L => exact absurd rfl (hval n L)
      | _ => trivial

theorem tabled_call (h : Holds mem₀ k id t w) (hlib : lib.Tabulates rounding takes) (hm : t.metric = some m)
    {m' : MetricMethod} (hinit : m' ≠ .init) (hcreate : ∀ argv, m' ≠ .create argv)
    (hfresh : (stateOf ((Metric.send k id m').run w)).FreshLog) :
    Tabled rounding takes k id t m m' w (stateOf ((Metric.send k id m').run w)) := by
  cases hp : Metric.plan k t m' with
  | error e =>
    rw [Metric.run_send_error h.self hp]
    refine ⟨h.self, rfl, ?_, fun r hr => ?_⟩
    · simp only [Table.call, hp]
      rfl
    · rw [hp] at hr
      cases hr
  | ok r =>
    cases Metric.plan_cases hp with
    | init => exact absurd rfl hinit
    | create argv => exact absurd rfl (hcreate argv)
    | update m' u v L _ hk => exact tabled_update h hlib hm hk hp
    | getVal argv L => exact tabled_getVal h hm hp
    | _ => exact tabled_other h hlib hm hp nofun nofun ⟨nofun, nofun⟩ hfresh

theorem methodOn_eq_some {a : GcAct E} {m' : MetricMethod} (h : a.methodOn k id = some m') :
    a = .act (.metric k id m') := by
  unfold GcAct.methodOn at h
  split at h
  · split at h
    · rename_i hkind
      obtain ⟨rfl, rfl⟩ := hkind
      cases h
      rfl
    · cases h
  · cases h

/-- An action of the program or of the garbage collector, on whatever object. -/
theorem tabled_gcStep (h : Holds mem₀ k id t w) (hlib : lib.Tabulates rounding takes) (hm : t.metric = some m) {a : GcAct E}
    (hkeep : ¬ a.Resets k id) (hfresh : (gcStep a w).FreshLog) :
    Holds mem₀ k id t (gcStep a w) ∧ takes k (gcStep a w).mem m = takes k w.mem m ∧
    lib.table k m (gcStep a w).mem = ((a.methodOn k id).toList.foldl (Table.call rounding (takes k w.mem m) k t)
      (lib.table k m w.mem)) ∧
    ∀ m' r, a.methodOn k id = some m' → Metric.plan k t m' = .ok r →
      (lib.table k m w.mem).Answers (takes k w.mem m) r (outcomeOf ((Metric.send k id m').run w)) := by
  cases ha : a.methodOn k id with
  | some m' =>
    obtain rfl := methodOn_eq_some ha
    have hinit : m' ≠ .init := by
      rintro rfl
      exact hkeep (.inl ha)
    have hcreate : ∀ argv, m' ≠ .create argv := by
      rintro argv rfl
      exact hkeep (.inr ⟨argv, ha⟩)
    have htabled := tabled_call h hlib hm hinit hcreate hfresh
    refine ⟨h.next hfresh htabled.self, htabled.sameTakes, htabled.table, fun m'' r hm'' hp => ?_⟩
    cases hm''
    exact htabled.answers r hp
  | none =>
    rcases gcStep_cases a w with ⟨hheap, hlog⟩ | ⟨id', calls, o, hstep, hdoes⟩
    · have hmem : (gcStep a w).mem = w.mem := by
        obtain ⟨calls, hcalls, ht⟩ := gcStep_traced a w
        rw [hlog] at hcalls
        rw [List.self_eq_append_right.1 hcalls] at ht
        exact ht
      refine ⟨h.next hfresh (hheap ▸ h.self), by rw [hmem], ?_, nofun⟩
      rw [hmem]
      rfl
    · obtain ⟨hid, hspares⟩ := spares_of_not_methodOn h.safe.tidy h.self hm ha hkeep hstep
      have hgoes := goes_gcObjectStep h.safe.tidy hstep (World.freshLog_of_does hdoes hfresh).2
      obtain ⟨htakes, htable⟩ := h.table_of_does hlib hm hdoes (gcStep_traced a w) hgoes hfresh hspares
      exact ⟨h.next hfresh ((hdoes.heap_of_ne hid.symm).trans h.self), htakes, htable, nofun⟩

/-! ### Whole runs -/

theorem tabled_run (hlib : lib.Tabulates rounding takes) (hm : t.metric = some m) {as : List (GcAct E)}
    (h : Holds mem₀ k id t w) (hkeep : ∀ a ∈ as, ¬ a.Resets k id)
    (hfresh : Machine.Along gcStep (fun a w => (gcStep a w).FreshLog) as w) :
    let w' := Machine.run gcStep as w
    w'.heap id = .metric k t ∧
    lib.table k m w'.mem = (as.filterMap (GcAct.methodOn k id)).foldl (Table.call rounding (takes k w.mem m) k t)
      (lib.table k m w.mem) ∧
    Machine.Along gcStep (fun a v => ∀ m' r, a.methodOn k id = some m' → Metric.plan k t m' = .ok r →
      (lib.table k m v.mem).Answers (takes k w.mem m) r (outcomeOf ((Metric.send k id m').run v))) as w := by
  induction as generalizing w with
  | nil => exact ⟨h.self, rfl, trivial⟩
  | cons a as ih =>
    obtain ⟨ha, has⟩ := List.forall_mem_cons.1 hkeep
    obtain ⟨h', htakes, htable, hanswers⟩ := tabled_gcStep h hlib hm ha hfresh.1
    obtain ⟨hself, hrun, halong⟩ := ih h' has hfresh.2
    rw [htakes] at hrun halong
    refine ⟨hself, ?_, hanswers, halong⟩
    rw [Machine.run, hrun, htable, List.filterMap_cons]
    cases a.methodOn k id with
    | none => rfl
    | some m' => rfl

theorem holds_of_run (hheap : ∀ id, w₀.heap id = .free) (hlog : w₀.log = []) {as₀ : List (GcAct E)}
    (hw : Machine.run gcStep as₀ w₀ = w) (hself : w.heap id = .metric k t) (hfresh : w.FreshLog) :
    Holds w₀.mem k id t w := by
  have hstart : Trace w₀.log w₀.mem w₀.mem := by
    rw [hlog]
    rfl
  subst hw
  have halong := (Machine.along_of_run (I := World.FreshLog) (fun a w => freshLog_of_gcStep) hfresh).2
  refine ⟨?_, ?_, hfresh, hself⟩
  · exact Machine.run_keeps_along (I := World.Safe) halong (safe_start hheap hlog) fun a w hR h => h.gcStep hR
  · refine Machine.run_keeps (I := fun w : World lib E => Trace w.log w₀.mem w.mem) hstart fun a w h => ?_
    obtain ⟨calls, hcalls, ht⟩ := gcStep_traced a w
    rw [hcalls]
    exact h.append ht

/-- A metric object of a running program holds the table that its own calls make, one after the other, of the
one it had, and answers each of them by the table it has then; nothing else in the program shows in it. -/
theorem run_table (hlib : lib.Tabulates rounding takes) (hheap : ∀ id, w₀.heap id = .free) (hlog : w₀.log = [])
    (as₀ : List (GcAct E)) (hw : Machine.run gcStep as₀ w₀ = w) (hself : w.heap id = .metric k t)
    (hm : t.metric = some m) (as : List (GcAct E)) (hkeep : ∀ a ∈ as, ¬ a.Resets k id)
    (hfresh : (Machine.run gcStep as w).FreshLog) :
    let w' := Machine.run gcStep as w
    w'.heap id = .metric k t ∧
    lib.table k m w'.mem = (as.filterMap (GcAct.methodOn k id)).foldl (Table.call rounding (takes k w.mem m) k t)
      (lib.table k m w.mem) ∧
    Machine.Along gcStep (fun a v => ∀ m' r, a.methodOn k id = some m' → Metric.plan k t m' = .ok r →
      (lib.table k m v.mem).Answers (takes k w.mem m) r (outcomeOf ((Metric.send k id m').run v))) as w := by
  have halong := Machine.along_of_run (I := World.FreshLog) (fun a w => freshLog_of_gcStep) hfresh
  exact tabled_run hlib hm (holds_of_run hheap hlog hw hself halong.1) hkeep halong.2

/-! ### One series -/

namespace Table

variable {takesN : Nat → Bool} {L : List CStr}

end Table

def gaugeMade (id : ObjId) : List (GcAct Unit) :=
  [.act (.alloc id (.metric .gauge)), .act (.metric .gauge id .init),
    .act (.metric .gauge id (.create [.string [], .string [], .string [0x61], .string [0x68]]))]

/-- Of two gauges both are updated; then one is read and the other freed. -/
def gaugeUpdates : List (GcAct Unit) :=
  [.act (.metric .gauge 0 (.increment [])), .act (.metric .gauge 1 (.decrement [])),
    .act (.metric .gauge 0 (.decrement []))]

def gaugeUses : List (GcAct Unit) := gaugeUpdates ++ [.act (.metric .gauge 0 (.getValue [])), .collect 1]

def noGauge : World tally Unit := ⟨fun _ => .free, ⟨0, fun _ => 0, fun _ _ => none⟩, [], ()⟩

theorem noGauge_heap (id : ObjId) : noGauge.heap id = .free := rfl

def gauges : World tally Unit := Machine.run gcStep (gaugeMade 0 ++ gaugeMade 1) noGauge

def gaugeLog (c c' : tally.Ctx) (x x' : tally.Metric) : List (LibCall tally) :=
  let made : MetricDef := ⟨.ofPtr [], .ofPtr [], .ofPtr [0x61], .ofPtr [0x68], 0, []⟩
  [.init, .create (some c), .metricCreate .gauge (some c) made (some x),
    .init, .create (some c'), .metricCreate .gauge (some c') made (some x'),
    .update .gaugeInc (some x) 0 0 [] 0, .update .gaugeDec (some x') 0 0 [] 0, .update .gaugeDec (some x) 0 0 [] 0,
    .getVal .gauge (some x) 0 [] 0, .metricDestroy .gauge (some x'), .destroy (some c')]

theorem fresh_gaugeLog {c c' : tally.Ctx} {x x' : tally.Metric} (hc : c ≠ c') (hx : x ≠ x') :
    Machine.Along InUse.after InUse.Fresh (gaugeLog c c' x x') .nothing := by
  simp [gaugeLog, Machine.Along, InUse.Fresh, InUse.mem_after, InUse.nothing, LibCall.returned, hc, hx]

theorem log_gaugeUses : (Machine.run gcStep gaugeUses gauges).log = gaugeLog (0 : Nat) (2 : Nat) (1 : Nat) (3 : Nat) :=
  rfl

theorem freshLog_gaugeUses : (Machine.run gcStep gaugeUses gauges).FreshLog := by
  have hc : (0 : Nat) ≠ 2 := by decide
  have hx : (1 : Nat) ≠ 3 := by decide
  rw [World.FreshLog, log_gaugeUses]
  exact fresh_gaugeLog hc hx

theorem gauges_self : gauges.heap 0 = .metric .gauge ⟨some (0 : Nat), some (1 : Nat)⟩ := rfl

theorem keep_gaugeUses : ∀ a ∈ gaugeUses, ¬ a.Resets .gauge 0 := by
  simp [gaugeUses, gaugeUpdates, GcAct.Resets, GcAct.methodOn]

theorem run_table_gaugeUses :
    let w' := Machine.run gcStep gaugeUses gauges
    w'.heap 0 = .metric .gauge ⟨some (0 : Nat), some (1 : Nat)⟩ ∧ tally.table .gauge (1 : Nat) w'.mem [] = 0 := by
  obtain ⟨hself, htable, -⟩ := run_table Tally.tabulates noGauge_heap rfl (gaugeMade 0 ++ gaugeMade 1)
    rfl gauges_self rfl gaugeUses keep_gaugeUses freshLog_gaugeUses
  exact ⟨hself, (congrFun htable []).trans (by decide +kernel)⟩

end CmetricsRuby
