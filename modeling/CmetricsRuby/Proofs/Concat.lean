import CmetricsRuby.Proofs.Metrics
import CmetricsRuby.Proofs.Sound

/-!
# What `concat` adds

`concat` makes a context for the Serde if it has none, checks its argument, and calls `cmt_cat`.
-/

namespace CmetricsRuby

variable {lib : Library} {E : Type} {live : lib.Mem → lib.Ctx → Prop} {w w' : World lib E}
  {self id : ObjId} {k : Kind} {v : Value}

/-! ### What an object's context holds -/

def World.context (w : World lib E) (id : ObjId) : Option Cmt := (w.heap id).ctx.map (lib.cmt w.mem)

def World.maps (w : World lib E) (id : ObjId) (k : Kind) : List CmtMap :=
  (w.context id).elim [] (·.maps k)

/-- `v` is a metric object with a successful `create` behind it. -/
def World.Created (w : World lib E) (k : Kind) (id : ObjId) : Prop :=
  ∃ src, w.heap id = .metric k src ∧ src.metric ≠ none

namespace Serde

variable {s : CMetricsSerde lib} {src : CMetricsMetric lib}

/-- The context `concat` adds to, and the world once it is there. -/
def withContext (self : ObjId) (s : CMetricsSerde lib) (w : World lib E) : Option lib.Ctx × World lib E :=
  match s.inst with
  | some ctx => (some ctx, w)
  | none =>
    let r := lib.cmtCreate w.mem
    (r.1, (w.called (.create r.1) r.2).put self (.serde { s with inst := r.1 }))

theorem run_ensureInst (self : ObjId) (s : CMetricsSerde lib) (w : World lib E) :
    (ensureInst self s : M lib E _).run w = .ok (withContext self s w).1 (withContext self s w).2 := by
  unfold withContext
  cases hinst : s.inst with
  | some ctx =>
    rw [run_ensureInst_some hinst, hinst]
  | none => exact run_ensureInst_none hinst

theorem with_inst {inst : Option lib.Ctx} (h : s.inst = inst) :
    ({ s with inst := inst } : CMetricsSerde lib) = s := by
  rw [← h]

theorem withContext_heap (hself : w.heap self = .serde s) :
    (withContext self s w).2.heap =
      Function.update w.heap self (.serde { s with inst := (withContext self s w).1 }) := by
  unfold withContext
  cases hinst : s.inst with
  | some ctx => rw [with_inst hinst, ← hself, Function.update_eq_self]
  | none => rfl

theorem isKindOf_object (hsrc : w.heap id = .metric k src) (k' : Kind) :
    w.isKindOf k' (.object id) = decide (k = k') := by
  simp only [World.isKindOf, hsrc]

theorem concatByClass_metric (hsrc : w.heap id = .metric k src) (inst : Option lib.Ctx) :
    (concatByClass inst (.object id)).run w = (concatFrom k inst (.object id)).run w := by
  have hkind := isKindOf_object hsrc
  cases k with
  | counter => simp [concatByClass, hkind]
  | gauge => simp [concatByClass, hkind]
  | untyped => simp [concatByClass, hkind]

theorem concatByClass_other (h : ∀ k, w.isKindOf k v = false) (inst : Option lib.Ctx) :
    (concatByClass inst v).run w =
      .error (.raised .argError "specified type of instance is not supported.") w := by
  simp [concatByClass, h, rbRaise]

theorem concatByClass_created (hsrc : w.heap id = .metric k src) (hm : src.metric ≠ none)
    (inst : Option lib.Ctx) : (concatByClass inst (.object id)).run w =
      let r := lib.cmtCat inst src.inst w.mem
      .ok () (w.called (.cat inst src.inst r.1) r.2) := by
  obtain ⟨m, hm⟩ := Option.ne_none_iff_exists'.1 hm
  rw [concatByClass_metric hsrc]
  simp [concatFrom, Metric.getPtr, run_metricStruct hsrc, Metric.checkCreated, hm]

theorem concatByClass_of_not (h : ∀ id k, v = .object id → ¬ w.Created k id) (inst : Option lib.Ctx) :
    ∃ cls msg, (concatByClass inst v).run w = .error (.raised cls msg) w := by
  by_cases hv : ∃ id k src, v = .object id ∧ w.heap id = .metric k src
  · obtain ⟨id, k, src, rfl, hsrc⟩ := hv
    have hm : src.metric = none := by
      by_contra hm
      exact h id k rfl ⟨src, hsrc, hm⟩
    rw [concatByClass_metric hsrc]
    refine ⟨.runtimeError, "Create " ++ k.name ++ " with CMetrics::" ++ k.className ++ "#create first.", ?_⟩
    simp [concatFrom, Metric.getPtr, run_metricStruct hsrc, Metric.checkCreated, hm, rbRaise]
  · refine ⟨_, _, concatByClass_other (fun k => ?_) inst⟩
    cases v with
    | object id =>
      cases ho : w.heap id with
      | metric k' src => exact absurd ⟨id, k', src, rfl, ho⟩ hv
      | _ => simp only [World.isKindOf, ho]
    | _ => rfl

/-- `concat` of a created metric: the lazily made context, and then one `cmt_cat`. -/
theorem run_concat_created (hself : w.heap self = .serde s) (hsrc : w.heap id = .metric k src)
    (hm : src.metric ≠ none) : (concatMetric (.object id) self).run w =
      let e := withContext self s w
      let r := lib.cmtCat e.1 src.inst e.2.mem
      .ok .nil (e.2.called (.cat e.1 src.inst r.1) r.2) := by
  have hne := ne_of_metric_serde hsrc hself
  have hsrc' : (withContext self s w).2.heap id = .metric k src := by
    rw [withContext_heap hself, Function.update_of_ne hne, hsrc]
  rw [run_concatMetric hself rfl (run_ensureInst self s w), EStateM.run_bind, concatByClass_created hsrc' hm]
  rfl

/-- `concat` of anything else but `nil`: the context is made all the same. -/
theorem run_concat_of_not (hself : w.heap self = .serde s) (hnil : v.isNil = false)
    (h : ∀ id k, v = .object id → ¬ w.Created k id) : ∃ cls msg,
    (concatMetric v self).run w = .error (.raised cls msg) (withContext self s w).2 := by
  have h' : ∀ id k, v = .object id → ¬ (withContext self s w).2.Created k id := by
    rintro id k hv ⟨src, hsrc, hm⟩
    rw [withContext_heap hself] at hsrc
    by_cases hid : id = self
    · rw [hid, Function.update_self] at hsrc
      cases hsrc
    · rw [Function.update_of_ne hid] at hsrc
      exact h id k hv ⟨src, hsrc, hm⟩
  obtain ⟨cls, msg, hr⟩ := concatByClass_of_not h' (withContext self s w).1
  rw [run_concatMetric hself hnil (run_ensureInst self s w), EStateM.run_bind, hr]
  exact ⟨cls, msg, rfl⟩

theorem run_concat_nil (hself : w.heap self = .serde s) : (concatMetric .nil self).run w =
    .error (.raised .argError "nil is not valid value for concatenating") w := by
  simp [concatMetric, run_serdeStruct hself, Value.isNil, rbRaise]

/-! ### What becomes of the contexts -/

end Serde

theorem World.context_kept {cmt : Option lib.Ctx} (hfits : Fits live w.mem (w.heap id))
    (hheap : w'.heap id = w.heap id) (hkept : KeptBut live cmt w.mem w'.mem)
    (hne : ∀ c, (w.heap id).ctx = some c → cmt ≠ some c) : w'.context id = w.context id := by
  unfold World.context
  rw [hheap]
  cases hctx : (w.heap id).ctx with
  | none => rfl
  | some c => exact congrArg some ((hkept c (hfits.live c hctx)).2 (hne c hctx))

theorem World.maps_of_ctx {c : lib.Ctx} (h : (w.heap id).ctx = some c) (k : Kind) :
    w.maps id k = (lib.cmt w.mem c).maps k := by
  unfold World.maps World.context
  rw [h]
  rfl

theorem World.maps_congr (h : w'.context id = w.context id) (k : Kind) : w'.maps id k = w.maps id k := by
  unfold World.maps
  rw [h]

theorem Sound.created (hw : Sound live w) (h : w.Created k id) : ∃ c, (w.heap id).ctx = some c ∧
    (lib.cmt w.mem c).Only k ∧ (lib.cmt w.mem c).maps k ≠ [] := by
  obtain ⟨src, hsrc, hm⟩ := h
  have hfits := hw.fits id
  rw [hsrc] at hfits ⊢
  obtain ⟨c, hc⟩ := Option.ne_none_iff_exists'.1 (hfits.hasContext hm)
  obtain ⟨-, honly, hmaps⟩ := hfits.suits c hc
  exact ⟨c, hc, honly, hmaps hm⟩

namespace Serde

variable {s : CMetricsSerde lib} {src : CMetricsMetric lib}

theorem withContext_self (hself : w.heap self = .serde s) : (withContext self s w).2.heap self =
    .serde { s with inst := (withContext self s w).1 } := by
  rw [withContext_heap hself, Function.update_self]

theorem withContext_of_ne (hself : w.heap self = .serde s) (hne : id ≠ self) :
    (withContext self s w).2.heap id = w.heap id := by
  rw [withContext_heap hself, Function.update_of_ne hne]

theorem withContext_sound (hlib : lib.Contexts live) (hw : Sound live w) (hself : w.heap self = .serde s) :
    Sound live (withContext self s w).2 := by
  unfold withContext
  cases hinst : s.inst with
  | some ctx => exact hw
  | none =>
    refine hw.asks hlib hself (.created .nil hinst) ⟨rfl, rfl, rfl⟩ ?_ (List.forall_mem_singleton.2 fun h => h)
    have hcall : w.Traced (w.called (.create (lib.cmtCreate w.mem).1) (lib.cmtCreate w.mem).2) := .called rfl
    exact hcall.trans (.of_eq rfl rfl)

theorem withContext_context (hlib : lib.Contexts live) (hw : Sound live w) (hself : w.heap self = .serde s)
    (hne : id ≠ self) : (withContext self s w).2.context id = w.context id := by
  have hkept : KeptBut live none w.mem (withContext self s w).2.mem := by
    unfold withContext
    cases s.inst with
    | some ctx => exact .refl w.mem
    | none => exact hlib.create w.mem
  exact World.context_kept (hw.fits id) (withContext_of_ne hself hne) hkept fun _ _ => nofun

/-- The new context is empty. -/
theorem withContext_maps (hlib : lib.Contexts live) (hself : w.heap self = .serde s) (k : Kind) :
    (withContext self s w).2.maps self k = w.maps self k := by
  have hself' := withContext_self hself
  cases hinst : s.inst with
  | some ctx =>
    simp only [withContext, hinst]
  | none =>
    have hnone : w.maps self k = [] := by
      simp only [World.maps, World.context, hself, Obj.ctx, hinst]
      rfl
    rw [hnone]
    cases hnew : (withContext self s w).1 with
    | none =>
      simp only [World.maps, World.context, hself', Obj.ctx, hnew]
      rfl
    | some c =>
      rw [World.maps_of_ctx (c := c) (by rw [hself', hnew]; rfl)]
      simp only [withContext, hinst] at hnew ⊢
      rw [World.put_mem, World.called_mem, (hlib.created hnew).2.2]
      exact maps_empty k

/-- A successful `cmt_cat` of the context of an object. -/
theorem cat_appends (hlib : lib.Contexts live) (hw : Sound live w) (hself : w.heap self = .serde s)
    (hsrc : w.heap id = .metric k src) (hm : src.metric ≠ none)
    (hret : (lib.cmtCat s.inst src.inst w.mem).1 = 0) :
    let w' := w.called (.cat s.inst src.inst (lib.cmtCat s.inst src.inst w.mem).1)
      (lib.cmtCat s.inst src.inst w.mem).2
    s.inst ≠ none ∧ Sound live w' ∧ (∀ id', id' ≠ self → w'.context id' = w.context id') ∧
      ∀ k', w'.maps self k' = w.maps self k' ++ w.maps id k' := by
  intro w'
  have hdst : s.inst ≠ none := fun h => hlib.catNull (.inl h) hret
  have hinst : src.inst ≠ none := fun h => hlib.catNull (.inr h) hret
  obtain ⟨d, hd⟩ := Option.ne_none_iff_exists'.1 hdst
  obtain ⟨c, hc⟩ := Option.ne_none_iff_exists'.1 hinst
  have hdlive : live w.mem d := (hw.fits self).live d (by rw [hself]; exact hd)
  have hclive : live w.mem c := (hw.fits id).live c (by rw [hsrc]; exact hc)
  have hcat := hlib.cat hdlive hclive
  rw [← hd, ← hc] at hcat
  obtain ⟨hkept, hmaps, -⟩ := hcat hret
  refine ⟨hdst, ?_, fun id' hne => ?_, fun k' => ?_⟩
  · refine hw.asks hlib hself (.appended .nil id k src _ hdst hsrc hm) (.of_heap_eq hself rfl rfl rfl)
      (.called rfl) (List.forall_mem_singleton.2 ?_)
    exact not_or.2 ⟨hdst, hinst⟩
  · refine World.context_kept (hw.fits id') rfl hkept fun c' hc' hsame => hne ?_
    exact hw.apart hc' (by rw [hself]; exact hsame)
  · have hself : (w.heap self).ctx = some d := by rw [hself]; exact hd
    have hself' : (w'.heap self).ctx = some d := hself
    have hid : (w.heap id).ctx = some c := by rw [hsrc]; exact hc
    rw [World.maps_of_ctx hself', World.maps_of_ctx hself, World.maps_of_ctx hid]
    exact hmaps k'

/-- A failing one. -/
theorem cat_fails (hlib : lib.Contexts live) (hw : Sound live w) (hself : w.heap self = .serde s)
    (hsrc : w.heap id = .metric k src) (hdst : s.inst ≠ none) (hinst : src.inst ≠ none)
    (hret : (lib.cmtCat s.inst src.inst w.mem).1 ≠ 0) (k' : Kind) :
    let w' := w.called (.cat s.inst src.inst (lib.cmtCat s.inst src.inst w.mem).1)
      (lib.cmtCat s.inst src.inst w.mem).2
    w'.maps self k' = w.maps self k' := by
  intro w'
  obtain ⟨d, hd⟩ := Option.ne_none_iff_exists'.1 hdst
  obtain ⟨c, hc⟩ := Option.ne_none_iff_exists'.1 hinst
  have hdlive : live w.mem d := (hw.fits self).live d (by rw [hself]; exact hd)
  have hclive : live w.mem c := (hw.fits id).live c (by rw [hsrc]; exact hc)
  have hfailed := hlib.catFailed hdlive hclive
  rw [← hd, ← hc] at hfailed
  have hkept : KeptBut live none w.mem w'.mem := hfailed hret
  have hsame : w'.context self = w.context self :=
    World.context_kept (hw.fits self) rfl hkept fun _ _ => nofun
  exact World.maps_congr hsame k'

/-! ### All or nothing -/

/-- `concat` returns, and the context of the Serde, its own or a new one, has the maps of `v` behind those it
had. -/
def Appended (self : ObjId) (s : CMetricsSerde lib) (v : Value) (w : World lib E) : Prop :=
  ∃ w' ctx, (concatMetric v self).run w = .ok .nil w' ∧
    w'.heap self = .serde ⟨some ctx, s.unpackMsgpackOffset⟩ ∧ (∀ c, s.inst = some c → c = ctx) ∧
    ∃ id, v = .object id ∧ ∀ k, w'.maps self k = w.maps self k ++ w.maps id k

/-- `concat` raises and leaves the Serde what it was. -/
def Rejected (self : ObjId) (v : Value) (w : World lib E) : Prop :=
  ∃ cls msg w', (concatMetric v self).run w = .error (.raised cls msg) w' ∧ w'.heap self = w.heap self

/-- `v` is a created metric whose context `cmt_cat` accepts. -/
def Accepted (self : ObjId) (s : CMetricsSerde lib) (v : Value) (w : World lib E) : Prop :=
  ∃ id k src, v = .object id ∧ w.heap id = .metric k src ∧ src.metric ≠ none ∧
    (lib.cmtCat (withContext self s w).1 src.inst (withContext self s w).2.mem).1 = 0

theorem appended_iff (hlib : lib.Contexts live) (hw : Sound live w) (hself : w.heap self = .serde s)
    (hsrc : w.heap id = .metric k src) (hm : src.metric ≠ none) : Appended self s (.object id) w ↔
      (lib.cmtCat (withContext self s w).1 src.inst (withContext self s w).2.mem).1 = 0 := by
  have hne := ne_of_metric_serde hsrc hself
  have hrun := run_concat_created hself hsrc hm
  have hself₁ := withContext_self hself
  have hw₁ := withContext_sound hlib hw hself
  have hsrc₁ : (withContext self s w).2.heap id = .metric k src := by rw [withContext_of_ne hself hne, hsrc]
  have hmaps₁ := World.maps_congr (withContext_context hlib hw hself hne)
  constructor
  · rintro ⟨w', ctx, hrun', hself', -, id', hid, hmaps⟩
    rw [hrun] at hrun'
    cases hrun'
    cases hid
    by_contra hret
    rw [World.called_heap, hself₁] at hself'
    have hdst : (withContext self s w).1 ≠ none := by
      intro hnone
      rw [hnone] at hself'
      cases hself'
    obtain ⟨c, hc, -, hmapsk⟩ := hw.created ⟨src, hsrc, hm⟩
    have hinst : src.inst ≠ none := by
      rw [hsrc] at hc
      rw [show src.inst = some c from hc]
      nofun
    have hsame := (hmaps k).symm.trans (cat_fails hlib hw₁ hself₁ hsrc₁ hdst hinst hret k)
    rw [withContext_maps hlib hself, List.append_right_eq_self, World.maps_of_ctx hc] at hsame
    exact hmapsk hsame
  · intro hret
    obtain ⟨hdst, -, -, hmaps⟩ := cat_appends hlib hw₁ hself₁ hsrc₁ hm hret
    obtain ⟨ctx, hctx⟩ := Option.ne_none_iff_exists'.1 hdst
    refine ⟨_, ctx, hrun, ?_, fun c hc => ?_, id, rfl, fun k' => ?_⟩
    · rw [World.called_heap, hself₁]
      exact congrArg (fun inst => Obj.serde ⟨inst, s.unpackMsgpackOffset⟩) hctx
    · simp only [withContext, hc] at hctx
      exact Option.some.inj hctx
    · exact (hmaps k').trans (by rw [withContext_maps hlib hself, hmaps₁])

theorem rejected_iff_of_not (hself : w.heap self = .serde s) (hnil : v.isNil = false)
    (h : ∀ id k, v = .object id → ¬ w.Created k id) :
    Rejected self v w ↔ s.inst ≠ none ∨ (lib.cmtCreate w.mem).1 = none := by
  obtain ⟨cls, msg, hrun⟩ := run_concat_of_not hself hnil h
  have hheap : (withContext self s w).2.heap self = w.heap self ↔
      s.inst ≠ none ∨ (lib.cmtCreate w.mem).1 = none := by
    rw [withContext_self hself, hself]
    unfold withContext
    cases hinst : s.inst with
    | some ctx => exact iff_of_true (congrArg Obj.serde (with_inst hinst)) (.inl nofun)
    | none =>
      constructor
      · intro heq
        injection heq with heq
        exact .inr ((congrArg CMetricsSerde.inst heq).trans hinst)
      · rintro (hne | hnew)
        · exact absurd rfl hne
        · show Obj.serde { s with inst := (lib.cmtCreate w.mem).1 } = .serde s
          rw [hnew, with_inst hinst]
  rw [← hheap]
  constructor
  · rintro ⟨cls', msg', w', hrun', hsame⟩
    rw [hrun] at hrun'
    cases hrun'
    exact hsame
  · exact fun hsame => ⟨cls, msg, _, hrun, hsame⟩

/-- `concat` adds the maps of its argument or raises and does nothing, exactly when the argument is `nil`, or
a created metric that `cmt_cat` accepts, or anything else while there is a context already or none can be
made. -/
theorem concat_allOrNothing_iff (hlib : lib.Contexts live) (hw : Reachable w) (hself : w.heap self = .serde s)
    (v : Value) : Appended self s v w ∨ Rejected self v w ↔
      v.isNil = true ∨ Accepted self s v w ∨
        ((∀ id k, v = .object id → ¬ w.Created k id) ∧ (s.inst ≠ none ∨ (lib.cmtCreate w.mem).1 = none)) := by
  have hw := hw.sound hlib
  cases hnil : v.isNil with
  | true =>
    obtain rfl : v = .nil := by cases v <;> first | rfl | cases hnil
    refine iff_of_true (.inr ⟨_, _, w, run_concat_nil hself, rfl⟩) (.inl rfl)
  | false =>
    by_cases hv : ∃ id k src, v = .object id ∧ w.heap id = .metric k src ∧ src.metric ≠ none
    · obtain ⟨id, k, src, rfl, hsrc, hm⟩ := hv
      have happ := appended_iff hlib hw hself hsrc hm
      constructor
      · rintro (h | ⟨cls, msg, w', hrun, -⟩)
        · exact .inr (.inl ⟨id, k, src, rfl, hsrc, hm, happ.1 h⟩)
        · rw [run_concat_created hself hsrc hm] at hrun
          cases hrun
      · rintro (h | ⟨id', k', src', hid, hsrc', -, hret⟩ | ⟨h, -⟩)
        · cases h
        · cases hid
          rw [hsrc] at hsrc'
          cases hsrc'
          exact .inl (happ.2 hret)
        · exact absurd ⟨src, hsrc, hm⟩ (h id k rfl)
    · have hnot : ∀ id k, v = .object id → ¬ w.Created k id := by
        rintro id k hid ⟨src, hsrc, hm⟩
        exact hv ⟨id, k, src, hid, hsrc, hm⟩
      have href := rejected_iff_of_not hself hnil hnot
      constructor
      · rintro (⟨w', ctx, hrun, -⟩ | h)
        · obtain ⟨cls, msg, hrun'⟩ := run_concat_of_not hself hnil hnot
          rw [hrun] at hrun'
          cases hrun'
        · exact .inr (.inr ⟨hnot, href.1 h⟩)
      · rintro (h | ⟨id, k, src, hid, hsrc, hm, -⟩ | ⟨-, h⟩)
        · cases h
        · exact absurd ⟨id, k, src, hid, hsrc, hm⟩ hv
        · exact .inr (href.2 h)

/-- A new Serde and a counter. -/
theorem concat_appends_counter :
    Appended 2 ⟨none, 0⟩ (.object 0) setUp ∨ Rejected 2 (.object 0) setUp := by
  have hself : setUp.heap 2 = .serde ⟨none, 0⟩ := rfl
  refine (concat_allOrNothing_iff (Reference.contexts []) reachable_setUp hself (.object 0)).2 (.inr (.inl ?_))
  exact ⟨0, .counter, _, rfl, rfl, nofun, rfl⟩

/-- `concat(1)` raises, and the Serde has got a context. -/
theorem concat_makes_context : ¬ (Appended 0 ⟨none, 0⟩ (.fixnum ⟨1, by decide, by decide⟩)
      (Reference.newSerde [] ()) ∨
    Rejected 0 (.fixnum ⟨1, by decide, by decide⟩) (Reference.newSerde [] ())) := by
  rintro (⟨w', ctx, hrun, -⟩ | ⟨cls, msg, w', hrun, hheap⟩)
  · cases hrun
  · cases hrun
    cases hheap

end Serde
end CmetricsRuby
