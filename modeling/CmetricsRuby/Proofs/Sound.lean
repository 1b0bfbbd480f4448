import CmetricsRuby.Contexts
import CmetricsRuby.Trace
import CmetricsRuby.Proofs.NonNull

/-!
# Whose contexts hold what

In every state that a program can reach no two objects share a context, and the context of a metric
object holds maps of its own kind only, with no NULL in them.
-/

namespace CmetricsRuby

variable {lib : Library} {E : Type} {live : lib.Mem → lib.Ctx → Prop} {cmt : Option lib.Ctx}
  {mem mem₁ mem' : lib.Mem} {o : Obj lib} {w w' : World lib E} {id self : ObjId} {k : Kind}
  {calls : List (LibCall lib)}

/-- A step of one object from `o` to `o'`, as far as contexts go: those of the others are updated at most, and
the one it has afterwards is its own or new. -/
structure StepOf (live : lib.Mem → lib.Ctx → Prop) (mem mem' : lib.Mem) (o o' : Obj lib) : Prop where
  frame : Frame live o.ctx mem mem'
  fits : Fits live mem' o'
  own : ∀ c, o'.ctx = some c → o.ctx = some c ∨ ¬ live mem c

namespace StepOf

variable {o' : Obj lib}

/-- An object that stays what it is, and so do all contexts. -/
theorem kept (ho : Fits live mem o) (hkept : KeptBut live none mem mem') : StepOf live mem mem' o o where
  frame := hkept.weaken.frame
  fits := ho.frame hkept.frame fun _ _ => nofun
  own _ hc := .inl hc

/-- An object whose own context is changed. -/
theorem inPlace (hctx : o'.ctx = o.ctx) (hkept : KeptBut live o.ctx mem mem') (ho' : Fits live mem' o') :
    StepOf live mem mem' o o' where
  frame := hkept.frame
  fits := ho'
  own _ hc := .inl (hctx ▸ hc)

/-- An object that gets a new context. -/
theorem new (hkept : KeptBut live none mem mem') (ho' : Fits live mem' o')
    (hnew : ∀ c, o'.ctx = some c → ¬ live mem c) : StepOf live mem mem' o o' where
  frame := hkept.weaken.frame
  fits := ho'
  own c hc := .inr (hnew c hc)

theorem trans {o₁ : Obj lib} (h : StepOf live mem mem₁ o o₁) (h' : StepOf live mem₁ mem' o₁ o') :
    StepOf live mem mem' o o' where
  frame := by
    intro c hc
    obtain ⟨hc₁, hup⟩ := h.frame c hc
    obtain ⟨hc', hup'⟩ := h'.frame c hc₁
    refine ⟨hc', fun hne => (hup hne).trans (hup' fun hown => ?_)⟩
    rcases h.own c hown with hsame | hfresh
    · exact hne hsame
    · exact hfresh hc
  fits := h'.fits
  own := by
    intro c hc
    rcases h'.own c hc with hown | hfresh
    · exact h.own c hown
    · exact .inr fun hlive => hfresh (h.frame c hlive).1

end StepOf

theorem Sound.of_step (hw : Sound live w) (hdoes : w.Does id calls o w')
    (h : StepOf live w.mem w'.mem (w.heap id) o) : Sound live w' := by
  have hother : ∀ id' c, id' ≠ id → (w'.heap id').ctx = some c → o.ctx ≠ some c := by
    intro id' c hne hc hoc
    rw [hdoes.heap_of_ne hne] at hc
    rcases h.own c hoc with hsame | hfresh
    · exact hne (hw.apart hc hsame)
    · exact hfresh ((hw.fits id').live c hc)
  constructor
  · intro id'
    by_cases hid : id' = id
    · rw [hid, hdoes.heap_self]
      exact h.fits
    · rw [hdoes.heap_of_ne hid]
      exact (hw.fits id').frame h.frame fun c hc hsame => hid (hw.apart hc hsame)
  · intro id₁ id₂ c h₁ h₂
    by_cases hid₁ : id₁ = id <;> by_cases hid₂ : id₂ = id
    · rw [hid₁, hid₂]
    · rw [hid₁, hdoes.heap_self] at h₁
      exact absurd h₁ (hother id₂ c hid₂ h₂)
    · rw [hid₂, hdoes.heap_self] at h₂
      exact absurd h₂ (hother id₁ c hid₁ h₁)
    · rw [hdoes.heap_of_ne hid₁] at h₁
      rw [hdoes.heap_of_ne hid₂] at h₂
      exact hw.apart h₁ h₂

/-! ### The calls of one step -/

/-- The count that goes with the labels of a request. -/
def Request.Counted : Request → Prop
  | .create d => d.labelsCount = d.labels.length
  | .update _ n L | .getVal n L => n = L.length
  | _ => True

theorem Metric.planCreate_counted {argv : List Value} {r : Request} (h : planCreate argv = .ok r) :
    r.Counted := by
  obtain ⟨arg, -, h⟩ := bind_eq_ok.1 h
  obtain ⟨ns, -, h⟩ := bind_eq_ok.1 h
  obtain ⟨subsystem, -, h⟩ := bind_eq_ok.1 h
  obtain ⟨name, -, h⟩ := bind_eq_ok.1 h
  obtain ⟨help, -, h⟩ := bind_eq_ok.1 h
  obtain ⟨⟨n, L⟩, hl, h⟩ := bind_eq_ok.1 h
  cases h
  exact labelArgs_length hl

theorem Metric.plan_counted {s : CMetricsMetric lib} {m : MetricMethod} {r : Request}
    (h : plan k s m = .ok r) : r.Counted := by
  cases plan_cases h with
  | create argv d =>
    have h : planCreate argv = .ok (.create d) := by cases k <;> exact h
    exact planCreate_counted h
  | update => exact rfl
  | getVal => exact rfl
  | _ => trivial

theorem create_new (hlib : lib.Contexts live) {inst : Option lib.Ctx} (h : lib.cmtCreate mem = (inst, mem')) :
    KeptBut live none mem mem' ∧ ∀ c, inst = some c →
      ¬ live mem c ∧ live mem' c ∧ lib.cmt mem' c = .empty := by
  have hinst : (lib.cmtCreate mem).1 = inst := congrArg Prod.fst h
  have hmem : (lib.cmtCreate mem).2 = mem' := congrArg Prod.snd h
  subst hinst hmem
  exact ⟨hlib.create mem, fun c hc => hlib.created hc⟩

theorem maps_empty (k : Kind) : Cmt.empty.maps k = [] := by
  cases k <;> rfl

theorem staticWhole_empty : Cmt.empty.StaticWhole := nofun

theorem keptBut_export (hlib : lib.Contexts live) {c : lib.Ctx} (h : ExportCalls (some c) calls)
    (ht : Trace calls mem mem') : KeptBut live none mem mem' := by
  cases h with
  | failed e =>
    obtain ⟨-, rfl⟩ := ht.single
    exact hlib.encode
  | freed e p =>
    obtain ⟨mem₁, ⟨-, rfl⟩, ht⟩ := ht
    obtain rfl := ht.single
    exact hlib.encode.trans hlib.encodeDestroy
  | msgpack ret p =>
    obtain ⟨-, rfl⟩ := ht.single
    exact hlib.encodeMsgpack

namespace Metric

variable {s s' : CMetricsMetric lib} {r : Request}

theorem stepOf_init (hlib : lib.Contexts live) {inst : Option lib.Ctx}
    (h : lib.cmtCreate (lib.cmtInitialize mem) = (inst, mem')) :
    StepOf live mem mem' (.metric k s) (.metric k ⟨inst, none⟩) := by
  obtain ⟨hkept, hnew⟩ := create_new hlib h
  refine .new ((hlib.init mem).trans hkept) ⟨fun c hc => (hnew c hc).2.1, ?_, fun hm => absurd rfl hm⟩ ?_
  · intro c hc
    rw [(hnew c hc).2.2]
    refine ⟨staticWhole_empty, ⟨fun k' _ => maps_empty k', ?_⟩, fun hm => absurd rfl hm⟩
    rw [maps_empty]
    nofun
  · exact fun c hc hlive => (hnew c hc).1 (hlib.init mem c hlive).1

theorem stepOf_export (hlib : lib.Contexts live) (ho : Fits live mem (.metric k s))
    (hcalls : ExportCalls s.inst calls) (ht : Trace calls mem mem') (hnull : ∀ c ∈ calls, ¬ c.PassesNull) :
    StepOf live mem mem' (.metric k s) (.metric k s) := by
  obtain ⟨c, hinst⟩ := Option.ne_none_iff_exists'.1 ((passesNull_export hcalls).1 hnull)
  rw [hinst] at hcalls
  exact .kept ho (keptBut_export hlib hcalls ht)

/-- The context `c` of a metric object after one of its own calls. -/
theorem stepOf_inPlace {c : lib.Ctx} {m : Option lib.Metric} (ho : Fits live mem (.metric k s))
    (hinst : s.inst = some c) (hkept : KeptBut live (some c) mem mem')
    (hsuits : (Obj.metric k ⟨s.inst, m⟩ : Obj lib).Suits (lib.cmt mem' c)) :
    StepOf live mem mem' (.metric k s) (.metric k ⟨s.inst, m⟩) := by
  rw [← hinst] at hkept
  refine .inPlace rfl hkept ⟨fun c' hc' => (hkept c' (ho.live c' hc')).1, ?_, ?_⟩
  · intro c' hc'
    obtain rfl : c = c' := Option.some.inj (hinst.symm.trans hc')
    exact hsuits
  · intro _ hnone
    rw [hinst] at hnone
    cases hnone

theorem stepOf_create (hlib : lib.Contexts live) {c : lib.Ctx} {d : MetricDef} {m : Option lib.Metric}
    (ho : Fits live mem (.metric k s)) (hinst : s.inst = some c) (hd : d.labelsCount = d.labels.length)
    (h : lib.cmtMetricCreate k (some c) d mem = (m, mem')) :
    StepOf live mem mem' (.metric k s) (.metric k ⟨s.inst, m⟩) := by
  have hnew := hlib.metricCreate (ho.live c hinst) k d hd
  rw [h] at hnew
  obtain ⟨hkept, hstatic, hothers, hnone, hsome⟩ := hnew
  obtain ⟨hwhole, honly, -⟩ := ho.suits c hinst
  refine stepOf_inPlace ho hinst hkept ⟨?_, ⟨fun k' hk' => (hothers k' hk').trans (honly.others k' hk'), ?_⟩, ?_⟩
  · unfold Cmt.StaticWhole
    rw [hstatic]
    exact hwhole
  · cases hm : m with
    | none =>
      rw [hnone hm]
      exact honly.whole
    | some _ =>
      obtain ⟨map, hopts, hkeys, hsamples, hmaps⟩ := hsome (by rw [hm]; nofun)
      rw [hmaps, List.forall_mem_append, List.forall_mem_singleton]
      refine ⟨honly.whole, ?_⟩
      constructor <;> simp [hopts, hkeys, hsamples]
  · intro hm
    obtain ⟨map, -, -, -, hmaps⟩ := hsome hm
    rw [hmaps]
    exact List.append_ne_nil_of_right_ne_nil _ (List.cons_ne_nil _ _)

theorem stepOf_addLabel (hlib : lib.Contexts live) {c : lib.Ctx} {key val : CStr} {ret : Int}
    (ho : Fits live mem (.metric k s)) (hinst : s.inst = some c)
    (h : lib.cmtLabelAdd (some c) key val mem = (ret, mem')) :
    StepOf live mem mem' (.metric k s) (.metric k s) := by
  have hadd := hlib.labelAdd (ho.live c hinst) key val
  rw [h] at hadd
  obtain ⟨hkept, hmaps, hstatic⟩ := hadd
  obtain ⟨hwhole, honly, hcreated⟩ := ho.suits c hinst
  refine stepOf_inPlace ho hinst hkept ⟨?_, ⟨fun k' hk' => (hmaps k').trans (honly.others k' hk'), ?_⟩, ?_⟩
  · unfold Cmt.StaticWhole
    rw [hstatic, List.forall_mem_append]
    refine ⟨hwhole, ?_⟩
    split <;> simp
  · rw [hmaps]
    exact honly.whole
  · rw [hmaps]
    exact hcreated

theorem stepOf_update (hlib : lib.Contexts live) {u : Update} {m : lib.Metric} {ts : Nat} {L : List CStr}
    {ret : Int} (ho : Fits live mem (.metric k s)) (h : lib.cmtUpdate u (some m) ts L.length L mem = (ret, mem')) :
    StepOf live mem mem' (.metric k s) (.metric k s) := by
  have hframe : ∀ cmt, Frame live cmt mem mem' := by
    intro cmt c hc
    have hup := hlib.update hc u m ts L
    rw [h] at hup
    exact ⟨hup.1, fun _ => hup.2⟩
  exact ⟨hframe _, ho.frame (hframe none) fun _ _ => nofun, fun c hc => .inl hc⟩

/-- A metric object before and after a request, in the memory before and after it. -/
theorem stepOf_asks (hlib : lib.Contexts live) (ho : Fits live mem (.metric k s)) (h : Asks k s r calls s')
    (hr : r.Counted) (ht : Trace calls mem mem') (hnull : ∀ c ∈ calls, ¬ c.PassesNull) :
    StepOf live mem mem' (.metric k s) (.metric k s') := by
  cases h with
  | init inst =>
    obtain ⟨mem₁, rfl, ht⟩ := ht
    exact stepOf_init hlib ht.single
  | create d m =>
    obtain ⟨c, hinst⟩ := Option.ne_none_iff_exists'.1 (hnull _ (List.mem_singleton_self _))
    have h := ht.single
    rw [LibCall.Moves, hinst] at h
    exact stepOf_create hlib ho hinst hr h
  | update u ts n L ret =>
    obtain ⟨m, hm⟩ := Option.ne_none_iff_exists'.1 (hnull _ (List.mem_singleton_self _))
    have h := ht.single
    obtain rfl : n = L.length := hr
    rw [LibCall.Moves, hm] at h
    exact stepOf_update hlib ho h
  | getVal n L ret =>
    obtain ⟨-, rfl⟩ := ht.single
    exact .kept ho (.refl _)
  | addLabel key val ret =>
    obtain ⟨c, hinst⟩ := Option.ne_none_iff_exists'.1 (hnull _ (List.mem_singleton_self _))
    have h := ht.single
    rw [LibCall.Moves, hinst] at h
    exact stepOf_addLabel hlib ho hinst h
  | encode e calls hcalls => exact stepOf_export hlib ho hcalls ht hnull
  | text calls hcalls => exact stepOf_export hlib ho hcalls ht hnull
  | msgpack calls hcalls => exact stepOf_export hlib ho hcalls ht hnull

end Metric

namespace Serde

variable {s s' : CMetricsSerde lib} {m : SerdeMethod} {src : CMetricsMetric lib}

theorem fits_serde (h : ∀ c, s.inst = some c → live mem c ∧ (lib.cmt mem c).StaticWhole) :
    Fits live mem (.serde s) := ⟨fun c hc => (h c hc).1, fun c hc => (h c hc).2, trivial⟩

theorem stepOf_new (hkept : KeptBut live none mem mem') (hnew : ∀ c, s'.inst = some c →
    ¬ live mem c ∧ live mem' c ∧ (lib.cmt mem' c).StaticWhole) :
    StepOf live mem mem' (.serde s) (.serde s') :=
  .new hkept (fits_serde fun c hc => (hnew c hc).2) fun c hc => (hnew c hc).1

theorem stepOf_create (hlib : lib.Contexts live) {inst : Option lib.Ctx} (h : lib.cmtCreate mem = (inst, mem')) :
    StepOf live mem mem' (.serde s) (.serde { s with inst := inst }) := by
  obtain ⟨hkept, hnew⟩ := create_new hlib h
  refine stepOf_new hkept fun c hc => ?_
  obtain ⟨hfresh, hlive, hempty⟩ := hnew c hc
  rw [hempty]
  exact ⟨hfresh, hlive, staticWhole_empty⟩

theorem stepOf_decode (hlib : lib.Contexts live) {c : DecodeCall} {d : Decoded lib.Ctx} {offset : Nat}
    (h : lib.cmtDecodeMsgpackCreate c.buf c.length c.offset mem = (d, mem')) (hret : d.ret = 0) :
    StepOf live mem mem' (.serde s) (.serde ⟨d.cmt, offset⟩) := by
  have hkept := hlib.decode c.buf c.length c.offset mem
  have hdecoded := hlib.decoded c.buf c.length c.offset mem
  rw [h] at hkept hdecoded
  exact stepOf_new hkept fun c' hc' => hdecoded c' hret hc'

theorem cat_spec (hlib : lib.Contexts live) {d c : lib.Ctx} {ret : Int} (hd : live mem d) (hc : live mem c)
    (hdw : (lib.cmt mem d).StaticWhole) (hcw : (lib.cmt mem c).StaticWhole)
    (h : lib.cmtCat (some d) (some c) mem = (ret, mem')) :
    KeptBut live (some d) mem mem' ∧ (lib.cmt mem' d).StaticWhole := by
  by_cases hret : ret = 0
  · have hcat := hlib.cat hd hc
    rw [h] at hcat
    obtain ⟨hkept, -, hstatic⟩ := hcat hret
    exact ⟨hkept, fun l hl => (hstatic l hl).elim (hdw l) (hcw l)⟩
  · have hfail := hlib.catFailed hd hc
    rw [h] at hfail
    have hkept := hfail hret
    refine ⟨hkept.weaken, ?_⟩
    rw [(hkept d hd).2 nofun]
    exact hdw

theorem stepOf_cat (hlib : lib.Contexts live) {ret : Int} (ho : Fits live mem (.serde s))
    (hsrc : Fits live mem (.metric k src)) (hinst : s.inst ≠ none) (hsrcInst : src.inst ≠ none)
    (h : lib.cmtCat s.inst src.inst mem = (ret, mem')) :
    StepOf live mem mem' (.serde s) (.serde s) := by
  obtain ⟨d, hd⟩ := Option.ne_none_iff_exists'.1 hinst
  obtain ⟨c, hc⟩ := Option.ne_none_iff_exists'.1 hsrcInst
  rw [hd, hc] at h
  obtain ⟨hkept, hstatic⟩ := cat_spec hlib (ho.live d hd) (hsrc.live c hc) (ho.suits d hd) (hsrc.suits c hc).1 h
  rw [← hd] at hkept
  refine .inPlace rfl hkept (fits_serde fun c' hc' => ?_)
  obtain rfl : d = c' := Option.some.inj (hd.symm.trans hc')
  exact ⟨(hkept d (ho.live d hd)).1, hstatic⟩

/-- A Serde before and after a method, in the memory before and after it. -/
theorem stepOf_asks (hlib : lib.Contexts live) (hw : Sound live w) (hself : w.heap self = .serde s)
    (h : Asks w s m calls s') (ht : Trace calls w.mem mem') (hnull : ∀ c ∈ calls, ¬ c.PassesNull) :
    StepOf live w.mem mem' (.serde s) (.serde s') := by
  have ho := hw.fits self
  rw [hself] at ho
  cases h with
  | init =>
    obtain rfl := ht.single
    exact stepOf_new (hlib.init _) nofun
  | decoded argv c cmt offset =>
    obtain ⟨d, hd, hret, rfl⟩ := ht.single
    exact stepOf_decode hlib hd hret
  | undecoded argv c ret cmt hret =>
    obtain ⟨d, hd, -⟩ := ht.single
    have hkept := hlib.decode c.buf c.length c.offset w.mem
    rw [hd] at hkept
    exact .kept ho hkept
  | created v hinst => exact stepOf_create hlib ht.single
  | appended v id k src ret hinst hsrc hm =>
    have hfsrc := hw.fits id
    rw [hsrc] at hfsrc
    exact stepOf_cat hlib ho hfsrc hinst (hfsrc.hasContext hm) ht.single
  | appendedNew v id k src ret hinst hsrc hm =>
    obtain ⟨mem₁, hcreate, ht⟩ := ht
    have hfsrc := hw.fits id
    rw [hsrc] at hfsrc
    have hn := hnull _ (List.mem_cons_of_mem _ (List.mem_singleton_self _))
    have hkept := (create_new hlib hcreate).1
    have hnew := stepOf_create (s := s) hlib hcreate
    exact hnew.trans (stepOf_cat hlib hnew.fits (hfsrc.frame hkept.frame fun _ _ => nofun)
      (fun hnone => hn (.inl hnone)) (hfsrc.hasContext hm) ht.single)
  | exported e calls hinst hcalls =>
    obtain ⟨c, hc⟩ := Option.ne_none_iff_exists'.1 hinst
    rw [hc] at hcalls
    exact .kept ho (keptBut_export hlib hcalls ht)

end Serde

theorem NoNull.of_does (h : NoNull w') (hdoes : w.Does id calls o w') : ∀ c ∈ calls, ¬ c.PassesNull := by
  intro c hc
  refine h c ?_
  rw [hdoes.log]
  exact List.mem_append_right _ hc

theorem NoNull.of_traced (h : NoNull w') (ht : w.Traced w') : NoNull w := by
  obtain ⟨calls, hlog, -⟩ := ht
  intro c hc
  refine h c ?_
  rw [hlog]
  exact List.mem_append_left _ hc

theorem fits_blank (c : Cls) : Fits live mem (c.blank : Obj lib) := by
  cases c with
  | metric k => exact ⟨nofun, nofun, fun hm => absurd rfl hm⟩
  | serde => exact ⟨nofun, nofun, trivial⟩

theorem blank_ctx (c : Cls) : (c.blank : Obj lib).ctx = none := by
  cases c <;> rfl

namespace Sound

theorem alloc (hw : Sound live w) (id : ObjId) (c : Cls) : Sound live (step (.alloc id c) w) := by
  rcases step_alloc (w := w) id c with ⟨-, hstep⟩ | hstep
  · have hdoes : w.Does id [] c.blank (w.put id c.blank) := ⟨rfl, (List.append_nil _).symm, rfl⟩
    rw [hstep]
    refine hw.of_step hdoes (.new (.refl w.mem) (fits_blank c) fun c' hc' => ?_)
    rw [blank_ctx] at hc'
    cases hc'
  · rw [hstep]
    exact hw

theorem metric (hlib : lib.Contexts live) (hw : Sound live w) (k : Kind) (id : ObjId) (m : MetricMethod)
    (hnull : NoNull (step (.metric k id m) w)) : Sound live (step (.metric k id m) w) := by
  by_cases hself : ∃ s, w.heap id = .metric k s
  · obtain ⟨s, hself⟩ := hself
    rcases Metric.send_does hself m with ⟨e, -, hr⟩ | ⟨r, calls, s', hp, hasks, hdoes⟩
    · rw [step, hr]
      exact hw
    · have hdoes : w.Does id calls (.metric k s') (step (.metric k id m) w) := hdoes
      have hfits := hw.fits id
      rw [hself] at hfits
      have hstep := Metric.stepOf_asks hlib hfits hasks (Metric.plan_counted hp)
        ((step_traced _ w).trace hdoes) (hnull.of_does hdoes)
      rw [← hself] at hstep
      exact hw.of_step hdoes hstep
  · rw [step, Metric.send_of_not (not_exists.1 hself)]
    exact hw

/-- A method of `Serde`, or a turn of `feed_each`, which does what `from_msgpack` does. -/
theorem asks (hlib : lib.Contexts live) (hw : Sound live w) {s s' : CMetricsSerde lib} {m : SerdeMethod}
    (hself : w.heap id = .serde s) (hasks : Serde.Asks w s m calls s')
    (hdoes : w.Does id calls (.serde s') w') (ht : w.Traced w') (hnull : ∀ c ∈ calls, ¬ c.PassesNull) :
    Sound live w' := by
  have hstep := Serde.stepOf_asks hlib hw hself hasks (ht.trace hdoes) hnull
  rw [← hself] at hstep
  exact hw.of_step hdoes hstep

theorem serde (hlib : lib.Contexts live) (hw : Sound live w) (id : ObjId) (m : SerdeMethod)
    (hnull : NoNull (step (.serde id m) w)) : Sound live (step (.serde id m) w) := by
  by_cases hself : ∃ s, w.heap id = .serde s
  · obtain ⟨s, hself⟩ := hself
    rcases Serde.send_does hself m with hr | ⟨calls, s', hasks, hdoes⟩
    · rw [step, hr]
      exact hw
    · exact hw.asks hlib hself hasks hdoes (step_traced (.serde id m) w) (hnull.of_does hdoes)
  · rw [step, Serde.send_of_not (not_exists.1 hself)]
    exact hw

theorem feedTurn (hlib : lib.Contexts live) (hw : Sound live w) (id : ObjId) (c : Serde.DecodeCall)
    (hnull : NoNull (step (.feedTurn id c) w)) : Sound live (step (.feedTurn id c) w) := by
  by_cases hself : ∃ s, w.heap id = .serde s
  · obtain ⟨s, hself⟩ := hself
    have hdoes := Serde.decodeInto_does hself c
    have ht := step_traced (.feedTurn id c) w
    rw [step_feedTurn hself] at ht hnull ⊢
    by_cases hret : (lib.cmtDecodeMsgpackCreate c.buf c.length c.offset w.mem).1.ret = 0
    · simp only [hret, if_true] at hdoes
      exact hw.asks hlib hself (.decoded [] c _ _) hdoes ht (hnull.of_does hdoes)
    · simp only [hret, if_false] at hdoes
      exact hw.asks hlib hself (.undecoded [] c _ _ hret) hdoes ht (hnull.of_does hdoes)
  · rw [step_feedTurn_of_not (not_exists.1 hself)]
    exact hw

theorem step (hlib : lib.Contexts live) (hw : Sound live w) (a : Act E) (hnull : NoNull (step a w)) :
    Sound live (step a w) := by
  cases a with
  | alloc id c => exact hw.alloc id c
  | metric k id m => exact hw.metric hlib k id m hnull
  | serde id m => exact hw.serde hlib id m hnull
  | feedTurn id c => exact hw.feedTurn hlib id c hnull
  | ruby env => exact ⟨hw.fits, hw.apart⟩

end Sound

/-! ### Every run -/

/-- A state that a program gets to from its start without giving the library a NULL. -/
def Reachable (w : World lib E) : Prop := ∃ (as : List (Act E)) (w₀ : World lib E),
  (∀ id, w₀.heap id = .free) ∧ w₀.log = [] ∧ Machine.run step as w₀ = w ∧ NoNull w

theorem Reachable.sound (hlib : lib.Contexts live) (h : Reachable w) : Sound live w := by
  obtain ⟨as, w₀, hheap, -, rfl, hnull⟩ := h
  have hstart : Sound live w₀ := by
    refine ⟨fun id => ?_, fun h => ?_⟩
    · rw [hheap]
      exact ⟨nofun, nofun, trivial⟩
    · rw [hheap] at h
      cases h
  have hrun : NoNull (Machine.run step as w₀) →
      Sound live (Machine.run step as w₀) := by
    refine Machine.run_keeps (I := fun w : World lib E => NoNull w → Sound live w) (fun _ => hstart) ?_
    intro a w hw hnull
    exact (hw (hnull.of_traced (step_traced a w))).step hlib a hnull
  exact hrun hnull

open Reference (start)

/-- A counter with a sample, a gauge without any, and a new Serde. -/
def setUpActs : List (Act Unit) :=
  [.alloc 0 (.metric .counter), .metric .counter 0 .init,
    .metric .counter 0 (.create [.string [], .string [], .string [0x61], .string [0x68]]),
    .metric .counter 0 (.increment []), .alloc 1 (.metric .gauge), .metric .gauge 1 .init,
    .metric .gauge 1 (.create [.string [], .string [], .string [0x62], .string [0x68]]),
    .alloc 2 .serde, .serde 2 .init]

def setUp : World (reference []) Unit := Machine.run step setUpActs (start [] () [])

theorem reachable_setUp : Reachable setUp := by
  refine ⟨setUpActs, start [] () [], fun _ => rfl, rfl, rfl, ?_⟩
  unfold NoNull
  refine List.forall_mem_cons.2 ⟨fun h => h, ?_⟩
  refine List.forall_mem_cons.2 ⟨fun h => h, ?_⟩
  refine List.forall_mem_cons.2 ⟨nofun, ?_⟩
  refine List.forall_mem_cons.2 ⟨nofun, ?_⟩
  refine List.forall_mem_cons.2 ⟨fun h => h, ?_⟩
  refine List.forall_mem_cons.2 ⟨fun h => h, ?_⟩
  refine List.forall_mem_cons.2 ⟨nofun, ?_⟩
  refine List.forall_mem_cons.2 ⟨fun h => h, ?_⟩
  nofun

end CmetricsRuby
