import CmetricsRuby.Proofs.Concat
import CmetricsRuby.Proofs.Faults

/-!
# Several `concat`s

A program that concatenates one metric object after the other. The context of the Serde then has the maps
it had and those of the objects, each in the list of its kind and in the order of the calls, and `metrics`
returns a group of Hashes for each of them (`concatAll_groups`).
-/

namespace CmetricsRuby

variable {lib : Library} {E : Type} {live : lib.Mem → lib.Ctx → Prop} {w w₁ w' : World lib E}
  {self id : ObjId} {k : Kind}

def LibCall.CatFails : LibCall lib → Prop
  | .cat _ _ ret => ret ≠ 0
  | _ => False

/-- Every `cmt_cat` between `w` and `w'` succeeds. -/
def CatsSucceed (w w' : World lib E) : Prop :=
  ∃ calls, w'.log = w.log ++ calls ∧ ∀ c ∈ calls, ¬ c.CatFails

theorem CatsSucceed.split {calls : List (LibCall lib)} (h : CatsSucceed w w')
    (h₁ : w₁.log = w.log ++ calls) (ht : w₁.Traced w') :
    (∀ c ∈ calls, ¬ c.CatFails) ∧ CatsSucceed w₁ w' := by
  obtain ⟨calls', hlog', hcalls'⟩ := h
  obtain ⟨calls₂, hlog, -⟩ := ht
  rw [hlog, h₁, List.append_assoc] at hlog'
  obtain rfl := List.append_cancel_left hlog'
  rw [List.forall_mem_append] at hcalls'
  exact ⟨hcalls'.1, calls₂, hlog, hcalls'.2⟩

namespace Serde

variable {s : CMetricsSerde lib} {os : List (Kind × ObjId)}

/-- `os.each { |o| serde.concat(o) }` -/
def concatAll (self : ObjId) : List (Kind × ObjId) → M lib E Unit
  | [] => pure ()
  | o :: os => do
    let _ ← concatMetric (.object o.2) self
    concatAll self os

theorem tracing_concatAll (self : ObjId) (os : List (Kind × ObjId)) :
    Tracing (concatAll self os : M lib E Unit) := by
  induction os with
  | nil => exact .pure _
  | cons o os ih => exact .bind (tracing_concatMetric _ self) fun _ => ih

theorem withContext_log (self : ObjId) (s : CMetricsSerde lib) (w : World lib E) :
    ∃ calls, (withContext self s w).2.log = w.log ++ calls := by
  unfold withContext
  cases s.inst with
  | some ctx => exact ⟨[], (List.append_nil _).symm⟩
  | none => exact ⟨_, rfl⟩

/-- The maps of kind `k` that a Serde should have after the objects `os` were concatenated to it. -/
def mapsAfter (w : World lib E) (self : ObjId) (os : List (Kind × ObjId)) (k : Kind) : List CmtMap :=
  w.maps self k ++ (os.filter (·.1 = k)).flatMap fun o => w.maps o.2 k

/-- An object has maps of its own kind only, so the first `concat` may be counted for its kind. -/
theorem mapsAfter_cons (hw : Sound live w) {o : Kind × ObjId} (ho : w.Created o.1 o.2)
    (hself : w₁.maps self k = w.maps self k ++ w.maps o.2 k) (hos : ∀ o ∈ os, w₁.maps o.2 k = w.maps o.2 k) :
    mapsAfter w₁ self os k = mapsAfter w self (o :: os) k := by
  have hflat : (os.filter (·.1 = k)).flatMap (fun o => w₁.maps o.2 k) =
      (os.filter (·.1 = k)).flatMap fun o => w.maps o.2 k :=
    List.flatMap_congr fun o ho => hos o (List.mem_of_mem_filter ho)
  unfold mapsAfter
  rw [hflat, hself, List.append_assoc]
  by_cases hk : o.1 = k
  · rw [List.filter_cons_of_pos (by simpa using hk), List.flatMap_cons]
  · obtain ⟨c, hc, honly, -⟩ := hw.created ho
    have hnil : w.maps o.2 k = [] := by
      rw [World.maps_of_ctx hc]
      exact honly.others k (Ne.symm hk)
    rw [List.filter_cons_of_neg (by simpa using hk), hnil, List.nil_append]

theorem ne_of_created (hself : w.heap self = .serde s) (h : w.Created k id) : id ≠ self := by
  obtain ⟨src, hsrc, -⟩ := h
  exact ne_of_metric_serde hsrc hself

/-- One `concat` of a created metric. It returns; and where its `cmt_cat` succeeds, the Serde has the maps of
the object behind its own, and nothing else has changed. -/
theorem concat_step (hlib : lib.Contexts live) (hw : Sound live w) (hself : w.heap self = .serde s)
    (ho : w.Created k id) : ∃ w₁ calls, (concatMetric (.object id) self).run w = .ok .nil w₁ ∧
      w₁.log = w.log ++ calls ∧ ((∀ c ∈ calls, ¬ c.CatFails) → Sound live w₁ ∧
        (∃ s₁, w₁.heap self = .serde s₁ ∧ s₁.inst ≠ none) ∧
        (∀ id', id' ≠ self → w₁.heap id' = w.heap id' ∧ w₁.context id' = w.context id') ∧
        ∀ k', w₁.maps self k' = w.maps self k' ++ w.maps id k') := by
  have hne := ne_of_created hself ho
  obtain ⟨src, hsrc, hm⟩ := ho
  obtain ⟨calls, hcalls⟩ := withContext_log self s w
  have hsrc₁ : (withContext self s w).2.heap id = .metric k src := by rw [withContext_of_ne hself hne, hsrc]
  refine ⟨_, calls ++ [.cat (withContext self s w).1 src.inst
    (lib.cmtCat (withContext self s w).1 src.inst (withContext self s w).2.mem).1],
    run_concat_created hself hsrc hm, ?_, fun hsucceed => ?_⟩
  · rw [World.called_log, hcalls, List.append_assoc]
  · have hret := not_not.1 (hsucceed _ (List.mem_append_right _ (List.mem_singleton_self _)))
    obtain ⟨hdst, hsound, hcontext, hmaps⟩ := cat_appends hlib (withContext_sound hlib hw hself)
      (withContext_self hself) hsrc₁ hm hret
    refine ⟨hsound, ⟨_, withContext_self hself, hdst⟩, fun id' hid => ⟨withContext_of_ne hself hid, ?_⟩,
      fun k' => ?_⟩
    · exact (hcontext id' hid).trans (withContext_context hlib hw hself hid)
    · have hid := World.maps_congr (withContext_context hlib hw hself hne) k'
      rw [← hid, ← withContext_maps hlib hself]
      exact hmaps k'

theorem concatAll_run (hlib : lib.Contexts live) (hw : Sound live w) (hself : w.heap self = .serde s)
    (hos : ∀ o ∈ os, w.Created o.1 o.2) (hcat : CatsSucceed w (stateOf ((concatAll self os).run w))) :
    ∃ w' s', (concatAll self os).run w = .ok () w' ∧ Sound live w' ∧ w'.heap self = .serde s' ∧
      (s.inst ≠ none ∨ os ≠ [] → s'.inst ≠ none) ∧
      (∀ id, id ≠ self → w'.heap id = w.heap id ∧ w'.context id = w.context id) ∧
      ∀ k, w'.maps self k = mapsAfter w self os k := by
  induction os generalizing w s with
  | nil =>
    refine ⟨w, s, rfl, hw, hself, fun h => h.resolve_right fun h => h rfl, fun _ _ => ⟨rfl, rfl⟩, fun k => ?_⟩
    exact (List.append_nil _).symm
  | cons o os ih =>
    obtain ⟨ho, hos⟩ := List.forall_mem_cons.1 hos
    obtain ⟨w₁, calls, hrun₁, hlog, hstep⟩ := concat_step hlib hw hself ho
    have hrun : (concatAll self (o :: os)).run w = (concatAll self os).run w₁ := by
      rw [concatAll, EStateM.run_bind, hrun₁]
    rw [hrun] at hcat ⊢
    obtain ⟨hsucceed, hcat⟩ := hcat.split hlog (tracing_concatAll self os w₁)
    obtain ⟨hsound, ⟨s₁, hself₁, hinst₁⟩, hframe, hmaps⟩ := hstep hsucceed
    have hothers : ∀ o ∈ os, w₁.heap o.2 = w.heap o.2 ∧ w₁.context o.2 = w.context o.2 :=
      fun o ho => hframe o.2 (ne_of_created hself (hos o ho))
    have hos₁ : ∀ o ∈ os, w₁.Created o.1 o.2 := by
      intro o ho
      unfold World.Created
      rw [(hothers o ho).1]
      exact hos o ho
    obtain ⟨w', s', hrun', hsound', hself', hinst', hframe', hmaps'⟩ := ih hsound hself₁ hos₁ hcat
    refine ⟨w', s', hrun', hsound', hself', fun _ => hinst' (.inl hinst₁), fun id hid => ?_, fun k => ?_⟩
    · rw [(hframe' id hid).1, (hframe' id hid).2]
      exact hframe id hid
    · rw [hmaps' k]
      exact mapsAfter_cons hw ho (hmaps k) fun o ho => World.maps_congr (hothers o ho).2 k

/-! ### The groups -/

/-- The group of a map, with no static labels in it. -/
def groupOf (lib : Library) (map : CmtMap) : Except Exit Value := formatMetrics lib.seconds .empty map

theorem maps_context {ctx : lib.Ctx} (hself : w.heap self = .serde s) (hinst : s.inst = some ctx) :
    (lib.cmt w.mem ctx).counters ++ (lib.cmt w.mem ctx).gauges ++ (lib.cmt w.mem ctx).untypeds =
      w.maps self .counter ++ w.maps self .gauge ++ w.maps self .untyped := by
  have hctx : (w.heap self).ctx = some ctx := by rw [hself]; exact hinst
  rw [World.maps_of_ctx hctx, World.maps_of_ctx hctx, World.maps_of_ctx hctx]
  rfl

/-- `metrics` returns the groups of the maps of the Serde, or raises as making one of them does. -/
theorem getMetrics_groupOf (hw : Sound live w) (hself : w.heap self = .serde s) (hinst : s.inst ≠ none) :
    ∃ r : Except Exit (List Value),
      (getMetrics self).run w = (match r with
        | .ok gs => .ok (.array gs) w
        | .error e => .error e w) ∧
      r.map (List.map leaveOutGroup) =
        (w.maps self .counter ++ w.maps self .gauge ++ w.maps self .untyped).mapM (groupOf lib) := by
  obtain ⟨ctx, hctx⟩ := Option.ne_none_iff_exists'.1 hinst
  have hfits := hw.fits self
  rw [hself] at hfits
  have hstatic : (lib.cmt w.mem ctx).StaticWhole := hfits.suits ctx hctx
  have hmaps := maps_context hself hctx
  refine ⟨(w.maps self .counter ++ w.maps self .gauge ++ w.maps self .untyped).mapM
    (formatMetrics lib.seconds (lib.cmt w.mem ctx)), ?_, ?_⟩
  · rw [run_getMetrics hself hctx, formatContext_eq, hmaps]
    cases (w.maps self .counter ++ w.maps self .gauge ++ w.maps self .untyped).mapM
      (formatMetrics lib.seconds (lib.cmt w.mem ctx)) <;> rfl
  · rw [map_mapM]
    exact congrArg (List.mapM · _) (funext fun map => formatMetrics_bare hstatic map)

theorem groupOf_ok_of_metrics (hw : Sound live w) (hself : w.heap self = .serde s) (hinst : s.inst ≠ none)
    (h : ∃ v, (getMetrics self).run w = .ok v w) (k : Kind) :
    ∀ map ∈ w.maps self k, ∃ g, groupOf lib map = .ok g := by
  obtain ⟨r, hrun, hr⟩ := getMetrics_groupOf hw hself hinst
  obtain ⟨v, hv⟩ := h
  cases r with
  | error e =>
    rw [hrun] at hv
    cases hv
  | ok gs =>
    have hall := isOk_mapM.1 ⟨_, hr.symm⟩
    intro map hmap
    refine hall map ?_
    cases k with
    | counter => exact List.mem_append_left _ (List.mem_append_left _ hmap)
    | gauge => exact List.mem_append_left _ (List.mem_append_right _ hmap)
    | untyped => exact List.mem_append_right _ hmap

theorem groupOf_ok_of_created (hw : Sound live w) (ho : w.Created k id) {k' : Kind} :
    ∀ map ∈ w.maps id k', ∃ g, groupOf lib map = .ok g := by
  obtain ⟨c, hc, honly, -⟩ := hw.created ho
  rw [World.maps_of_ctx hc]
  intro map hmap
  by_cases hk : k' = k
  · rw [hk] at hmap
    exact ⟨_, formatMetrics_ok fun metric hmetric => (honly.whole map hmap).formats staticWhole_empty hmetric⟩
  · rw [honly.others k' hk] at hmap
    cases hmap

theorem groupOf_ok_of_mapsAfter (hw : Sound live w) (hself : w.heap self = .serde s)
    (hold : s.inst ≠ none → ∃ v, (getMetrics self).run w = .ok v w) (hos : ∀ o ∈ os, w.Created o.1 o.2)
    (k : Kind) : ∀ map ∈ mapsAfter w self os k, ∃ g, groupOf lib map = .ok g := by
  intro map hmap
  rcases List.mem_append.1 hmap with hmap | hmap
  · by_cases hinst : s.inst = none
    · simp only [World.maps, World.context, hself, Obj.ctx, hinst] at hmap
      cases hmap
    · exact groupOf_ok_of_metrics hw hself hinst (hold hinst) k map hmap
  · obtain ⟨o, ho, hmap⟩ := List.mem_flatMap.1 hmap
    exact groupOf_ok_of_created hw (hos o (List.mem_of_mem_filter ho)) map hmap

theorem concatAll_metrics (hlib : lib.Contexts live) (hw : Sound live w) (hself : w.heap self = .serde s)
    (hold : s.inst ≠ none → ∃ v, (getMetrics self).run w = .ok v w) (hos : ∀ o ∈ os, w.Created o.1 o.2)
    (hne : s.inst ≠ none ∨ os ≠ []) (hcat : CatsSucceed w (stateOf ((concatAll self os).run w))) :
    ∃ w' gs, (concatAll self os).run w = .ok () w' ∧ (getMetrics self).run w' = .ok (.array gs) w' ∧
      (mapsAfter w self os .counter ++ mapsAfter w self os .gauge ++ mapsAfter w self os .untyped).mapM
        (groupOf lib) = .ok (gs.map leaveOutGroup) ∧
      ∀ o ∈ os, w'.heap o.2 = w.heap o.2 ∧ w'.context o.2 = w.context o.2 := by
  obtain ⟨w', s', hrun, hsound, hself', hinst', hframe, hmaps⟩ := concatAll_run hlib hw hself hos hcat
  obtain ⟨r, hmetrics, hr⟩ := getMetrics_groupOf hsound hself' (hinst' hne)
  rw [hmaps, hmaps, hmaps] at hr
  have hok := groupOf_ok_of_mapsAfter hw hself hold hos
  obtain ⟨gs', hgs'⟩ := isOk_mapM.2 (List.forall_mem_append.2
    ⟨List.forall_mem_append.2 ⟨hok .counter, hok .gauge⟩, hok .untyped⟩)
  cases r with
  | error e =>
    rw [hgs'] at hr
    cases hr
  | ok gs =>
    exact ⟨w', gs, hrun, hmetrics, hr.symm, fun o ho => hframe o.2 (ne_of_created hself (hos o ho))⟩

/-- The same objects, with those of one kind in the same order. -/
def SameOrders (os os' : List (Kind × ObjId)) : Prop :=
  ∀ k, os'.filter (·.1 = k) = os.filter (·.1 = k)

theorem SameOrders.mem {os os' : List (Kind × ObjId)} (h : SameOrders os os') (o : Kind × ObjId) :
    o ∈ os' ↔ o ∈ os := by
  have hfilter : o ∈ os'.filter (·.1 = o.1) ↔ o ∈ os.filter (·.1 = o.1) := by rw [h o.1]
  simpa using hfilter

/-- Groups that can all be made have one Hash for each sample of their maps. -/
theorem hashes_of_groupOf {maps : List CmtMap} {vs : List Value} (h : maps.mapM (groupOf lib) = .ok vs) :
    ∃ groups : List (List Entries), vs = groups.map (fun g => .array (g.map .hash)) ∧
      List.Forall₂ (fun map g => List.Forall₂
        (fun metric => HashOf lib.seconds .empty (map.repeated metric) metric) map.samples g) maps groups := by
  have hformats : ∀ map ∈ maps, ∀ metric ∈ map.samples, Formats .empty map metric := by
    intro map hmap
    obtain ⟨v, hv⟩ := isOk_mapM.1 ⟨vs, h⟩ map hmap
    exact formats_of_formatMetrics hv
  obtain ⟨groups, hmapM, hgroups⟩ := mapM_formatMetrics_ok hformats
  exact ⟨groups, Except.ok.inj (h.symm.trans hmapM), hgroups⟩

/-- After the `concat`s of `os`, `metrics` returns a group for each of the earlier maps and of the maps of the
objects, kind by kind and in the order of the calls, and in it one Hash for each sample. The objects are what
they were. Only the orders within each kind matter. -/
theorem concatAll_groups (hlib : lib.Contexts live) (hw : Reachable w) (hself : w.heap self = .serde s)
    (hold : s.inst ≠ none → ∃ v, (getMetrics self).run w = .ok v w) (hos : ∀ o ∈ os, w.Created o.1 o.2)
    (hne : s.inst ≠ none ∨ os ≠ []) (hcat : CatsSucceed w (stateOf ((concatAll self os).run w))) :
    ∃ w' gs, (concatAll self os).run w = .ok () w' ∧ (getMetrics self).run w' = .ok (.array gs) w' ∧
      (∃ groups : List (List Entries), gs.map leaveOutGroup = groups.map (fun g => .array (g.map .hash)) ∧
        List.Forall₂ (fun map g => List.Forall₂
            (fun metric => HashOf lib.seconds .empty (map.repeated metric) metric) map.samples g)
          (mapsAfter w self os .counter ++ mapsAfter w self os .gauge ++ mapsAfter w self os .untyped) groups) ∧
      (∀ o ∈ os, w'.heap o.2 = w.heap o.2 ∧ w'.context o.2 = w.context o.2) ∧
      ∀ os', SameOrders os os' → CatsSucceed w (stateOf ((concatAll self os').run w)) →
        ∃ w'' gs', (concatAll self os').run w = .ok () w'' ∧ (getMetrics self).run w'' = .ok (.array gs') w'' ∧
          gs'.map leaveOutGroup = gs.map leaveOutGroup := by
  have hw := hw.sound hlib
  obtain ⟨w', gs, hrun, hmetrics, hgs, hsame⟩ := concatAll_metrics hlib hw hself hold hos hne hcat
  refine ⟨w', gs, hrun, hmetrics, hashes_of_groupOf hgs, hsame, fun os' horders hcat' => ?_⟩
  have hos' : ∀ o ∈ os', w.Created o.1 o.2 := fun o ho => hos o ((horders.mem o).1 ho)
  have hne' : s.inst ≠ none ∨ os' ≠ [] := by
    refine hne.imp_right fun hos => ?_
    obtain ⟨o, ho⟩ := List.exists_mem_of_ne_nil os hos
    exact List.ne_nil_of_mem ((horders.mem o).2 ho)
  obtain ⟨w'', gs', hrun', hmetrics', hgs', -⟩ := concatAll_metrics hlib hw hself hold hos' hne' hcat'
  refine ⟨w'', gs', hrun', hmetrics', ?_⟩
  have hmaps : ∀ k, mapsAfter w self os' k = mapsAfter w self os k := fun k => by
    rw [mapsAfter, mapsAfter, horders k]
  rw [hmaps, hmaps, hmaps, hgs] at hgs'
  exact (Except.ok.inj hgs').symm

/-- A gauge without samples and then a counter with one, to a new Serde. -/
theorem concatAll_groups_setUp : ∃ w' gs, ∃ h : Entries,
    (concatAll 2 [(.gauge, 1), (.counter, 0)]).run setUp = .ok () w' ∧
      (getMetrics 2).run w' = .ok (.array gs) w' ∧ gs.map leaveOutGroup = [.array [.hash h], .array []] ∧
      h.lookup (rbLit "name") = some (.string [0x61]) ∧ h.lookup (rbLit "value") = some (.float 1) := by
  have hself : setUp.heap 2 = .serde ⟨none, 0⟩ := rfl
  have hcat : CatsSucceed setUp
      (stateOf ((concatAll 2 [(Kind.gauge, 1), (Kind.counter, 0)]).run setUp)) := by
    refine ⟨[.create _, .cat _ _ 0, .cat _ _ 0], rfl, List.forall_mem_cons.2 ⟨fun h => h, ?_⟩⟩
    exact List.forall_mem_cons.2 ⟨fun h => h rfl, List.forall_mem_singleton.2 fun h => h rfl⟩
  have hos : ∀ o ∈ [(Kind.gauge, 1), (Kind.counter, 0)], setUp.Created o.1 o.2 :=
    List.forall_mem_cons.2 ⟨⟨_, rfl, nofun⟩, List.forall_mem_singleton.2 ⟨_, rfl, nofun⟩⟩
  obtain ⟨w', gs, hrun, hmetrics, ⟨groups, hgs, hgroups⟩, -⟩ := concatAll_groups (Reference.contexts [])
    reachable_setUp hself (fun h => absurd rfl h) hos (.inr (List.cons_ne_nil _ _)) hcat
  cases hgroups with
  | cons hcounter hgroups =>
    cases hgroups with
    | cons hgauge hgroups =>
      cases hgroups
      cases hgauge
      cases hcounter with
      | cons hsample hcounter =>
        cases hcounter
        refine ⟨w', gs, _, hrun, hmetrics, hgs, hsample.name, hsample.value.trans ?_⟩
        exact congrArg (fun x => some (Value.float x)) (by decide +kernel)

end Serde
end CmetricsRuby
