import CmetricsRuby.Proofs.Metrics

/-!
# `metrics` on any context

A context with NULL in it, or with samples that have more label values than their map has keys, is handed to
`metrics` as well: `concat` and the decoder only see the library's answer. The first sample that cannot be
formatted decides how the call ends.
-/

namespace CmetricsRuby

/-! ### One sample -/

/-- How the call ends at a sample that cannot be formatted. -/
def fault (cmt : Cmt) (map : CmtMap) (metric : CmtMetric) : Exit :=
  if map.opts.ns ≠ none ∧ map.opts.subsystem ≠ none ∧ (∀ l ∈ cmt.staticLabels, l.key ≠ none ∧ l.val ≠ none) ∧
      metric.labels ≠ [] ∧ map.labelKeys = [] then .undefined
  else nullGiven

variable {seconds : Nat → Double} {cmt : Cmt} {map : CmtMap} {metric : CmtMetric}

theorem staticLabelsHash_error {ls : List CmtLabel} (hls : ¬ ∀ l ∈ ls, l.key ≠ none ∧ l.val ≠ none) (h : Entries) :
    staticLabelsHash ls h = .error nullGiven := by
  induction ls generalizing h with
  | nil => exact absurd nofun hls
  | cons l ls ih =>
    rw [staticLabelsHash]
    by_cases hkey : l.key = none
    · rw [hkey]
      rfl
    by_cases hval : l.val = none
    · rw [rbStrOf_of_ne hkey, hval]
      rfl
    rw [rbStrOf_of_ne hkey, rbStrOf_of_ne hval, ok_bind, ok_bind]
    exact ih (fun h => hls (List.forall_mem_cons.2 ⟨⟨hkey, hval⟩, h⟩)) _

theorem staticTags_error (hcmt : ¬ cmt.StaticWhole) (h : Entries) : staticTags cmt h = .error nullGiven := by
  have hpos : 0 < cmt.staticLabels.length := by
    refine List.length_pos_iff.2 fun hnil => hcmt ?_
    unfold Cmt.StaticWhole
    rw [hnil]
    nofun
  rw [staticTags, if_pos hpos, staticLabelsHash_error hcmt]
  rfl

theorem labelTags_error (hall : ¬ ((∀ key ∈ wrapKeys map.labelKeys 0 metric.labels.length, key ≠ none) ∧
    ∀ v ∈ metric.labels, v ≠ none)) (h : Entries) : labelTags map metric h =
      .error (if metric.labels ≠ [] ∧ map.labelKeys = [] then .undefined else nullGiven) := by
  have hne : metric.labels ≠ [] := by
    intro hnil
    rw [hnil] at hall
    exact hall ⟨nofun, nofun⟩
  unfold labelTags
  rw [if_pos (List.length_pos_iff.2 hne)]
  by_cases hkeys : map.labelKeys = []
  · obtain ⟨v, vs, hvs⟩ := List.exists_cons_of_ne_nil hne
    rw [if_pos ⟨hne, hkeys⟩, hkeys, hvs]
    rfl
  · rw [if_neg fun hand => hkeys hand.2, labelsHash_wrap (List.length_pos_iff.2 hkeys), if_neg hall]
    rfl

theorem formatMetric_error (h : ¬ Formats cmt map metric) :
    formatMetric seconds cmt map metric = .error (fault cmt map metric) := by
  have early (hnot : ¬ (map.opts.ns ≠ none ∧ map.opts.subsystem ≠ none ∧ cmt.StaticWhole)) :
      fault cmt map metric = nullGiven := if_neg fun hall => hnot ⟨hall.1, hall.2.1, hall.2.2.1⟩
  rw [formatMetric_staged]
  by_cases hns : map.opts.ns = none
  · rw [early fun hall => hall.1 hns, hns]
    rfl
  by_cases hsubsystem : map.opts.subsystem = none
  · rw [early fun hall => hall.2.1 hsubsystem, rbStrOf_of_ne hns, hsubsystem]
    rfl
  by_cases hstatic : cmt.StaticWhole
  swap
  · simp only [early fun hall => hstatic hall.2.2, rbStrOf_of_ne hns, rbStrOf_of_ne hsubsystem,
      staticTags_error hstatic, ok_bind, error_bind]
  have hfault : fault cmt map metric =
      if metric.labels ≠ [] ∧ map.labelKeys = [] then .undefined else nullGiven := by
    refine if_congr ?_ rfl rfl
    exact (and_iff_right hns).trans ((and_iff_right hsubsystem).trans (and_iff_right hstatic))
  simp only [rbStrOf_of_ne hns, rbStrOf_of_ne hsubsystem, staticTags_eq hstatic, ok_bind, hfault]
  by_cases hlabels : (∀ key ∈ wrapKeys map.labelKeys 0 metric.labels.length, key ≠ none) ∧
      ∀ v ∈ metric.labels, v ≠ none
  swap
  · rw [labelTags_error hlabels]
    rfl
  have hnull : ¬ (metric.labels ≠ [] ∧ map.labelKeys = []) := fun hand => labelKeys_ne_nil hlabels.1 hand.1 hand.2
  rw [labelTags_ok hlabels.1 hlabels.2, ok_bind, if_neg hnull]
  by_cases hname : map.opts.name = none
  · rw [appendMetricValue, hname]
    rfl
  by_cases hdescription : map.opts.description = none
  · simp only [appendMetricValue, rbStrOf_of_ne hname, hdescription, ok_bind]
    rfl
  exact absurd ⟨hns, hsubsystem, hstatic, hlabels.1, hlabels.2, hname, hdescription⟩ h

/-! ### A whole context -/

/-- The samples of a context, each with its map, in the order in which they are formatted. -/
def Cmt.allSamples (c : Cmt) : List (CmtMap × CmtMetric) :=
  (c.counters ++ c.gauges ++ c.untypeds).flatMap fun map => map.samples.map fun metric => (map, metric)

theorem mapM_error {ε α β : Type} {f : α → Except ε β} {l r : List α} {x : α} {e : ε}
    (hl : ∀ y ∈ l, ∃ b, f y = .ok b) (hx : f x = .error e) : (l ++ x :: r).mapM f = .error e := by
  obtain ⟨bs, hbs⟩ := isOk_mapM.2 hl
  rw [List.mapM_append, hbs, ok_bind, List.mapM_cons, hx]
  rfl

theorem formats_of_formatMetric {v : Value} (h : formatMetric seconds cmt map metric = .ok v) :
    Formats cmt map metric := by
  by_contra hnot
  rw [formatMetric_error hnot] at h
  cases h

theorem formats_of_formatMetrics {v : Value} (h : formatMetrics seconds cmt map = .ok v) :
    ∀ metric ∈ map.samples, Formats cmt map metric := by
  obtain ⟨hs, hsamples, -⟩ := bind_eq_ok.1 h
  intro metric hmetric
  obtain ⟨v, hv⟩ := isOk_mapM.1 ⟨hs, hsamples⟩ metric hmetric
  exact formats_of_formatMetric hv

theorem formatMetrics_error {l r : List CmtMetric} (hsamples : map.samples = l ++ metric :: r)
    (hl : ∀ y ∈ l, Formats cmt map y) (h : ¬ Formats cmt map metric) :
    formatMetrics seconds cmt map = .error (fault cmt map metric) := by
  rw [formatMetrics, hsamples, mapM_error (fun y hy => ⟨_, formatMetric_ok (hl y hy)⟩) (formatMetric_error h)]
  rfl

/-- The samples of one map, split at one of them. -/
theorem split_samples {ms : List CmtMetric} {l r : List (CmtMap × CmtMetric)} {x : CmtMap × CmtMetric}
    (h : ms.map (fun metric => (map, metric)) = l ++ x :: r) :
    x.1 = map ∧ ∃ p q, ms = p ++ x.2 :: q ∧ l = p.map fun metric => (map, metric) := by
  obtain ⟨p, qs, rfl, hp, hqs⟩ := List.map_eq_append_iff.1 h
  obtain ⟨metric, q, rfl, hx, -⟩ := List.map_eq_cons_iff.1 hqs
  subst hx
  exact ⟨rfl, p, q, rfl, hp.symm⟩

theorem mapM_formatMetrics_error {maps : List CmtMap} {l r : List (CmtMap × CmtMetric)} {x : CmtMap × CmtMetric}
    (hsplit : (maps.flatMap fun map => map.samples.map fun metric => (map, metric)) = l ++ x :: r)
    (hl : ∀ y ∈ l, Formats cmt y.1 y.2) (hx : ¬ Formats cmt x.1 x.2) :
    maps.mapM (formatMetrics seconds cmt) = .error (fault cmt x.1 x.2) := by
  induction maps generalizing l with
  | nil => cases l <;> cases hsplit
  | cons map maps ih =>
    rw [List.flatMap_cons] at hsplit
    rw [List.mapM_cons]
    rcases List.append_eq_append_iff.1 hsplit with ⟨l', rfl, hrest⟩ | ⟨r', hthis, hr'⟩
    · -- the samples of this map come before the first bad one
      rw [List.forall_mem_append] at hl
      have hmap : ∀ metric ∈ map.samples, Formats cmt map metric := fun metric hmetric =>
        hl.1 (map, metric) (List.mem_map_of_mem hmetric)
      rw [formatMetrics_ok hmap, ok_bind, ih hrest hl.2]
      rfl
    · cases r' with
      | nil =>
        rw [List.append_nil] at hthis
        subst hthis
        have hmap : ∀ metric ∈ map.samples, Formats cmt map metric := fun metric hmetric =>
          hl (map, metric) (List.mem_map_of_mem hmetric)
        rw [formatMetrics_ok hmap, ok_bind, ih (l := []) hr'.symm nofun]
        rfl
      | cons y r' =>
        obtain ⟨rfl, -⟩ := List.cons.inj hr'
        obtain ⟨hmap, p, q, hsamples, rfl⟩ := split_samples hthis
        subst hmap
        rw [formatMetrics_error hsamples (fun y hy => hl (x.1, y) (List.mem_map_of_mem hy)) hx]
        rfl

namespace Serde

variable {lib : Library} {E : Type} {w : World lib E} {self : ObjId} {s : CMetricsSerde lib}
  {ctx : lib.Ctx}

/-- What `metrics` makes of any context at all: the groups of its samples, with the keys of a map repeated as
often as a sample needs them, or the end that the first sample it cannot format comes to. -/
theorem getMetrics_any (hself : w.heap self = .serde s) (hinst : s.inst = some ctx) :
    let c := lib.cmt w.mem ctx
    ((∀ x ∈ c.allSamples, Formats c x.1 x.2) → ∃ groups : List (List Entries),
      (getMetrics self).run w = .ok (.array (groups.map fun g => .array (g.map .hash))) w ∧
      List.Forall₂ (fun map g => List.Forall₂
          (fun metric => HashOf lib.seconds c (map.repeated metric) metric) map.samples g)
        (c.counters ++ c.gauges ++ c.untypeds) groups) ∧
    ∀ l x r, c.allSamples = l ++ x :: r → (∀ y ∈ l, Formats c y.1 y.2) → ¬ Formats c x.1 x.2 →
      (getMetrics self).run w = .error (fault c x.1 x.2) w := by
  intro c
  constructor
  · intro h
    refine getMetrics_formats hself hinst fun map hmap metric hmetric => h (map, metric) ?_
    exact List.mem_flatMap.2 ⟨map, hmap, List.mem_map_of_mem hmetric⟩
  · intro l x r hsplit hl hx
    have hrun := run_getMetrics hself hinst
    rw [formatContext_eq, mapM_formatMetrics_error hsplit hl hx] at hrun
    exact hrun

/-- A Serde with a gauge of two keys and a sample of three values. -/
def wrapped : World (reference []) Unit :=
  let str : UInt8 → Option CStr := fun c => some (CStr.ofPtr [c])
  let gauge : CmtMap := ⟨⟨str 0x6e, str 0x73, str 0x61, str 0x68⟩, [str 0x6b, str 0x6c], 0, ⟨0, 0, []⟩,
    [⟨5, 0, [str 0x78, str 0x79, str 0x7a]⟩]⟩
  let context : Cmt := ⟨[], [], [gauge], []⟩
  { Reference.start [] () [.serde ⟨some (Reference.ctx 0), 0⟩] with mem := ([context] : Reference.Mem) }

/-- The third value is under the first key again, in place of the first value. -/
theorem getMetrics_any_wrapped : ∃ h lhash : Entries,
    (getMetrics 0).run wrapped = .ok (.array [.array [.hash h]]) wrapped ∧
      h.lookup (rbLit "labels") = some (.hash lhash) ∧ lhash.lookup [0x6b] = some (.string [0x7a]) := by
  have hself : wrapped.heap 0 = .serde ⟨some (Reference.ctx 0), 0⟩ := rfl
  obtain ⟨groups, hrun, hgroups⟩ := (getMetrics_any hself rfl).1 (by
    intro x hx
    rcases List.mem_singleton.1 hx with rfl
    constructor <;> (try unfold Cmt.StaticWhole) <;> decide)
  cases hgroups with
  | cons hgauge hgroups =>
    cases hgroups
    cases hgauge with
    | cons hsample hgauge =>
      cases hgauge
      obtain ⟨lhash, hlabels, hpairs⟩ := hsample.labels (by decide)
      exact ⟨_, lhash, hrun, hlabels, hpairs [0x6b]⟩

end Serde
end CmetricsRuby
