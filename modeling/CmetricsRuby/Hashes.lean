import CmetricsRuby.Format
import Mathlib.Data.List.Forall2

/-!
# The Hash of a sample

`HashOf` is what the Hash of a sample should have in it. `formatMetric` makes such a Hash of every sample
whose strings are there, with the keys of its map starting over when they run out. Static labels only add
one entry to each Hash, and `leaveOut` takes it away again.
-/

namespace CmetricsRuby

/-- The bytes of a string that is there. -/
def strBytes (p : Option CStr) : Bytes := (p.map CStr.bytes).getD []

theorem rbStrOf_of_ne {p : Option CStr} (h : p ≠ none) : rbStrOf p = .ok (strBytes p) := by
  obtain ⟨c, rfl⟩ := Option.ne_none_iff_exists'.1 h
  show Except.ok (CStr.ofPtr c.bytes).bytes = .ok c.bytes
  rw [CStr.ofPtr_bytes]

def nullGiven : Exit := .raised .argError "NULL pointer given"

/-! ### Contexts without NULL -/

structure CmtMap.Whole (map : CmtMap) : Prop where
  ns : map.opts.ns ≠ none
  subsystem : map.opts.subsystem ≠ none
  name : map.opts.name ≠ none
  description : map.opts.description ≠ none
  keys : ∀ key ∈ map.labelKeys, key ≠ none
  values : ∀ x ∈ map.samples, ∀ v ∈ x.labels, v ≠ none
  labels : ∀ x ∈ map.samples, x.labels.length ≤ map.labelKeys.length

def Cmt.StaticWhole (c : Cmt) : Prop := ∀ l ∈ c.staticLabels, l.key ≠ none ∧ l.val ≠ none

/-! ### Label Hashes -/

/-- Assigning one pair after the other. -/
def asetAll : List (Bytes × Bytes) → Entries → Entries
  | [], h => h
  | p :: ps, h => asetAll ps (rbHashAset h p.1 (.string p.2))

/-- The last value of a key wins. -/
theorem lookup_asetAll (ps : List (Bytes × Bytes)) (h : Entries) (key : Bytes) :
    (asetAll ps h).lookup key = ((ps.reverse.lookup key).map Value.string).or (h.lookup key) := by
  induction ps generalizing h with
  | nil => rfl
  | cons p ps ih =>
    rw [asetAll, ih, lookup_rbHashAset, List.reverse_cons, List.lookup_append, lookup_cons_eq_ite]
    cases hps : ps.reverse.lookup key with
    | some v => rfl
    | none =>
      by_cases hp : key = p.1
      · simp [hp]
      · simp [hp]

def staticPairs (c : Cmt) : List (Bytes × Bytes) :=
  c.staticLabels.map fun l => (strBytes l.key, strBytes l.val)

/-- The first key with the first value, and so on. -/
def labelPairs (map : CmtMap) (metric : CmtMetric) : List (Bytes × Bytes) :=
  (map.labelKeys.map strBytes).zip (metric.labels.map strBytes)

theorem staticLabelsHash_eq {ls : List CmtLabel} (hls : ∀ l ∈ ls, l.key ≠ none ∧ l.val ≠ none)
    (h : Entries) : staticLabelsHash ls h =
      .ok (asetAll (ls.map fun l => (strBytes l.key, strBytes l.val)) h) := by
  induction ls generalizing h with
  | nil => rfl
  | cons l ls ih =>
    obtain ⟨⟨hkey, hval⟩, hls⟩ := List.forall_mem_cons.1 hls
    rw [staticLabelsHash, rbStrOf_of_ne hkey, ok_bind, rbStrOf_of_ne hval, ok_bind, ih hls]
    rfl

/-! ### Label keys that run out -/

/-- The first `k` keys from the place `i` on, starting over at the end. -/
def wrapKeys (keys : List (Option CStr)) (i k : Nat) : List (Option CStr) :=
  (List.range k).map fun j => keys.getD ((i + j) % keys.length) none

variable {keys vals : List (Option CStr)} {i k : Nat}

theorem nextCursor_eq (hi : i < keys.length) : nextCursor keys.length i = (i + 1) % keys.length := by
  unfold nextCursor
  split
  · rename_i h
    rw [h, Nat.mod_self]
  · rw [Nat.mod_eq_of_lt (by omega)]

theorem wrapKeys_succ (hi : i < keys.length) :
    wrapKeys keys i (k + 1) = keys[i] :: wrapKeys keys (nextCursor keys.length i) k := by
  rw [wrapKeys, wrapKeys, List.range_succ_eq_map, List.map_cons, List.map_map, nextCursor_eq hi]
  congr 1
  · rw [Nat.add_zero, Nat.mod_eq_of_lt hi, List.getD_eq_getElem?_getD, List.getElem?_eq_getElem hi]
    rfl
  · refine List.map_congr_left fun j _ => ?_
    rw [Function.comp_apply, Nat.mod_add_mod, Nat.add_right_comm, Nat.add_assoc, Nat.succ_eq_add_one]

theorem length_wrapKeys : (wrapKeys keys i k).length = k := by
  rw [wrapKeys, List.length_map, List.length_range]

theorem wrapKeys_of_le (h : k ≤ keys.length) : wrapKeys keys 0 k = keys.take k := by
  refine List.ext_getElem (by rw [length_wrapKeys, List.length_take, Nat.min_eq_left h]) fun j hj _ => ?_
  rw [length_wrapKeys] at hj
  simp only [wrapKeys, List.getElem_map, List.getElem_range, List.getElem_take, Nat.zero_add]
  rw [Nat.mod_eq_of_lt (by omega), List.getD_eq_getElem?_getD, List.getElem?_eq_getElem (by omega)]
  rfl

theorem nextCursor_lt (hi : i < keys.length) : nextCursor keys.length i < keys.length := by
  rw [nextCursor_eq hi]
  exact Nat.mod_lt _ (by omega)

theorem labelsHash_wrap (hi : i < keys.length) (h : Entries) : labelsHash keys vals i h =
    if (∀ key ∈ wrapKeys keys i vals.length, key ≠ none) ∧ ∀ v ∈ vals, v ≠ none then
      .ok (asetAll (((wrapKeys keys i vals.length).map strBytes).zip (vals.map strBytes)) h)
    else .error nullGiven := by
  induction vals generalizing i h with
  | nil => rfl
  | cons v vals ih =>
    rw [List.length_cons, wrapKeys_succ hi, labelsHash, List.getElem?_eq_getElem hi]
    simp only [List.forall_mem_cons, ih (nextCursor_lt hi)]
    by_cases hkey : keys[i] = none
    · rw [if_neg fun hall => hall.1.1 hkey, hkey]
      rfl
    by_cases hv : v = none
    · rw [if_neg fun hall => hall.2.1 hv, rbStrOf_of_ne hkey, hv]
      rfl
    rw [rbStrOf_of_ne hkey, rbStrOf_of_ne hv, ok_bind, ok_bind]
    simp only [ne_eq, hkey, hv, not_false_eq_true, true_and]
    rfl

/-! ### One sample -/

/-- `h` has the pairs `ps` in it and nothing else; of two pairs with one key the later one counts. -/
def LabelHash (ps : List (Bytes × Bytes)) (h : Entries) : Prop :=
  ∀ key, h.lookup key = (ps.reverse.lookup key).map Value.string

structure HashOf (seconds : Nat → Double) (cmt : Cmt) (map : CmtMap) (metric : CmtMetric) (h : Entries) : Prop where
  ns : h.lookup (rbLit "namespace") = some (.string (strBytes map.opts.ns))
  subsystem : h.lookup (rbLit "subsystem") = some (.string (strBytes map.opts.subsystem))
  name : h.lookup (rbLit "name") = some (.string (strBytes map.opts.name))
  description : h.lookup (rbLit "description") = some (.string (strBytes map.opts.description))
  value : h.lookup (rbLit "value") = some (.float metric.val)
  timestamp : h.lookup (rbLit "timestamp") = some (.float (seconds metric.timestamp))
  noLabels : metric.labels = [] → h.lookup (rbLit "labels") = none
  labels : metric.labels ≠ [] → ∃ lhash, h.lookup (rbLit "labels") = some (.hash lhash) ∧
    LabelHash (labelPairs map metric) lhash
  noStaticLabels : cmt.staticLabels = [] → h.lookup (rbLit "static_labels") = none
  staticLabels : cmt.staticLabels ≠ [] → ∃ shash, h.lookup (rbLit "static_labels") = some (.hash shash) ∧
    LabelHash (staticPairs cmt) shash
  other : ∀ key, key ∉ ["namespace", "subsystem", "static_labels", "labels", "name", "description", "value",
    "timestamp"].map rbLit → h.lookup key = none

theorem labelHash_asetAll (ps : List (Bytes × Bytes)) : LabelHash ps (asetAll ps []) := by
  intro key
  rw [lookup_asetAll, List.lookup_nil, Option.or_none]

def sampleHash (seconds : Nat → Double) (cmt : Cmt) (map : CmtMap) (metric : CmtMetric) : Entries :=
  let h := rbHashAset [] (rbLit "namespace") (.string (strBytes map.opts.ns))
  let h := rbHashAset h (rbLit "subsystem") (.string (strBytes map.opts.subsystem))
  let h := if cmt.staticLabels = [] then h
    else rbHashAset h (rbLit "static_labels") (.hash (asetAll (staticPairs cmt) []))
  let h := if metric.labels = [] then h
    else rbHashAset h (rbLit "labels") (.hash (asetAll (labelPairs map metric) []))
  let h := rbHashAset h (rbLit "name") (.string (strBytes map.opts.name))
  let h := rbHashAset h (rbLit "description") (.string (strBytes map.opts.description))
  let h := rbHashAset h (rbLit "value") (.float metric.val)
  rbHashAset h (rbLit "timestamp") (.float (seconds metric.timestamp))

theorem hashOf_sampleHash (seconds : Nat → Double) (cmt : Cmt) (map : CmtMap) (metric : CmtMetric) :
    HashOf seconds cmt map metric (sampleHash seconds cmt map metric) := by
  constructor
  case labels =>
    intro h
    refine ⟨_, ?_, labelHash_asetAll _⟩
    simp only [sampleHash, if_neg h]
    simp +decide [lookup_rbHashAset]
  case staticLabels =>
    intro h
    refine ⟨_, ?_, labelHash_asetAll _⟩
    simp only [sampleHash, if_neg h]
    split <;> simp +decide [lookup_rbHashAset]
  case noLabels =>
    intro h
    simp only [sampleHash, if_pos h]
    split <;> simp +decide [lookup_rbHashAset]
  case noStaticLabels =>
    intro h
    simp only [sampleHash, if_pos h]
    split <;> simp +decide [lookup_rbHashAset]
  case other =>
    intro key hkey
    simp only [List.map_cons, List.map_nil, List.mem_cons, List.not_mem_nil, or_false, not_or] at hkey
    simp only [sampleHash]
    split <;> split <;> simp [lookup_rbHashAset, hkey]
  all_goals
    simp only [sampleHash]
    split <;> split <;> simp +decide [lookup_rbHashAset]

/-! ### The stages of `formatMetric` -/

def staticTags (cmt : Cmt) (h : Entries) : Except Exit Entries :=
  if 0 < cmt.staticLabels.length then do
    let shash ← staticLabelsHash cmt.staticLabels []
    return rbHashAset h (rbLit "static_labels") (.hash shash)
  else .ok h

def labelTags (map : CmtMap) (metric : CmtMetric) (h : Entries) : Except Exit Entries :=
  if 0 < metric.labels.length then do
    let lhash ← labelsHash map.labelKeys metric.labels 0 []
    return rbHashAset h (rbLit "labels") (.hash lhash)
  else .ok h

theorem formatMetric_staged (seconds : Nat → Double) (cmt : Cmt) (map : CmtMap) (metric : CmtMetric) :
    formatMetric seconds cmt map metric = (do
      let ns ← rbStrOf map.opts.ns
      let subsystem ← rbStrOf map.opts.subsystem
      let h := rbHashAset [] (rbLit "namespace") (.string ns)
      let h ← staticTags cmt (rbHashAset h (rbLit "subsystem") (.string subsystem))
      let h ← labelTags map metric h
      return .hash (← appendMetricValue seconds map h metric)) := by
  unfold formatMetric staticTags labelTags
  by_cases hstatic : 0 < cmt.staticLabels.length <;> by_cases hlabels : 0 < metric.labels.length <;>
    simp [hstatic, hlabels]

variable {seconds : Nat → Double} {cmt : Cmt} {map : CmtMap} {metric : CmtMetric}

theorem staticTags_eq (hcmt : cmt.StaticWhole) (h : Entries) : staticTags cmt h =
    .ok (if cmt.staticLabels = [] then h
      else rbHashAset h (rbLit "static_labels") (.hash (asetAll (staticPairs cmt) []))) := by
  unfold staticTags
  by_cases hnil : cmt.staticLabels = []
  · rw [if_pos hnil, hnil]
    rfl
  · rw [if_pos (List.length_pos_iff.2 hnil), if_neg hnil, staticLabelsHash_eq hcmt]
    rfl

/-! ### A sample that can be formatted -/

/-- The map with keys enough for the sample. -/
def CmtMap.repeated (map : CmtMap) (metric : CmtMetric) : CmtMap :=
  { map with labelKeys := wrapKeys map.labelKeys 0 metric.labels.length }

structure Formats (cmt : Cmt) (map : CmtMap) (metric : CmtMetric) : Prop where
  ns : map.opts.ns ≠ none
  subsystem : map.opts.subsystem ≠ none
  static : cmt.StaticWhole
  keys : ∀ key ∈ wrapKeys map.labelKeys 0 metric.labels.length, key ≠ none
  values : ∀ v ∈ metric.labels, v ≠ none
  name : map.opts.name ≠ none
  description : map.opts.description ≠ none

theorem labelKeys_ne_nil (hkeys : ∀ key ∈ wrapKeys map.labelKeys 0 metric.labels.length, key ≠ none)
    (hne : metric.labels ≠ []) : map.labelKeys ≠ [] := by
  intro hnil
  refine hkeys none (List.mem_map.2 ⟨0, List.mem_range.2 (List.length_pos_iff.2 hne), ?_⟩) rfl
  rw [hnil]
  rfl

theorem labelTags_ok (hkeys : ∀ key ∈ wrapKeys map.labelKeys 0 metric.labels.length, key ≠ none)
    (hvalues : ∀ v ∈ metric.labels, v ≠ none) (h : Entries) : labelTags map metric h =
      .ok (if metric.labels = [] then h
        else rbHashAset h (rbLit "labels") (.hash (asetAll (labelPairs (map.repeated metric) metric) []))) := by
  unfold labelTags
  by_cases hnil : metric.labels = []
  · rw [if_pos hnil, hnil]
    rfl
  · have hsome := List.length_pos_iff.2 (labelKeys_ne_nil hkeys hnil)
    rw [if_pos (List.length_pos_iff.2 hnil), if_neg hnil, labelsHash_wrap hsome, if_pos ⟨hkeys, hvalues⟩]
    rfl

theorem formatMetric_ok (h : Formats cmt map metric) :
    formatMetric seconds cmt map metric = .ok (.hash (sampleHash seconds cmt (map.repeated metric) metric)) := by
  simp only [formatMetric_staged, rbStrOf_of_ne h.ns, rbStrOf_of_ne h.subsystem, staticTags_eq h.static,
    labelTags_ok h.keys h.values, appendMetricValue, rbStrOf_of_ne h.name, rbStrOf_of_ne h.description, ok_bind]
  rfl

theorem take_length_zip {α β : Type} (l : List α) (m : List β) : (l.take m.length).zip m = l.zip m := by
  have h : (l.zip m).take m.length = (l.take m.length).zip (m.take m.length) := List.take_zipWith
  rw [List.take_length, List.take_of_length_le (by simp)] at h
  exact h.symm

/-- Nothing is repeated for a sample that has no more values than there are keys. -/
theorem labelPairs_repeated (h : metric.labels.length ≤ map.labelKeys.length) :
    labelPairs (map.repeated metric) metric = labelPairs map metric := by
  have hkeys : ((map.repeated metric).labelKeys.map strBytes) =
      (map.labelKeys.map strBytes).take (metric.labels.map strBytes).length := by
    rw [List.length_map, ← List.map_take, ← wrapKeys_of_le h]
    rfl
  rw [labelPairs, hkeys, take_length_zip, labelPairs]

/-- Nothing of what the Hash should have in it is different for such a sample. -/
theorem HashOf.of_repeated {h : Entries} (hlen : metric.labels.length ≤ map.labelKeys.length)
    (hash : HashOf seconds cmt (map.repeated metric) metric h) : HashOf seconds cmt map metric h :=
  { hash with
    ns := hash.ns
    subsystem := hash.subsystem
    name := hash.name
    description := hash.description
    labels := fun hne => by
      rw [← labelPairs_repeated hlen]
      exact hash.labels hne }

theorem CmtMap.Whole.formats (hmap : map.Whole) (hcmt : cmt.StaticWhole) (hmetric : metric ∈ map.samples) :
    Formats cmt map metric where
  ns := hmap.ns
  subsystem := hmap.subsystem
  static := hcmt
  keys := by
    rw [wrapKeys_of_le (hmap.labels metric hmetric)]
    exact fun key hkey => hmap.keys key (List.mem_of_mem_take hkey)
  values := hmap.values metric hmetric
  name := hmap.name
  description := hmap.description

/-- The Hashes of the samples of a map. -/
def groupHashes (seconds : Nat → Double) (cmt : Cmt) (map : CmtMap) : List Entries :=
  map.samples.map fun metric => sampleHash seconds cmt (map.repeated metric) metric

theorem hashOf_groupHashes (seconds : Nat → Double) (cmt : Cmt) (map : CmtMap) :
    List.Forall₂ (fun metric => HashOf seconds cmt (map.repeated metric) metric) map.samples
      (groupHashes seconds cmt map) := by
  rw [groupHashes, List.forall₂_map_right_iff, List.forall₂_same]
  exact fun metric _ => hashOf_sampleHash seconds cmt (map.repeated metric) metric

theorem formatMetrics_ok (h : ∀ metric ∈ map.samples, Formats cmt map metric) :
    formatMetrics seconds cmt map = .ok (.array ((groupHashes seconds cmt map).map .hash)) := by
  rw [formatMetrics, mapM_eq_ok_map fun metric hmetric => formatMetric_ok (h metric hmetric), groupHashes, List.map_map]
  rfl

/-! ### Without the static labels -/

def notStatic (key : Bytes) : Bool := key != rbLit "static_labels"

/-- A Hash without its entry for the static labels. -/
def leaveOut : Value → Value
  | .hash h => .hash (h.filter fun e => notStatic e.1)
  | v => v

/-- A group without the static labels of its Hashes. -/
def leaveOutGroup : Value → Value
  | .array hs => .array (hs.map leaveOut)
  | v => v

def bare (h : Entries) : Entries := h.filter fun e => notStatic e.1

theorem bare_rbHashAset (h : Entries) {k : Bytes} (v : Value) (hk : notStatic k = true) :
    bare (rbHashAset h k v) = rbHashAset (bare h) k v := by
  unfold bare
  rw [filter_rbHashAset, if_pos hk]

theorem bare_static (h : Entries) (v : Value) : bare (rbHashAset h (rbLit "static_labels") v) = bare h := by
  unfold bare
  rw [filter_rbHashAset, if_neg (by decide)]

theorem labelTags_bare (map : CmtMap) (metric : CmtMetric) (h : Entries) :
    (labelTags map metric h).map bare = labelTags map metric (bare h) := by
  unfold labelTags
  by_cases hlabels : 0 < metric.labels.length
  · rw [if_pos hlabels, if_pos hlabels]
    cases labelsHash map.labelKeys metric.labels 0 [] with
    | error e => rfl
    | ok lhash => exact congrArg Except.ok (bare_rbHashAset _ _ (by decide))
  · rw [if_neg hlabels, if_neg hlabels]
    rfl

theorem appendMetricValue_bare (map : CmtMap) (metric : CmtMetric) (h : Entries) :
    (appendMetricValue seconds map h metric).map bare = appendMetricValue seconds map (bare h) metric := by
  simp only [appendMetricValue]
  cases rbStrOf map.opts.name with
  | error e => rfl
  | ok name =>
    cases rbStrOf map.opts.description with
    | error e => rfl
    | ok description =>
      refine congrArg Except.ok ?_
      rw [bare_rbHashAset _ _ (by decide), bare_rbHashAset _ _ (by decide), bare_rbHashAset _ _ (by decide),
        bare_rbHashAset _ _ (by decide)]

/-- The labels, name and value of a sample come after its static labels and have nothing to do with them. -/
theorem tags_bare (map : CmtMap) (metric : CmtMetric) (h : Entries) :
    Except.map leaveOut (do
      let h ← labelTags map metric h
      return .hash (← appendMetricValue seconds map h metric)) = (do
    let h ← labelTags map metric (bare h)
    return .hash (← appendMetricValue seconds map h metric)) := by
  rw [← labelTags_bare]
  cases labelTags map metric h with
  | error e => rfl
  | ok h =>
    show Except.map leaveOut (appendMetricValue seconds map h metric >>= fun h => .ok (.hash h)) =
      (appendMetricValue seconds map (bare h) metric >>= fun h => .ok (.hash h))
    rw [← appendMetricValue_bare]
    cases appendMetricValue seconds map h metric with
    | error e => rfl
    | ok h => rfl

/-- A sample with its static labels left out is a sample without any. -/
theorem formatMetric_bare (hcmt : cmt.StaticWhole) (map : CmtMap) (metric : CmtMetric) :
    (formatMetric seconds cmt map metric).map leaveOut = formatMetric seconds .empty map metric := by
  have hempty : Cmt.StaticWhole .empty := nofun
  simp only [formatMetric_staged, staticTags_eq hcmt, staticTags_eq hempty, ok_bind]
  cases rbStrOf map.opts.ns with
  | error e => rfl
  | ok ns =>
    cases rbStrOf map.opts.subsystem with
    | error e => rfl
    | ok subsystem =>
      rw [ok_bind, ok_bind, ok_bind, ok_bind, tags_bare]
      have hbare : bare (rbHashAset (rbHashAset [] (rbLit "namespace") (.string ns)) (rbLit "subsystem")
          (.string subsystem)) =
          rbHashAset (rbHashAset [] (rbLit "namespace") (.string ns)) (rbLit "subsystem") (.string subsystem) := by
        rw [bare_rbHashAset _ _ (by decide), bare_rbHashAset _ _ (by decide)]
        rfl
      split
      · rw [hbare]
        rfl
      · rw [bare_static, hbare]
        rfl

theorem formatMetrics_bare (hcmt : cmt.StaticWhole) (map : CmtMap) :
    (formatMetrics seconds cmt map).map leaveOutGroup = formatMetrics seconds .empty map := by
  have hsamples : (map.samples.mapM (formatMetric seconds cmt map)).map (List.map leaveOut) =
      map.samples.mapM (formatMetric seconds .empty map) := by
    rw [map_mapM]
    exact congrArg (List.mapM · map.samples) (funext fun metric => formatMetric_bare hcmt map metric)
  unfold formatMetrics
  rw [← hsamples]
  cases map.samples.mapM (formatMetric seconds cmt map) with
  | error e => rfl
  | ok hs => rfl

end CmetricsRuby
