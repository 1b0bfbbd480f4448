import CmetricsRuby.Hashes
import CmetricsRuby.Reference

/-!
# Objects and their contexts

`Library.Contexts` is what is assumed of the library about the contexts it hands out. Over it `Sound` says
whose contexts hold what: no two objects share one, and the context of a metric object holds maps of its
own kind only, with no NULL in them.
-/

namespace CmetricsRuby

variable {lib : Library} {E : Type}

/-! ### Contexts -/

/-- What becomes of a context when its samples change: no map comes or goes, and a map without NULL stays
one. -/
structure Cmt.Updates (c c' : Cmt) : Prop where
  staticLabels : c'.staticLabels = c.staticLabels
  maps : ∀ k, List.Forall₂ (fun map map' => map.Whole → map'.Whole) (c.maps k) (c'.maps k)

structure Cmt.Only (k : Kind) (c : Cmt) : Prop where
  others : ∀ k', k' ≠ k → c.maps k' = []
  whole : ∀ map ∈ c.maps k, map.Whole

namespace Cmt.Updates

variable {c c₁ c' : Cmt} {k : Kind}

theorem refl (c : Cmt) : c.Updates c := ⟨rfl, fun _ => List.forall₂_same.2 fun _ _ h => h⟩

theorem trans (h : c.Updates c₁) (h' : c₁.Updates c') : c.Updates c' := by
  refine ⟨h'.staticLabels.trans h.staticLabels, fun k => ?_⟩
  have hmaps := h.maps k
  have hmaps' := h'.maps k
  generalize c.maps k = l, c₁.maps k = l₁, c'.maps k = l' at hmaps hmaps'
  induction hmaps generalizing l' with
  | nil =>
    cases hmaps'
    exact .nil
  | cons hmap _ ih =>
    cases hmaps' with
    | cons hmap' htail => exact .cons (hmap' ∘ hmap) (ih _ htail)

theorem staticWhole (h : c.Updates c') (hc : c.StaticWhole) : c'.StaticWhole := by
  unfold Cmt.StaticWhole
  rw [h.staticLabels]
  exact hc

theorem maps_eq_nil_iff (h : c.Updates c') (k : Kind) : c'.maps k = [] ↔ c.maps k = [] := by
  have hlen := (h.maps k).length_eq
  rw [List.eq_nil_iff_length_eq_zero, List.eq_nil_iff_length_eq_zero, hlen]

theorem only (h : c.Updates c') (hc : c.Only k) : c'.Only k := by
  refine ⟨fun k' hk' => (h.maps_eq_nil_iff k').2 (hc.others k' hk'), ?_⟩
  have hmaps := h.maps k
  have hwhole := hc.whole
  generalize c.maps k = l, c'.maps k = l' at hmaps hwhole
  induction hmaps with
  | nil => nofun
  | cons hmap _ ih =>
    rw [List.forall_mem_cons] at hwhole ⊢
    exact ⟨hmap hwhole.1, ih hwhole.2⟩

end Cmt.Updates

/-! ### The library -/

/-- From `mem` to `mem'` the contexts stay what they are, but for `cmt`. -/
def KeptBut (live : lib.Mem → lib.Ctx → Prop) (cmt : Option lib.Ctx) (mem mem' : lib.Mem) : Prop :=
  ∀ c, live mem c → live mem' c ∧ (cmt ≠ some c → lib.cmt mem' c = lib.cmt mem c)

/-- What is assumed of the library, `live` being the contexts it has handed out. A new context is none of
these, and a call leaves the contexts alone that it is not about. -/
structure Library.Contexts (lib : Library) (live : lib.Mem → lib.Ctx → Prop) : Prop where
  init : ∀ mem, KeptBut live none mem (lib.cmtInitialize mem)
  create : ∀ mem, KeptBut live none mem (lib.cmtCreate mem).2
  created : ∀ {mem c}, (lib.cmtCreate mem).1 = some c →
    ¬ live mem c ∧ live (lib.cmtCreate mem).2 c ∧ lib.cmt (lib.cmtCreate mem).2 c = .empty
  metricCreate : ∀ {mem c}, live mem c → ∀ k (d : MetricDef), d.labelsCount = d.labels.length →
    let r := lib.cmtMetricCreate k (some c) d mem
    KeptBut live (some c) mem r.2 ∧
      (lib.cmt r.2 c).staticLabels = (lib.cmt mem c).staticLabels ∧
      (∀ k', k' ≠ k → (lib.cmt r.2 c).maps k' = (lib.cmt mem c).maps k') ∧
      (r.1 = none → (lib.cmt r.2 c).maps k = (lib.cmt mem c).maps k) ∧
      (r.1 ≠ none → ∃ map : CmtMap, map.opts = ⟨some d.ns, some d.subsystem, some d.name, some d.help⟩ ∧
        map.labelKeys = d.labels.map some ∧ map.samples = [] ∧
        (lib.cmt r.2 c).maps k = (lib.cmt mem c).maps k ++ [map])
  update : ∀ {mem c}, live mem c → ∀ u m ts (L : List CStr),
    let mem' := (lib.cmtUpdate u (some m) ts L.length L mem).2
    live mem' c ∧ (lib.cmt mem c).Updates (lib.cmt mem' c)
  labelAdd : ∀ {mem c}, live mem c → ∀ key val,
    let r := lib.cmtLabelAdd (some c) key val mem
    KeptBut live (some c) mem r.2 ∧ (∀ k, (lib.cmt r.2 c).maps k = (lib.cmt mem c).maps k) ∧
      (lib.cmt r.2 c).staticLabels =
        (lib.cmt mem c).staticLabels ++ if r.1 = 0 then [⟨some key, some val⟩] else []
  encode : ∀ {e c mem}, KeptBut live none mem (lib.cmtEncode e (some c) mem).2
  encodeDestroy : ∀ {e p mem}, KeptBut live none mem (lib.cmtEncodeDestroy e (some p) mem)
  encodeMsgpack : ∀ {c mem}, KeptBut live none mem (lib.cmtEncodeMsgpackCreate (some c) mem).2
  decode : ∀ buf length offset mem,
    KeptBut live none mem (lib.cmtDecodeMsgpackCreate buf length offset mem).2
  decoded : ∀ buf length offset mem c,
    let r := lib.cmtDecodeMsgpackCreate buf length offset mem
    r.1.ret = 0 → r.1.cmt = some c → ¬ live mem c ∧ live r.2 c ∧ (lib.cmt r.2 c).StaticWhole
  catNull : ∀ {dst src mem}, dst = none ∨ src = none → (lib.cmtCat dst src mem).1 ≠ 0
  catFailed : ∀ {d c mem}, live mem d → live mem c → (lib.cmtCat (some d) (some c) mem).1 ≠ 0 →
    KeptBut live none mem (lib.cmtCat (some d) (some c) mem).2
  cat : ∀ {d c mem}, live mem d → live mem c →
    let r := lib.cmtCat (some d) (some c) mem
    r.1 = 0 → KeptBut live (some d) mem r.2 ∧
      (∀ k, (lib.cmt r.2 d).maps k = (lib.cmt mem d).maps k ++ (lib.cmt mem c).maps k) ∧
      ∀ l ∈ (lib.cmt r.2 d).staticLabels,
        l ∈ (lib.cmt mem d).staticLabels ∨ l ∈ (lib.cmt mem c).staticLabels

/-! ### Objects and their contexts -/

def Obj.ctx : Obj lib → Option lib.Ctx
  | .free => none
  | .metric _ s => s.inst
  | .serde s => s.inst

/-- What the context of an object holds. -/
def Obj.Suits : Obj lib → Cmt → Prop
  | .free, _ => True
  | .metric k s, c => c.StaticWhole ∧ c.Only k ∧ (s.metric ≠ none → c.maps k ≠ [])
  | .serde _, c => c.StaticWhole

def Obj.HasContext : Obj lib → Prop
  | .metric _ s => s.metric ≠ none → s.inst ≠ none
  | _ => True

structure Fits (live : lib.Mem → lib.Ctx → Prop) (mem : lib.Mem) (o : Obj lib) : Prop where
  live : ∀ c, o.ctx = some c → live mem c
  suits : ∀ c, o.ctx = some c → o.Suits (lib.cmt mem c)
  hasContext : o.HasContext

structure Sound (live : lib.Mem → lib.Ctx → Prop) (w : World lib E) : Prop where
  fits : ∀ id, Fits live w.mem (w.heap id)
  apart : ∀ {id id' c}, (w.heap id).ctx = some c → (w.heap id').ctx = some c → id = id'

/-- The contexts but for `cmt` are updated at most. -/
def Frame (live : lib.Mem → lib.Ctx → Prop) (cmt : Option lib.Ctx) (mem mem' : lib.Mem) : Prop :=
  ∀ c, live mem c → live mem' c ∧ (cmt ≠ some c → (lib.cmt mem c).Updates (lib.cmt mem' c))

variable {live : lib.Mem → lib.Ctx → Prop} {cmt : Option lib.Ctx} {mem mem₁ mem' : lib.Mem} {o : Obj lib}

namespace KeptBut

theorem refl (mem : lib.Mem) : KeptBut live cmt mem mem := fun _ hc => ⟨hc, fun _ => rfl⟩

theorem trans (h : KeptBut live cmt mem mem₁) (h' : KeptBut live cmt mem₁ mem') :
    KeptBut live cmt mem mem' := by
  intro c hc
  obtain ⟨hc₁, heq⟩ := h c hc
  obtain ⟨hc', heq'⟩ := h' c hc₁
  exact ⟨hc', fun hne => (heq' hne).trans (heq hne)⟩

theorem weaken (h : KeptBut live none mem mem') : KeptBut live cmt mem mem' :=
  fun c hc => ⟨(h c hc).1, fun _ => (h c hc).2 nofun⟩

theorem frame (h : KeptBut live cmt mem mem') : Frame live cmt mem mem' := by
  intro c hc
  refine ⟨(h c hc).1, fun hne => ?_⟩
  rw [(h c hc).2 hne]
  exact .refl _

end KeptBut

theorem Obj.Suits.updates {c c' : Cmt} (ho : o.Suits c) (h : c.Updates c') : o.Suits c' := by
  cases o with
  | free => trivial
  | metric k s =>
    obtain ⟨hstatic, honly, hmaps⟩ := ho
    exact ⟨h.staticWhole hstatic, h.only honly, fun hm => mt (h.maps_eq_nil_iff k).1 (hmaps hm)⟩
  | serde s => exact h.staticWhole ho

theorem Fits.frame (ho : Fits live mem o) (h : Frame live cmt mem mem')
    (hne : ∀ c, o.ctx = some c → cmt ≠ some c) : Fits live mem' o where
  live c hc := (h c (ho.live c hc)).1
  suits c hc := (ho.suits c hc).updates ((h c (ho.live c hc)).2 (hne c hc))
  hasContext := ho.hasContext

/-! ### The assumptions can be met -/

namespace Reference

variable {x : Bytes}

def handedOut (x : Bytes) : (reference x).Mem → (reference x).Ctx → Prop :=
  fun (mem : Mem) (c : Nat) => c < mem.length

theorem keptBut_self (mem : Mem) (cmt : Option Nat) : KeptBut (handedOut x) cmt mem mem :=
  fun _ hc => ⟨hc, fun _ => rfl⟩

theorem keptBut_of_getElem? {mem mem' : Mem} {cmt : Option Nat} (hlen : mem.length ≤ mem'.length)
    (h : ∀ i, i < mem.length → cmt ≠ some i → mem'[i]? = mem[i]?) :
    KeptBut (handedOut x) cmt mem mem' := by
  intro (i : Nat) (hi : i < mem.length)
  refine ⟨Nat.lt_of_lt_of_le hi hlen, fun hne => ?_⟩
  show mem'.getD i Cmt.empty = mem.getD i Cmt.empty
  rw [List.getD_eq_getElem?_getD, List.getD_eq_getElem?_getD, h i hi hne]

theorem keptBut_append (mem : Mem) (c : Cmt) (cmt : Option Nat) :
    KeptBut (handedOut x) cmt mem (mem ++ [c] : Mem) := by
  refine keptBut_of_getElem? ?_ fun i hi _ => List.getElem?_append_left hi
  rw [List.length_append]
  omega

theorem keptBut_modify (mem : Mem) (j : Nat) (f : Cmt → Cmt) :
    KeptBut (handedOut x) (some j) mem (mem.modify j f : Mem) := by
  refine keptBut_of_getElem? (List.length_modify ..).ge fun i _ hne => ?_
  exact List.getElem?_modify_ne f mem fun h => hne (congrArg some h)

theorem getD_modify {mem : Mem} {i : Nat} (hi : i < mem.length) (f : Cmt → Cmt) :
    (mem.modify i f).getD i Cmt.empty = f (mem.getD i Cmt.empty) := by
  rw [List.getD_eq_getElem?_getD, List.getD_eq_getElem?_getD, List.getElem?_modify_eq,
    List.getElem?_eq_getElem hi]
  rfl

theorem new_append (mem : Mem) (c : Cmt) : ¬ handedOut x mem mem.length ∧
    handedOut x (mem ++ [c] : Mem) mem.length ∧ (reference x).cmt (mem ++ [c] : Mem) mem.length = c := by
  refine ⟨Nat.lt_irrefl mem.length, ?_, ?_⟩
  · show mem.length < (mem ++ [c]).length
    rw [List.length_append]
    exact Nat.lt_succ_self _
  · show (mem ++ [c]).getD mem.length Cmt.empty = c
    rw [List.getD_eq_getElem?_getD, List.getElem?_concat_length]
    rfl

theorem withMaps_maps (c : Cmt) (ms : List CmtMap) (k k' : Kind) :
    (withMaps c ms k).maps k' = if k' = k then ms else c.maps k' := by
  cases k <;> cases k' <;> rfl

theorem withMaps_staticLabels (c : Cmt) (ms : List CmtMap) (k : Kind) :
    (withMaps c ms k).staticLabels = c.staticLabels := by
  cases k <;> rfl

/-! #### Updates -/

theorem mem_store {L : List CStr} {v : Double} {ts : Nat} {xs : List CmtMetric} {y : CmtMetric}
    (h : y ∈ store L v ts xs) : y.labels = L.map some ∨ y ∈ xs := by
  induction xs with
  | nil =>
    rw [store, List.mem_singleton] at h
    exact .inl (congrArg CmtMetric.labels h)
  | cons z zs ih =>
    rw [store] at h
    split at h
    · rename_i hz
      rcases List.mem_cons.1 h with rfl | h
      · exact .inl hz
      · exact .inr (List.mem_cons_of_mem _ h)
    · rcases List.mem_cons.1 h with rfl | h
      · exact .inr (List.mem_cons_self ..)
      · exact (ih h).imp_right (List.mem_cons_of_mem _)

theorem mem_samples_put {map : CmtMap} {L : List CStr} {v : Double} {ts : Nat} {y : CmtMetric}
    (h : y ∈ (put map L v ts).samples) : y.labels = L.map some ∨ y ∈ map.samples := by
  by_cases hL : L = []
  · simp only [put, if_pos hL, CmtMap.samples, if_true, List.mem_cons] at h
    rcases h with rfl | h
    · left
      rw [hL]
      rfl
    · right
      unfold CmtMap.samples
      split
      · exact List.mem_cons_of_mem _ h
      · exact h
  · simp only [put, if_neg hL, CmtMap.samples] at h ⊢
    split at h
    · rename_i hset
      rw [if_pos hset]
      rcases List.mem_cons.1 h with rfl | h
      · exact .inr (List.mem_cons_self ..)
      · exact (mem_store h).imp_right (List.mem_cons_of_mem _)
    · rename_i hset
      rw [if_neg hset]
      exact mem_store h

theorem whole_put {map : CmtMap} {L : List CStr} {v : Double} {ts : Nat} (h : map.Whole)
    (hL : L.length ≤ map.labelKeys.length) : (put map L v ts).Whole := by
  have hopts : (put map L v ts).opts = map.opts := by
    unfold put
    split <;> rfl
  have hkeys : (put map L v ts).labelKeys = map.labelKeys := by
    unfold put
    split <;> rfl
  constructor
  case keys => rw [hkeys]; exact h.keys
  case values =>
    intro y hy
    rcases mem_samples_put hy with hy | hy
    · rw [hy]
      simp
    · exact h.values y hy
  case labels =>
    intro y hy
    rw [hkeys]
    rcases mem_samples_put hy with hy | hy
    · rw [hy, List.length_map]
      exact hL
    · exact h.labels y hy
  case ns => rw [hopts]; exact h.ns
  case subsystem => rw [hopts]; exact h.subsystem
  case name => rw [hopts]; exact h.name
  case description => rw [hopts]; exact h.description

theorem forall₂_set {α : Type} {R : α → α → Prop} (hR : ∀ a, R a a) {l : List α} {i : Nat} {a b : α}
    (ha : l[i]? = some a) (hab : R a b) : List.Forall₂ R l (l.set i b) := by
  induction l generalizing i with
  | nil => exact .nil
  | cons y ys ih =>
    cases i with
    | zero =>
      obtain rfl : y = a := Option.some.inj ha
      exact .cons hab (List.forall₂_same.2 fun _ _ => hR _)
    | succ i => exact .cons (hR y) (ih ha)

/-- An update stores one sample, for which the map has keys enough, or nothing. -/
theorem update_result (u : Update) (m : Handle) (ts : Nat) (L : List CStr) (mem : Mem) :
    (update u (some m) ts L mem).2 = mem ∨ ∃ map v, getMap mem u.kind m = some map ∧
      L.length ≤ map.labelKeys.length ∧
      (update u (some m) ts L mem).2 = setMap mem u.kind m (put map L v ts) := by
  unfold update
  rw [Option.bind_some]
  cases hmap : getMap mem u.kind m with
  | none => exact .inl rfl
  | some map =>
    by_cases hlen : map.labelKeys.length < L.length
    · left
      simp only [if_pos hlen]
    · simp only [if_neg hlen]
      cases result ((sample map L).getD 0) u with
      | none => exact .inl rfl
      | some v => exact .inr ⟨map, v, rfl, Nat.not_lt.1 hlen, rfl⟩

theorem updates_setMap {mem : Mem} {k : Kind} {m : Handle} {map map' : CmtMap}
    (hmap : getMap mem k m = some map) (h : map.Whole → map'.Whole) {i : Nat} (hi : i < mem.length) :
    i < (setMap mem k m map').length ∧
      (mem.getD i Cmt.empty).Updates ((setMap mem k m map').getD i Cmt.empty) := by
  obtain ⟨c, hc, hm⟩ := Option.bind_eq_some_iff.1 hmap
  unfold setMap
  rw [List.length_modify]
  refine ⟨hi, ?_⟩
  by_cases hctx : m.ctx = i
  · subst hctx
    have hget : mem.getD m.ctx Cmt.empty = c := by rw [List.getD_eq_getElem?_getD, hc]; rfl
    rw [getD_modify hi, hget]
    refine ⟨withMaps_staticLabels .., fun k' => ?_⟩
    rw [withMaps_maps]
    split
    · rename_i hk
      rw [hk]
      exact forall₂_set (fun _ h => h) hm h
    · exact List.forall₂_same.2 fun _ _ h => h
  · rw [List.getD_eq_getElem?_getD, List.getD_eq_getElem?_getD, List.getElem?_modify_ne _ _ hctx]
    exact .refl _

theorem metricCreate_result {mem : Mem} {c : Nat} (hc : c < mem.length) (k : Kind) (d : MetricDef) :
    metricCreate k (some c) d mem = (none, mem) ∨ ∃ (m : Handle) (map : CmtMap),
      map.opts = ⟨some d.ns, some d.subsystem, some d.name, some d.help⟩ ∧
      map.labelKeys = d.labels.map some ∧ map.samples = [] ∧ metricCreate k (some c) d mem =
        (some m, mem.modify c fun y => withMaps y (y.maps k ++ [map]) k) := by
  unfold metricCreate
  rw [Option.bind_some, List.getElem?_eq_getElem hc, Option.map_some]
  by_cases hd : d.name.bytes = [] ∨ d.help.bytes = []
  · left
    exact if_pos hd
  · right
    refine ⟨⟨c, (mem[c].maps k).length⟩, ⟨⟨some d.ns, some d.subsystem, some d.name, some d.help⟩,
      d.labels.map some, 0, ⟨0, 0, []⟩, []⟩, rfl, rfl, rfl, ?_⟩
    rw [List.modify_eq_set_get _ hc]
    exact if_neg hd

theorem metricCreate_spec {mem : Mem} {c : Nat} (hc : c < mem.length) (k : Kind) (d : MetricDef) :
    let r := metricCreate k (some c) d mem
    KeptBut (handedOut x) (some c) mem r.2 ∧
      (r.2.getD c Cmt.empty).staticLabels = (mem.getD c Cmt.empty).staticLabels ∧
      (∀ k', k' ≠ k → (r.2.getD c Cmt.empty).maps k' = (mem.getD c Cmt.empty).maps k') ∧
      (r.1 = none → (r.2.getD c Cmt.empty).maps k = (mem.getD c Cmt.empty).maps k) ∧
      (r.1 ≠ none → ∃ map : CmtMap, map.opts = ⟨some d.ns, some d.subsystem, some d.name, some d.help⟩ ∧
        map.labelKeys = d.labels.map some ∧ map.samples = [] ∧
        (r.2.getD c Cmt.empty).maps k = (mem.getD c Cmt.empty).maps k ++ [map]) := by
  rcases metricCreate_result hc k d with h | ⟨m, map, hopts, hkeys, hsamples, h⟩
  · rw [h]
    exact ⟨keptBut_self mem _, rfl, fun _ _ => rfl, fun _ => rfl, fun hne => absurd rfl hne⟩
  · rw [h]
    simp only [getD_modify hc, withMaps_staticLabels, withMaps_maps]
    refine ⟨keptBut_modify mem c _, trivial, fun k' hk' => if_neg hk', nofun, fun _ => ?_⟩
    exact ⟨map, hopts, hkeys, hsamples, if_pos trivial⟩

theorem update_spec {mem : Mem} {c : Nat} (hc : c < mem.length) (u : Update) (m : Handle) (ts : Nat)
    (L : List CStr) : let mem' := (update u (some m) ts L mem).2
    c < mem'.length ∧ (mem.getD c Cmt.empty).Updates (mem'.getD c Cmt.empty) := by
  rcases update_result u m ts L mem with h | ⟨map, v, hmap, hlen, h⟩
  · rw [h]
    exact ⟨hc, .refl _⟩
  · rw [h]
    exact updates_setMap hmap (fun hw => whole_put hw hlen) hc

theorem labelAdd_spec {mem : Mem} {c : Nat} (hc : c < mem.length) (key val : CStr) :
    let r := labelAdd (some c) key val mem
    KeptBut (handedOut x) (some c) mem r.2 ∧
      (∀ k, (r.2.getD c Cmt.empty).maps k = (mem.getD c Cmt.empty).maps k) ∧
      (r.2.getD c Cmt.empty).staticLabels =
        (mem.getD c Cmt.empty).staticLabels ++ if r.1 = 0 then [⟨some key, some val⟩] else [] := by
  simp only [labelAdd, getD_modify hc]
  exact ⟨keptBut_modify mem c _, fun k => by cases k <;> rfl, rfl⟩

theorem decode_spec (buf : Bytes) (length offset : Nat) (mem : Mem) :
    let r := decodeMsgpackCreate known buf length offset mem
    KeptBut (handedOut x) none mem r.2 ∧ ∀ c : Nat, r.1.ret = 0 → r.1.cmt = some c →
      ¬ c < mem.length ∧ c < r.2.length ∧ (r.2.getD c Cmt.empty).StaticWhole := by
  unfold decodeMsgpackCreate
  cases hd : decodeOf known ((buf.take length).drop offset) with
  | none => exact ⟨keptBut_self mem _, nofun⟩
  | some r =>
    obtain ⟨p, hp, -, hempty, -⟩ := (decodeOf_eq_some known_prefixFree).1 hd
    obtain rfl := List.mem_singleton.1 hp
    refine ⟨keptBut_append mem _ none, fun c _ hc => ?_⟩
    obtain rfl : mem.length = c := Option.some.inj hc
    obtain ⟨hfresh, hlive, hcmt⟩ := new_append (x := x) mem r.1
    refine ⟨hfresh, hlive, ?_⟩
    show Cmt.StaticWhole ((reference x).cmt (mem ++ [r.1] : Mem) mem.length)
    rw [hcmt, hempty]
    nofun

theorem cat_null {dst src : Option Nat} (h : dst = none ∨ src = none) (mem : Mem) :
    (cat dst src mem).1 ≠ 0 := by
  rcases h with rfl | rfl
  · simp [cat]
  · cases dst <;> simp [cat]

theorem cat_spec {mem : Mem} {d c : Nat} (hd : d < mem.length) (hc : c < mem.length) :
    let r := cat (some d) (some c) mem
    r.1 = 0 ∧ KeptBut (handedOut x) (some d) mem r.2 ∧
      (∀ k, (r.2.getD d Cmt.empty).maps k = (mem.getD d Cmt.empty).maps k ++ (mem.getD c Cmt.empty).maps k) ∧
      (r.2.getD d Cmt.empty).staticLabels = (mem.getD d Cmt.empty).staticLabels := by
  have hget : mem.getD c Cmt.empty = mem[c] := by
    rw [List.getD_eq_getElem?_getD, List.getElem?_eq_getElem hc]
    rfl
  simp only [cat, Option.bind_some, List.getElem?_eq_getElem hc, getD_modify hd, hget]
  exact ⟨trivial, keptBut_modify mem d _, fun k => by cases k <;> rfl, trivial⟩

theorem contexts (x : Bytes) : (reference x).Contexts (handedOut x) where
  init mem := keptBut_self mem none
  create mem := keptBut_append mem Cmt.empty none
  created := by
    intro mem c hc
    obtain rfl : List.length (α := Cmt) mem = c := Option.some.inj hc
    exact new_append mem Cmt.empty
  metricCreate hlive k d _ := metricCreate_spec hlive k d
  update hlive := update_spec hlive
  labelAdd hlive := labelAdd_spec hlive
  encode := keptBut_self _ _
  encodeDestroy := keptBut_self _ _
  encodeMsgpack := keptBut_self _ _
  decode buf length offset mem := (decode_spec buf length offset mem).1
  decoded buf length offset mem := (decode_spec (x := x) buf length offset mem).2
  catNull h := cat_null h _
  catFailed hd hc hret := absurd (cat_spec (x := x) hd hc).1 hret
  cat hd hc _ := by
    obtain ⟨-, hkept, hmaps, hstatic⟩ := cat_spec (x := x) hd hc
    refine ⟨hkept, hmaps, fun l hl => .inl ?_⟩
    exact hstatic ▸ hl

end Reference
end CmetricsRuby
