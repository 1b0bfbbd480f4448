import CmetricsRuby.Cursor

/-!
# A reference library

A small library that keeps its contexts in a list and does what is assumed of the real one. It shows
that the assumptions can be met, and concrete runs are evaluated over it. Its decoder knows the records
of a table, here one record only, the msgpack form of a context with nothing in it; its encoders hand out
the bytes they are given in advance.
-/

namespace CmetricsRuby
namespace Reference

abbrev Mem := List Cmt

/-- A metric is known by its context and its place in the list of its kind. -/
structure Handle where
  ctx : Nat
  index : Nat
deriving DecidableEq

/-! ### Maps and samples -/

def withMaps (c : Cmt) (ms : List CmtMap) : Kind → Cmt
  | .counter => { c with counters := ms }
  | .gauge => { c with gauges := ms }
  | .untyped => { c with untypeds := ms }

def find (L : List CStr) : List CmtMetric → Option Double
  | [] => none
  | x :: xs => if x.labels = L.map some then some x.val else find L xs

def store (L : List CStr) (v : Double) (ts : Nat) : List CmtMetric → List CmtMetric
  | [] => [⟨v, ts, L.map some⟩]
  | x :: xs => if x.labels = L.map some then ⟨v, ts, x.labels⟩ :: xs else x :: store L v ts xs

def sample (map : CmtMap) (L : List CStr) : Option Double :=
  if L = [] then if map.metricStaticSet = 1 then some map.metric.val else none
  else find L map.metrics

def put (map : CmtMap) (L : List CStr) (v : Double) (ts : Nat) : CmtMap :=
  if L = [] then { map with metricStaticSet := 1, metric := ⟨v, ts, []⟩ }
  else { map with metrics := store L v ts map.metrics }

variable {map : CmtMap} {L L' : List CStr} {v : Double} {ts : Nat} {xs : List CmtMetric}

theorem map_some_inj (h : L.map some = L'.map some) : L = L' :=
  (List.map_inj_right fun _ _ => Option.some.inj).1 h

theorem find_store_self : find L (store L v ts xs) = some v := by
  induction xs with
  | nil => simp [store, find]
  | cons x xs ih =>
    by_cases h : x.labels = L.map some
    · simp [store, find, h]
    · simp [store, find, h, ih]

theorem find_store_of_ne (hne : L ≠ L') : find L' (store L v ts xs) = find L' xs := by
  have hne' : L.map some ≠ L'.map some := fun h => hne (map_some_inj h)
  induction xs with
  | nil => simp [store, find, hne']
  | cons x xs ih =>
    by_cases h : x.labels = L.map some
    · simp [store, find, h, hne']
    · simp [store, find, h, ih]

theorem sample_put_self : sample (put map L v ts) L = some v := by
  by_cases h : L = []
  · simp [sample, put, h]
  · simp [sample, put, h, find_store_self]

theorem sample_put_of_ne (hne : L ≠ L') : sample (put map L v ts) L' = sample map L' := by
  by_cases h : L = []
  · subst h
    simp [sample, put, hne.symm]
  · by_cases h' : L' = []
    · simp [sample, put, h, h']
    · simp [sample, put, h, h', find_store_of_ne hne]

/-! ### The memory -/

def getMap (mem : Mem) (k : Kind) (m : Handle) : Option CmtMap :=
  (mem[m.ctx]?).bind fun c => (c.maps k)[m.index]?

def setMap (mem : Mem) (k : Kind) (m : Handle) (map : CmtMap) : Mem :=
  mem.modify m.ctx fun c => withMaps c ((c.maps k).set m.index map) k

theorem maps_withMaps (c : Cmt) (ms : List CmtMap) (k : Kind) : (withMaps c ms k).maps k = ms := by
  cases k <;> rfl

theorem getMap_setMap {mem : Mem} {k : Kind} {m : Handle} {old : CmtMap}
    (h : getMap mem k m = some old) (map : CmtMap) : getMap (setMap mem k m map) k m = some map := by
  obtain ⟨c, hc, hm⟩ := Option.bind_eq_some_iff.1 h
  have hlt : m.index < (c.maps k).length := (List.getElem?_eq_some_iff.1 hm).1
  simp [getMap, setMap, hc, maps_withMaps, hlt]

def result (x : Double) (u : Update) : Option Double := if u.fits x then some (u.target .exact x) else none

def update (u : Update) (m : Option Handle) (ts : Nat) (L : List CStr) (mem : Mem) : Int × Mem :=
  match m.bind (getMap mem u.kind) with
  | none => (-1, mem)
  | some map =>
    if map.labelKeys.length < L.length then (-1, mem)
    else
      match result ((sample map L).getD 0) u with
      | none => (-1, mem)
      | some v => (0, setMap mem u.kind (m.getD ⟨0, 0⟩) (put map L v ts))

def getVal (k : Kind) (m : Option Handle) (L : List CStr) (mem : Mem) : Int × Double :=
  match (m.bind (getMap mem k)).bind (sample · L) with
  | none => (-1, 0)
  | some v => (0, v)

theorem update_cases (u : Update) (m : Handle) (ts : Nat) (L : List CStr) (mem : Mem) :
    (∃ map v, getMap mem u.kind m = some map ∧ result ((sample map L).getD 0) u = some v ∧
      update u (some m) ts L mem = (0, setMap mem u.kind m (put map L v ts))) ∨
    update u (some m) ts L mem = (-1, mem) := by
  unfold update
  rw [Option.bind_some]
  cases hmap : getMap mem u.kind m with
  | none => exact .inr rfl
  | some map =>
    by_cases hlen : map.labelKeys.length < L.length
    · exact .inr (if_pos hlen)
    · simp only [if_neg hlen]
      cases hv : result ((sample map L).getD 0) u with
      | none => exact .inr rfl
      | some v => exact .inl ⟨map, v, rfl, hv, rfl⟩

theorem update_failed {u : Update} {m : Handle} {ts : Nat} {mem : Mem}
    (h : (update u (some m) ts L mem).1 ≠ 0) : (update u (some m) ts L mem).2 = mem := by
  rcases update_cases u m ts L mem with ⟨map, v, -, -, hu⟩ | hu
  · rw [hu] at h
    exact absurd rfl h
  · rw [hu]

theorem getVal_update_of_ne (u : Update) (m : Handle) (ts : Nat) (mem : Mem) (hne : L ≠ L') :
    getVal u.kind (some m) L' (update u (some m) ts L mem).2 = getVal u.kind (some m) L' mem := by
  rcases update_cases u m ts L mem with ⟨map, v, hmap, -, hu⟩ | hu
  · have hmap' := getMap_setMap hmap (put map L v ts)
    rw [hu]
    unfold getVal
    rw [Option.bind_some, Option.bind_some, hmap', hmap, Option.bind_some, Option.bind_some,
      sample_put_of_ne hne]
  · rw [hu]

def metricCreate (k : Kind) (cmt : Option Nat) (d : MetricDef) (mem : Mem) : Option Handle × Mem :=
  match cmt.bind fun c => (mem[c]?).map (c, ·) with
  | none => (none, mem)
  | some (c, x) =>
    if d.name.bytes = [] ∨ d.help.bytes = [] then (none, mem)
    else (some ⟨c, (x.maps k).length⟩, mem.set c (withMaps x (x.maps k ++
      [⟨⟨some d.ns, some d.subsystem, some d.name, some d.help⟩, d.labels.map some, 0, ⟨0, 0, []⟩, []⟩]) k))

theorem metricCreate_failed {k : Kind} {cmt : Option Nat} {d : MetricDef} {mem : Mem}
    (h : (metricCreate k cmt d mem).1 = none) : (metricCreate k cmt d mem).2 = mem := by
  unfold metricCreate at *
  split
  · rfl
  · rename_i c x hx
    simp only [hx] at h
    split
    · rfl
    · rename_i hd
      rw [if_neg hd] at h
      cases h

def labelAdd (cmt : Option Nat) (key val : CStr) (mem : Mem) : Int × Mem :=
  match cmt with
  | none => (-1, mem)
  | some c =>
    (0, mem.modify c fun x => { x with staticLabels := x.staticLabels ++ [⟨some key, some val⟩] })

theorem getMap_labelAdd (cmt : Option Nat) (key val : CStr) (mem : Mem) (k : Kind) (m : Handle) :
    getMap (labelAdd cmt key val mem).2 k m = getMap mem k m := by
  cases cmt with
  | none => rfl
  | some c =>
    unfold getMap labelAdd
    by_cases h : c = m.ctx
    · cases hmem : mem[m.ctx]? with
      | none => simp [h, hmem]
      | some x => cases k <;> simp [h, hmem, Cmt.maps]
    · simp [h]

def cat (dst src : Option Nat) (mem : Mem) : Int × Mem :=
  match dst, src.bind fun s => mem[s]? with
  | some d, some y => (0, mem.modify d fun x =>
      { x with counters := x.counters ++ y.counters, gauges := x.gauges ++ y.gauges,
               untypeds := x.untypeds ++ y.untypeds })
  | _, _ => (-1, mem)

/-! ### The decoder -/

/-- `{"meta" => {"cmetrics" => {}, "external" => {}, "processing" => {"static_labels" => []}},
"metrics" => []}` -/
def wire : Bytes :=
  [0x82, 0xa4, 0x6d, 0x65, 0x74, 0x61, 0x83,
   0xa8, 0x63, 0x6d, 0x65, 0x74, 0x72, 0x69, 0x63, 0x73, 0x80,
   0xa8, 0x65, 0x78, 0x74, 0x65, 0x72, 0x6e, 0x61, 0x6c, 0x80,
   0xaa, 0x70, 0x72, 0x6f, 0x63, 0x65, 0x73, 0x73, 0x69, 0x6e, 0x67, 0x81,
   0xad, 0x73, 0x74, 0x61, 0x74, 0x69, 0x63, 0x5f, 0x6c, 0x61, 0x62, 0x65, 0x6c, 0x73, 0x90,
   0xa7, 0x6d, 0x65, 0x74, 0x72, 0x69, 0x63, 0x73, 0x90]

theorem length_wire : wire.length = 63 := rfl

def enc (_ : Cmt) : Bytes := wire

/-- A decoder that knows the records of a table, each as its bytes. -/
def decodeOf (table : List (Bytes × Cmt)) (s : Bytes) : Option (Cmt × Nat) :=
  (table.find? fun p => p.1.isPrefixOf s).map fun p => (p.2, p.1.length)

/-- No record is empty or the front of another one. -/
def PrefixFree (table : List (Bytes × Cmt)) : Prop :=
  ∀ p ∈ table, p.1 ≠ [] ∧ ∀ q ∈ table, p.1 <+: q.1 → p = q

instance (table : List (Bytes × Cmt)) : Decidable (PrefixFree table) :=
  inferInstanceAs (Decidable (∀ p ∈ table, p.1 ≠ [] ∧ ∀ q ∈ table, p.1 <+: q.1 → p = q))

theorem decodeOf_eq_some {table : List (Bytes × Cmt)} (hfree : PrefixFree table) {s : Bytes} {b : Cmt} {k : Nat} :
    decodeOf table s = some (b, k) ↔ ∃ p ∈ table, p.1 <+: s ∧ b = p.2 ∧ k = p.1.length := by
  unfold decodeOf
  constructor
  · intro h
    obtain ⟨p, hp, heq⟩ := Option.map_eq_some_iff.1 h
    cases heq
    have hps := List.find?_some hp
    exact ⟨p, List.mem_of_find?_eq_some hp, List.isPrefixOf_iff_prefix.1 hps, rfl, rfl⟩
  · rintro ⟨p, hp, hps, rfl, rfl⟩
    cases hq : table.find? fun p => p.1.isPrefixOf s with
    | none => exact absurd (List.isPrefixOf_iff_prefix.2 hps) (List.find?_eq_none.1 hq p hp)
    | some q =>
      -- both are fronts of `s`, so one is the front of the other
      have hqs := List.find?_some hq
      have hqt := List.mem_of_find?_eq_some hq
      obtain rfl : p = q := by
        rcases List.prefix_or_prefix_of_prefix hps (List.isPrefixOf_iff_prefix.1 hqs) with h | h
        · exact (hfree p hp).2 q hqt h
        · exact ((hfree q hqt).2 p hp h).symm
      rfl

def decoderOf {table : List (Bytes × Cmt)} (hfree : PrefixFree table) : PrefixDecoder UInt8 Cmt where
  decode := decodeOf table
  pos h := by
    obtain ⟨p, hp, -, -, rfl⟩ := (decodeOf_eq_some hfree).1 h
    exact List.length_pos_iff.2 (hfree p hp).1
  le h := by
    obtain ⟨p, -, hps, -, rfl⟩ := (decodeOf_eq_some hfree).1 h
    exact hps.length_le
  stable h x := by
    obtain ⟨p, hp, ⟨t, rfl⟩, hb, rfl⟩ := (decodeOf_eq_some hfree).1 h
    rw [List.take_left]
    exact (decodeOf_eq_some hfree).2 ⟨p, hp, ⟨x, rfl⟩, hb, rfl⟩

theorem decodeOf_append {table : List (Bytes × Cmt)} (hfree : PrefixFree table) {p : Bytes × Cmt} (hp : p ∈ table)
    (x : Bytes) : decodeOf table (p.1 ++ x) = some (p.2, p.1.length) :=
  (decodeOf_eq_some hfree).2 ⟨p, hp, ⟨x, rfl⟩, rfl, rfl⟩

def known : List (Bytes × Cmt) := [(wire, .empty)]

theorem known_prefixFree : PrefixFree known := by decide

def decoder : PrefixDecoder UInt8 Cmt := decoderOf known_prefixFree

theorem frames_empty : decoder.Frames enc Cmt.empty :=
  decodeOf_append known_prefixFree (List.mem_singleton_self (wire, Cmt.empty))

/-- A failing call leaves its offset at the end of the window. -/
def decodeMsgpackCreate (table : List (Bytes × Cmt)) (buf : Bytes) (length offset : Nat) (mem : Mem) :
    Decoded Nat × Mem :=
  match decodeOf table ((buf.take length).drop offset) with
  | none => (⟨-1, none, length⟩, mem)
  | some (c, k) => (⟨0, some mem.length, offset + k⟩, mem ++ [c])

variable {table : List (Bytes × Cmt)} {buf : Bytes} {length offset : Nat}

theorem decodeMsgpackCreate_some {k : Nat} {c : Cmt} (mem : Mem)
    (h : decodeOf table ((buf.take length).drop offset) = some (c, k)) :
    let r := decodeMsgpackCreate table buf length offset mem
    r.1.ret = 0 ∧ r.1.offset = offset + k ∧ ∃ ctx, r.1.cmt = some ctx ∧ r.2.getD ctx Cmt.empty = c := by
  simp [decodeMsgpackCreate, h]

theorem decodeMsgpackCreate_none (mem : Mem) (h : decodeOf table ((buf.take length).drop offset) = none) :
    (decodeMsgpackCreate table buf length offset mem).1.ret ≠ 0 := by
  simp [decodeMsgpackCreate, h]

theorem decodeMsgpackCreate_failed {mem : Mem} (h : (decodeMsgpackCreate table buf length offset mem).1.ret ≠ 0) :
    (decodeMsgpackCreate table buf length offset mem).2 = mem := by
  unfold decodeMsgpackCreate at *
  split
  · rfl
  · rename_i heq
    simp only [heq] at h
    exact absurd rfl h

end Reference

/-- A number that is no Float, not rounded. -/
def Reference.exactDouble : Value → Double
  | .fixnum n => .finite n.val
  | .bignum n => .finite n
  | .rational x => .finite x
  | _ => .nan

open Reference in
/-- The reference library whose encoders hand out `x`. -/
def reference (x : Bytes) : Library where
  Mem := Mem
  Ctx := Nat
  Metric := Handle
  Buf := Unit
  cmtInitialize mem := mem
  cmtCreate mem := (some mem.length, mem ++ [Cmt.empty])
  cmtDestroy _ mem := mem
  cmtMetricCreate := metricCreate
  cmtMetricDestroy _ _ mem := mem
  cmtUpdate u m ts _ L mem := update u m ts L mem
  cmtGetVal k m _ L mem := getVal k m L mem
  cmtLabelAdd := labelAdd
  cmtEncode _ cmt mem := (cmt.map fun _ => ⟨(), x⟩, mem)
  cmtEncodeDestroy _ _ mem := mem
  cmtEncodeMsgpackCreate cmt mem := ((if cmt.isSome then 0 else -1, ⟨(), x⟩), mem)
  cmtDecodeMsgpackCreate := decodeMsgpackCreate known
  cmtCat := cat
  cflTimeNow _ := 0
  cmt mem c := mem.getD c Cmt.empty
  rbUint2big _ := 0x7f0000000000
  rbNum2dbl := exactDouble
  seconds ts := .finite (ts / 1000000000)

namespace Reference

def ctx {x : Bytes} (n : Nat) : (reference x).Ctx := n

def metric {x : Bytes} : (reference x).Metric := (⟨0, 0⟩ : Handle)

/-- A world with the objects `objs`, numbered from 0 on, before any library call. -/
def start {E : Type} (x : Bytes) (env : E) (objs : List (Obj (reference x))) : World (reference x) E where
  heap id := objs.getD id .free
  mem := ([] : Mem)
  log := []
  env := env

def newSerde {E : Type} (x : Bytes) (env : E) : World (reference x) E :=
  stateOf ((Serde.rbInit 0).run (start x env [.serde ⟨none, 0⟩]))

/-- A world with one metric, made and created with the label `a`, under the name `name`. -/
def newMetric (k : Kind) (name : Bytes) : World (reference []) Unit :=
  let w := stateOf ((Metric.rbInit k 0).run (start [] () [.metric k ⟨none, none⟩]))
  stateOf ((Metric.create k [.string [], .string [], .string name, .string [0x68], .string [0x61]] 0).run w)

@[simp] theorem newSerde_env {E : Type} (x : Bytes) (env : E) : (newSerde x env).env = env := rfl

@[simp] theorem newSerde_heap {E : Type} (x : Bytes) (env : E) :
    (newSerde x env).heap 0 = .serde ⟨none, 0⟩ := rfl

theorem decodes (x : Bytes) : (reference x).Decodes decoder.toDecoder where
  fail mem _ _ h := decodeMsgpackCreate_none mem h
  succeed mem _ _ h := decodeMsgpackCreate_some mem h

theorem keepsDecoded (x : Bytes) : (reference x).KeepsDecoded fun _ _ => True where
  fail buf length offset mem hret ctx _ := by
    refine ⟨trivial, ?_⟩
    show (decodeMsgpackCreate known buf length offset mem).2.getD ctx .empty = mem.getD ctx .empty
    rw [decodeMsgpackCreate_failed hret]
  succeed _ _ _ _ _ _ _ := trivial

end Reference
end CmetricsRuby
