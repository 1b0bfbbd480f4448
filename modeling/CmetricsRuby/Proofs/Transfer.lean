import CmetricsRuby.Proofs.Metrics
import CmetricsRuby.Contexts
import CmetricsRuby.Cursor

/-!
# From one program to another

`packAll` is `ids.inject("") { |s, x| s + x.to_msgpack }`. What it makes, in whatever program, `feed_each` takes
apart again in another: the Serde is at the contexts of the objects, one after the other, and `metrics` shows them.
-/

namespace CmetricsRuby

section
variable {lib : Library} {E F : Type} {d : Decoder UInt8 Cmt} {w w' : World lib E}
  {v : World lib F} {id rx : ObjId} {ids : List ObjId} {b : Bytes}

/-- What the encoder makes of a context with `c` in it is decoded as `c`, whatever follows it. -/
def Library.RoundTrips (lib : Library) (d : Decoder UInt8 Cmt) (c : Cmt) : Prop :=
  ∀ mem ctx, lib.cmt mem ctx = c → let r := lib.cmtEncodeMsgpackCreate (some ctx) mem
    r.1.1 = 0 → ∀ x, d.decode (r.1.2.bytes ++ x) = some (c, r.1.2.bytes.length)

/-- The encoder only reads the contexts. -/
def Library.EncodeKeeps (lib : Library) : Prop := ∀ (mem : lib.Mem) (cmt : Option lib.Ctx) (ctx : lib.Ctx),
  lib.cmt (lib.cmtEncodeMsgpackCreate cmt mem).2 ctx = lib.cmt mem ctx

/-- `to_msgpack` of an object, by its class. -/
def toMsgpack (id : ObjId) : M lib E Value := fun w =>
  match w.heap id with
  | .metric k _ => (Metric.send k id .toMsgpack).run w
  | .serde _ => (Serde.send id (.exporter .toMsgpack)).run w
  | .free => noMethod.run w

def packAll : List ObjId → M lib E Bytes
  | [] => pure []
  | id :: ids => do
    match ← toMsgpack id with
    | .string b => return b ++ (← packAll ids)
    | _ => liftM (rbRaise (α := Bytes) .typeError "no implicit conversion into String")

theorem run_toMsgpack {ctx : lib.Ctx} (hctx : (w.heap id).ctx = some ctx) :
    (toMsgpack id).run w = (exportMsgpack (some ctx)).run w := by
  cases ho : w.heap id with
  | free =>
    rw [ho] at hctx
    cases hctx
  | serde s =>
    rw [ho] at hctx
    have hrun : (toMsgpack id).run w = (Serde.toMsgpack id).run w := by
      simp only [toMsgpack, EStateM.run, ho]
      rfl
    rw [hrun, Serde.toMsgpack, EStateM.run_bind, Serde.run_checkContext ho hctx]
  | metric k s =>
    rw [ho] at hctx
    have hrun : (toMsgpack id).run w = (Metric.toMsgpack k id).run w := by
      simp only [toMsgpack, EStateM.run, ho]
      cases k <;> rfl
    rw [hrun, Metric.toMsgpack, EStateM.run_bind, run_metricStruct ho]
    exact congrArg (fun c => (exportMsgpack c).run w) hctx

/-- The object has a context, and `c` is in it. -/
def World.Has (w : World lib E) (id : ObjId) (c : Cmt) : Prop :=
  ∃ ctx, (w.heap id).ctx = some ctx ∧ lib.cmt w.mem ctx = c

/-- Where it goes through, the String is made of one record for each object, with what its context holds. -/
theorem packAll_ok (henc : lib.EncodeKeeps) {cs : List Cmt} (hround : ∀ c ∈ cs, lib.RoundTrips d c)
    (hcs : List.Forall₂ w.Has ids cs) (h : (packAll ids).run w = .ok b w') :
    ∃ ps : List (Bytes × Cmt), b = ps.flatMap Prod.fst ∧ ps.map Prod.snd = cs ∧
      ∀ p ∈ ps, ∀ x, d.decode (p.1 ++ x) = some (p.2, p.1.length) := by
  induction ids generalizing w b cs with
  | nil =>
    cases hcs
    cases h
    exact ⟨[], rfl, rfl, nofun⟩
  | cons id ids ih =>
    obtain ⟨c, cs, hc, htail, rfl⟩ := List.forall₂_cons_left_iff.1 hcs
    obtain ⟨hroundc, hround⟩ := List.forall_mem_cons.1 hround
    obtain ⟨ctx, hctx, hc⟩ := hc
    rw [packAll, EStateM.run_bind, run_toMsgpack hctx, run_exportMsgpack] at h
    by_cases hret : (lib.cmtEncodeMsgpackCreate (some ctx) w.mem).1.1 = 0
    · simp only [if_pos hret, EStateM.run_bind] at h
      let w₁ := w.called (.encodeMsgpack (some ctx) (lib.cmtEncodeMsgpackCreate (some ctx) w.mem).1.1
        (lib.cmtEncodeMsgpackCreate (some ctx) w.mem).1.2.ptr) (lib.cmtEncodeMsgpackCreate (some ctx) w.mem).2
      have hcs' : List.Forall₂ w₁.Has ids cs := by
        refine htail.imp fun j c' hc' => ?_
        obtain ⟨ctx', hctx', hc'⟩ := hc'
        exact ⟨ctx', hctx', (henc w.mem (some ctx) ctx').trans hc'⟩
      cases hrest : (packAll ids).run w₁ with
      | error e w₂ =>
        rw [hrest] at h
        cases h
      | ok b' w₂ =>
        rw [hrest] at h
        cases h
        obtain ⟨ps, rfl, rfl, hps⟩ := ih hround hcs' hrest
        refine ⟨((lib.cmtEncodeMsgpackCreate (some ctx) w.mem).1.2.bytes, c) :: ps, rfl, rfl, ?_⟩
        exact List.forall_mem_cons.2 ⟨hroundc w.mem ctx hc hret, hps⟩
    · simp only [if_neg hret] at h
      cases h

theorem metrics_of_shows {c : Cmt} {offset : Nat} (h : v.shows rx = atRecord (c, offset)) :
    outcomeOf ((Serde.getMetrics rx).run v) = formatContext lib.seconds c := by
  unfold World.shows atRecord at h
  split at h
  · rename_i s hs
    simp only [Option.some.injEq, Prod.mk.injEq, Option.map_eq_some_iff] at h
    obtain ⟨⟨ctx, hctx, rfl⟩, -⟩ := h
    rw [Serde.run_getMetrics hs hctx]
    cases formatContext lib.seconds (lib.cmt v.mem ctx) <;> rfl
  · cases h

/-- A String that one program packs, read by `feed_each` in another, with a block that returns each time and
leaves the String alone: at its `i`-th call the Serde has what the `i`-th object had, and `metrics` shows it. -/
theorem feedEach_packAll (hlib : lib.Decodes d) (henc : lib.EncodeKeeps) {cs : List Cmt}
    (hround : ∀ c ∈ cs, lib.RoundTrips d c) (hcs : List.Forall₂ w.Has ids cs)
    (hpack : (packAll ids).run w = .ok b w') {s : CMetricsSerde lib} (hrx : v.heap rx = .serde s)
    (bytes : F → Bytes) (hb : bytes v.env = b) (block : Block lib F) {fuel : Nat} (hfuel : b.length < fuel) :
    let r := Serde.feedEach fuel rx (.string bytes) (some block) v
    (∀ v₁ ∈ r.yields, ∃ v₂, block.run v₁ = .ok () v₂ ∧ bytes v₂.env = bytes v₁.env) →
    (∃ v', r.result = .ok .nil v') ∧ List.Forall₂ (fun c v₁ => ∃ offset, v₁.shows rx = atRecord (c, offset) ∧
      outcomeOf ((Serde.getMetrics rx).run v₁) = formatContext lib.seconds c) cs r.yields := by
  intro r hblock
  obtain ⟨ps, rfl, rfl, hps⟩ := packAll_ok henc hround hcs hpack
  obtain ⟨-, hshows, v', hend, -⟩ := Serde.feedEach_returns hlib hrx (by rwa [hb]) hblock
  have hrecords := d.records_written hps d.decode_nil
  rw [List.append_nil] at hrecords
  rw [hb, hrecords, ← List.forall₂_eq_eq_eq, List.forall₂_map_left_iff, List.forall₂_map_right_iff] at hshows
  refine ⟨⟨v', hend⟩, ?_⟩
  rw [← @Decoder.map_fst_written _ _ 0 ps, List.forall₂_map_left_iff]
  exact hshows.flip.imp fun x v₁ hx => ⟨x.2, hx, metrics_of_shows hx⟩

end

/-! ### Two gauges -/

open Reference (wire decodeMsgpackCreate decodeMsgpackCreate_some decodeMsgpackCreate_none decodeOf_append)

def fixstr (s : String) : Bytes := UInt8.ofNat (0xa0 + s.length) :: rbLit s

/-- The record of a context with one gauge in it, which has no labels; `double` is its value. -/
def gaugeRecord (name : UInt8) (double : Bytes) : Bytes :=
  wire.dropLast ++ [0x91, 0x82] ++ fixstr "meta" ++ [0x84] ++ fixstr "ver" ++ [2] ++ fixstr "type" ++ [1] ++
    fixstr "opts" ++ [0x84] ++ fixstr "ns" ++ [0xa0] ++ fixstr "ss" ++ [0xa0] ++ fixstr "name" ++ [0xa1, name] ++
    fixstr "desc" ++ [0xa1, 0x68] ++ fixstr "labels" ++ [0x90] ++ fixstr "values" ++ [0x91, 0x83] ++
    fixstr "ts" ++ [0] ++ fixstr "value" ++ [0xcb] ++ double ++ fixstr "hash" ++ [0]

def gaugeContext (name : UInt8) (v : Double) : Cmt :=
  let str : Bytes → Option CStr := fun b => some (CStr.ofPtr b)
  ⟨[], [], [⟨⟨str [], str [], str [name], str [0x68]⟩, [], 1, ⟨v, 0, []⟩, []⟩], []⟩

def gaugeRecords : List (Bytes × Cmt) :=
  [(gaugeRecord 0x61 [0x3f, 0xf0, 0, 0, 0, 0, 0, 0], gaugeContext 0x61 1),
    (gaugeRecord 0x62 [0x40, 0, 0, 0, 0, 0, 0, 0], gaugeContext 0x62 2)]

def encodeGauge (cmt : Option Nat) (mem : Reference.Mem) : (Int × Sds Unit) × Reference.Mem :=
  match cmt.bind fun c => gaugeRecords.find? fun p => p.2 = mem.getD c .empty with
  | some p => ((0, ⟨(), p.1⟩), mem)
  | none => ((-1, ⟨(), []⟩), mem)

/-- The reference library with a coder that knows two records. -/
def gaugeLibrary : Library :=
  { reference [] with
    cmtEncodeMsgpackCreate := encodeGauge
    cmtDecodeMsgpackCreate := decodeMsgpackCreate gaugeRecords }

theorem encodeGauge_ok {mem : Reference.Mem} {c : Nat} (h : (encodeGauge (some c) mem).1.1 = 0) :
    ∃ p ∈ gaugeRecords, p.2 = mem.getD c .empty ∧ (encodeGauge (some c) mem).1.2.bytes = p.1 := by
  unfold encodeGauge at *
  rw [Option.bind_some] at *
  cases hp : gaugeRecords.find? fun p => p.2 = mem.getD c .empty with
  | some p =>
    have hc := List.find?_some hp
    exact ⟨p, List.mem_of_find?_eq_some hp, of_decide_eq_true hc, rfl⟩
  | none =>
    rw [hp] at h
    cases h

theorem gauges_prefixFree : Reference.PrefixFree gaugeRecords := by decide

def gaugeDecoder : Decoder UInt8 Cmt := (Reference.decoderOf gauges_prefixFree).toDecoder

theorem decodes_gauges : gaugeLibrary.Decodes gaugeDecoder where
  fail mem _ _ h := decodeMsgpackCreate_none mem h
  succeed mem _ _ h := decodeMsgpackCreate_some mem h

theorem encodeKeeps_gauges : gaugeLibrary.EncodeKeeps := by
  intro mem cmt ctx
  show (encodeGauge cmt mem).2.getD ctx .empty = List.getD mem ctx .empty
  unfold encodeGauge
  split <;> rfl

theorem roundTrips_gauges (c : Cmt) : gaugeLibrary.RoundTrips gaugeDecoder c := by
  rintro mem ctx rfl _ hret x
  obtain ⟨p, hp, hc, hbytes⟩ := encodeGauge_ok hret
  show gaugeDecoder.decode ((encodeGauge (some ctx) mem).1.2.bytes ++ x) =
    some (mem.getD ctx .empty, (encodeGauge (some ctx) mem).1.2.bytes.length)
  rw [hbytes, ← hc]
  exact decodeOf_append gauges_prefixFree hp x

/-- A Gauge object and a Serde, with a gauge in the context of each. -/
def sender : World gaugeLibrary Unit where
  heap id := [.metric .gauge ⟨some (0 : Nat), some (⟨0, 0⟩ : Reference.Handle)⟩, .serde ⟨some (1 : Nat), 5⟩].getD id .free
  mem := (gaugeRecords.map Prod.snd : List Cmt)
  log := []
  env := ()

def receiver (b : Bytes) : World gaugeLibrary Bytes where
  heap id := [.serde ⟨none, 0⟩].getD id .free
  mem := ([] : List Cmt)
  log := []
  env := b

/-- The Serde is packed first and then the Gauge; they are read with a block that frees another object. -/
theorem feedEach_packAll_gauges : ∃ b w', (packAll [1, 0]).run sender = .ok b w' ∧ ∃ i j,
    (Serde.feedEach (b.length + 1) 0 (.string fun s => s) (some (putObj 1 .free)) (receiver b)).yields.map
      (·.shows 0) = [some (some (gaugeContext 0x62 2), i), some (some (gaugeContext 0x61 1), j)] := by
  have hcs : List.Forall₂ sender.Has [1, 0] [gaugeContext 0x62 2, gaugeContext 0x61 1] :=
    .cons ⟨(1 : Nat), rfl, rfl⟩ (.cons ⟨(0 : Nat), rfl, rfl⟩ .nil)
  obtain ⟨b, w', hpack⟩ : ∃ b w', (packAll [1, 0]).run sender = .ok b w' := ⟨_, _, rfl⟩
  refine ⟨b, w', hpack, ?_⟩
  have hrx : (receiver b).heap 0 = .serde ⟨none, 0⟩ := rfl
  obtain ⟨-, h⟩ := feedEach_packAll decodes_gauges encodeKeeps_gauges (fun c _ => roundTrips_gauges c) hcs hpack
    hrx (fun s => s) rfl (putObj 1 .free) (Nat.lt_succ_self _) fun v₁ _ => ⟨_, rfl, rfl⟩
  generalize (Serde.feedEach (b.length + 1) 0 (.string fun s => s) (some (putObj 1 .free)) (receiver b)).yields =
    yields at h
  cases h with
  | cons hfirst h =>
    cases h with
    | cons hsecond h =>
      cases h
      obtain ⟨i, hi, -⟩ := hfirst
      obtain ⟨j, hj, -⟩ := hsecond
      exact ⟨i, j, congrArg₂ (fun x y => [x, y]) hi hj⟩

end CmetricsRuby
