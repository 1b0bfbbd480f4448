import CmetricsRuby.Proofs.Packing

/-!
# What can be packed, and where to

`protobuf_c_message_check` looks for the pointers that packing would follow. The simple buffer grows by doubling,
and keeps one block at most.
-/

namespace CmetricsRuby
namespace ProtobufC

open Base128
open Memory (store)

/-! ### What `protobuf_c_message_check` is good for -/

theorem scalarsPack_of_typed {D : Descriptors} {t : FieldType} (ht : isPackableType t = true) {elts : List Elt}
    (h : eltsTyped D t elts = true) : ∃ x, scalarsPack t elts = some x := by
  induction elts with
  | nil => exact ⟨_, rfl⟩
  | cons e elts ih =>
    rw [eltsTyped, Bool.and_eq_true] at h
    obtain ⟨x, hx⟩ : ∃ x, scalarPack t e = some x := by
      cases e with
      | word32 v => exact Option.isSome_iff_exists.1 (by simpa [eltTyped] using h.1)
      | word64 v => exact Option.isSome_iff_exists.1 (by simpa [eltTyped] using h.1)
      | message p => cases p <;> simp_all [eltTyped, isPackableType]
      | _ => simp_all [eltTyped, isPackableType]
    obtain ⟨y, hy⟩ := ih h.2
    unfold scalarsPack at hy ⊢
    obtain ⟨ys, hys, -⟩ := Option.bind_eq_some_iff.1 hy
    refine ⟨x ++ ys.flatten, ?_⟩
    simp [List.mapM_cons, hx, hys]

/-- What is packed is checked, in a oneof too. -/
theorem singleCheck_of_set {D : Descriptors} {field : FieldDescriptor} {cases : List UInt32} {has : UInt32} {e : Elt}
    (hone : field.label ≠ .required ∨ field.oneof = none) (hset : fieldIsSet field cases has e = true)
    (hc : memberCheck D field cases (.single has e) = true) :
    singleCheck D field (quantifierWord field cases has) e = true := by
  rw [memberCheck, Bool.or_eq_true] at hc
  refine hc.resolve_left fun hun => ?_
  rcases hone with hone | hone
  · unfold unpopulated at hun
    rcases ho : field.oneof with _ | i
    · rw [ho] at hun
      cases hun
    · rw [ho] at hun
      have hne := of_decide_eq_true hun
      rcases hl : field.label <;> simp_all [fieldIsSet, oneofFieldIsSet]
  · rw [unpopulated, hone] at hun
    cases hun

/-- Bytes that are packed are there. -/
theorem data?_of_check {D : Descriptors} {field : FieldDescriptor} {cases : List UInt32} {has : UInt32} {b : BinaryData}
    (hseen : nullIsSeen field has (.bytes b) = true) (hset : fieldIsSet field cases has (.bytes b) = true)
    (htype : field.type = .bytes) (hc : singleCheck D field (quantifierWord field cases has) (.bytes b) = true) :
    ∃ x, b.data? = some x := by
  rcases b with len | x | x
  · refine ⟨[], if_pos ?_⟩
    by_contra hlen
    simp only [nullIsSeen, Bool.or_eq_true, Bool.and_eq_true, decide_eq_true_eq, hlen, false_or] at hseen
    simp only [singleCheck, quantifierWord, hseen.1, Bool.not_eq_true', Bool.and_eq_false_iff, Bool.or_eq_false_iff,
      decide_eq_false_iff_not] at hc
    rcases hc with hc | hc
    · rcases hseen.2 with hl | ⟨⟨hl, hq⟩, hhas⟩
      · exact hc.1 hl
      · have hnz : has ≠ 0 := by
          simpa [fieldIsSet, hl, hseen.1, optionalFieldIsSet, htype, FieldType.isPointer, quantifierWord, hq] using hset
        have hone : has = 1 := hhas.resolve_left hnz
        rw [if_pos hq] at hc
        exact hc.2 hone
    · omega
  · exact ⟨x, rfl⟩
  · exact ⟨x, rfl⟩

mutual

theorem records_of_check {D : Descriptors} : ∀ (m : Message), wellTyped D m = true → messageCheck D m = true →
    ∃ rs, records D m = some rs
  | .mk desc members cases unknown, ht, hc => by
    rw [wellTyped] at ht
    rw [messageCheck] at hc
    obtain ⟨rs, hrs⟩ := membersRecords_of_check cases (D desc).fields members ht hc
    exact ⟨_, by rw [records, hrs]; rfl⟩

theorem membersRecords_of_check {D : Descriptors} (cases : List UInt32) : ∀ (fields : List FieldDescriptor)
    (members : List Member), membersTyped D fields members = true → membersCheck D cases fields members = true →
    ∃ rs, membersRecords D cases fields members = some rs
  | [], members, _, _ => ⟨[], by rw [membersRecords]⟩
  | field :: fields, [], ht, _ => by
    simp [membersTyped] at ht
  | field :: fields, member :: members, ht, hc => by
    rw [membersTyped, Bool.and_eq_true] at ht
    rw [membersCheck, Bool.and_eq_true] at hc
    obtain ⟨r, hr⟩ := memberRecords_of_check cases field member ht.1 hc.1
    obtain ⟨rs, hrs⟩ := membersRecords_of_check cases fields members ht.2 hc.2
    exact ⟨_, by rw [membersRecords, hr, hrs]; rfl⟩

theorem memberRecords_of_check {D : Descriptors} (cases : List UInt32) (field : FieldDescriptor) : ∀ (member : Member),
    memberTyped D field member = true → memberCheck D field cases member = true →
    ∃ rs, memberRecords D cases field member = some rs
  | .single has e, ht, hc => by
    rw [memberTyped] at ht
    simp only [Bool.and_eq_true, Bool.or_eq_true, decide_eq_true_eq] at ht
    obtain ⟨⟨⟨hl, hone⟩, ht⟩, hseen⟩ := ht
    rw [memberRecords, if_neg hl]
    by_cases hset : fieldIsSet field cases has e = true
    · obtain ⟨x, hx⟩ := payload_of_check cases field has e ht hseen hset (singleCheck_of_set hone hset hc)
      exact ⟨_, by rw [if_pos hset, hx]; rfl⟩
    · exact ⟨[], if_neg hset⟩
  | .repeated elts, ht, hc => by
    rw [memberTyped] at ht
    simp only [Bool.and_eq_true, decide_eq_true_eq] at ht
    obtain ⟨⟨⟨hl, hone⟩, hpacked⟩, ht⟩ := ht
    rw [memberCheck, unpopulated, hone, Bool.false_or] at hc
    rw [memberRecords, if_neg (not_not.2 hl)]
    split_ifs with hp hempty
    · exact ⟨[], rfl⟩
    · obtain ⟨x, hx⟩ := scalarsPack_of_typed (by simpa [hp] using hpacked) ht
      exact ⟨_, by rw [hx]; rfl⟩
    · exact eltsRecords_of_check field elts ht hc

theorem payload_of_check {D : Descriptors} (cases : List UInt32) (field : FieldDescriptor) (has : UInt32) : ∀ (e : Elt),
    eltTyped D field.type e = true → nullIsSeen field has e = true → fieldIsSet field cases has e = true →
    singleCheck D field (quantifierWord field cases has) e = true → ∃ x, payload D field.type false e = some x
  | .word32 v, ht, _, _, _ => by
    rw [eltTyped] at ht
    rw [payload]
    exact Option.isSome_iff_exists.1 ht
  | .word64 v, ht, _, _, _ => by
    rw [eltTyped] at ht
    rw [payload]
    exact Option.isSome_iff_exists.1 ht
  | .string p, ht, _, _, _ => by
    rw [eltTyped, decide_eq_true_eq] at ht
    exact ⟨_, by rw [payload, if_pos ht]; rfl⟩
  | .bytes b, ht, hseen, hset, hc => by
    rw [eltTyped, decide_eq_true_eq] at ht
    obtain ⟨x, hx⟩ := data?_of_check hseen hset ht hc
    exact ⟨_, by rw [payload, if_pos ht, hx]; rfl⟩
  | .message none, ht, _, _, _ => by
    rw [eltTyped, decide_eq_true_eq] at ht
    exact ⟨_, by rw [payload, if_pos ht]; rfl⟩
  | .message (some m), ht, _, hset, hc => by
    rw [eltTyped, Bool.and_eq_true, decide_eq_true_eq] at ht
    rw [singleCheck] at hc
    obtain ⟨rs, hrs⟩ := records_of_check m ht.2 hc
    exact ⟨_, by rw [payload, if_pos ht.1, hrs]; rfl⟩

theorem eltPayload_of_check {D : Descriptors} (t : FieldType) : ∀ (e : Elt), eltTyped D t e = true →
    eltCheck D e = true → ∃ x, payload D t true e = some x
  | .word32 v, ht, _ => by
    rw [eltTyped] at ht
    rw [payload]
    exact Option.isSome_iff_exists.1 ht
  | .word64 v, ht, _ => by
    rw [eltTyped] at ht
    rw [payload]
    exact Option.isSome_iff_exists.1 ht
  | .string p, ht, hc => by
    rw [eltTyped, decide_eq_true_eq] at ht
    rw [eltCheck, decide_eq_true_eq] at hc
    exact ⟨_, by rw [payload, if_pos ht, if_neg (by simpa using hc)]⟩
  | .bytes b, ht, hc => by
    rw [eltTyped, decide_eq_true_eq] at ht
    obtain ⟨x, hx⟩ : ∃ x, b.data? = some x := by
      rcases b with len | x | x
      · rw [eltCheck, decide_eq_true_eq] at hc
        exact ⟨[], if_pos hc⟩
      · exact ⟨x, rfl⟩
      · exact ⟨x, rfl⟩
    exact ⟨_, by rw [payload, if_pos ht, hx]; rfl⟩
  | .message none, _, hc => by
    rw [eltCheck] at hc
    cases hc
  | .message (some m), ht, hc => by
    rw [eltTyped, Bool.and_eq_true, decide_eq_true_eq] at ht
    rw [eltCheck] at hc
    obtain ⟨rs, hrs⟩ := records_of_check m ht.2 hc
    exact ⟨_, by rw [payload, if_pos ht.1, hrs]; rfl⟩

theorem eltsRecords_of_check {D : Descriptors} (field : FieldDescriptor) : ∀ (elts : List Elt),
    eltsTyped D field.type elts = true → eltsCheck D elts = true → ∃ rs, eltsRecords D field elts = some rs
  | [], _, _ => ⟨[], by rw [eltsRecords]⟩
  | e :: elts, ht, hc => by
    rw [eltsTyped, Bool.and_eq_true] at ht
    rw [eltsCheck, Bool.and_eq_true] at hc
    obtain ⟨x, hx⟩ := eltPayload_of_check field.type e ht.1 hc.1
    obtain ⟨rs, hrs⟩ := eltsRecords_of_check field elts ht.2 hc.2
    exact ⟨_, by rw [eltsRecords, hx, hrs]; rfl⟩

end

/-! ### The simple buffer -/

/-- The doubling ends, short of twice what is asked for. -/
theorem growTo_eq {newLen newAlloced n : Nat} (hlen : newLen ≤ 2 ^ 63) (hlo : newLen ≤ newAlloced * 2 ^ n)
    (hhi : newAlloced < 2 * newLen) :
    ∃ c, growTo newLen (n + 1) newAlloced = some c ∧ newLen ≤ c ∧ c < 2 * newLen := by
  induction n generalizing newAlloced with
  | zero => exact ⟨newAlloced, by rw [growTo, if_neg (by omega)], by omega, hhi⟩
  | succ n ih =>
    rw [growTo]
    by_cases h : newAlloced < newLen
    · rw [if_pos h, ← Nat.mul_two, Nat.mod_eq_of_lt (by omega)]
      rw [Nat.pow_succ', ← Nat.mul_assoc] at hlo
      exact ih (by omega) (by omega)
    · exact ⟨newAlloced, if_neg h, by omega, hhi⟩

/-- `b` is what is in the buffer, which has room for it and one block at most. -/
structure BufferSimple.Holds (simp : BufferSimple) (b : Bytes) : Prop where
  len : simp.len = b.length
  room : simp.len ≤ simp.alloced
  some_room : 0 < simp.alloced
  contents : simp.data.read 0 simp.len = b
  blocks : simp.blocks = if simp.mustFreeData then 1 else 0

/-- A buffer whose `append` has not come back takes no more. -/
def appendSimple (malloc : Nat → Option (Memory UInt8)) (simp : Option BufferSimple) (data : Bytes) :
    Option BufferSimple := simp.bind (bufferSimpleAppend malloc · data)

def HoldsSimple (simp : Option BufferSimple) (b : Bytes) : Prop := ∃ buffer, simp = some buffer ∧ buffer.Holds b

theorem read_append {mem : Memory UInt8} {b x : Bytes} (h : mem.read 0 b.length = b) :
    (store mem b.length x).read 0 (b ++ x).length = b ++ x := by
  rw [List.length_append, Memory.read_add, Memory.read_store_of_le (by omega), h, Nat.zero_add, Memory.read_store]

theorem appends_simple {malloc : Nat → Option (Memory UInt8)} {limit : Nat} (hlimit : limit ≤ 2 ^ 63)
    (hmalloc : ∀ n < 2 * limit, (malloc n).isSome) : Appends HoldsSimple limit (appendSimple malloc) := by
  rintro _ b x ⟨simp, rfl, hb⟩ hlen
  have hnew : (b.length + x.length) % 2 ^ 64 = (b ++ x).length := by
    rw [List.length_append] at hlen ⊢
    omega
  have hcontents := hb.contents
  rw [hb.len] at hcontents
  show ∃ buffer, bufferSimpleAppend malloc simp x = some buffer ∧ _
  unfold bufferSimpleAppend
  simp only [hb.len, hnew]
  by_cases hroom : (b ++ x).length > simp.alloced
  · have hmod : simp.alloced * 2 % 2 ^ 64 = simp.alloced * 2 := Nat.mod_eq_of_lt (by omega)
    have hpos := hb.some_room
    obtain ⟨c, hgrow, hlo, hhi⟩ := growTo_eq (n := 64) (hlen.trans hlimit)
      (show (b ++ x).length ≤ simp.alloced * 2 * 2 ^ 64 by omega) (by omega)
    obtain ⟨newData, hdata⟩ := Option.isSome_iff_exists.1 (hmalloc c (by omega))
    simp only [if_pos hroom, hmod, hgrow, Option.bind_eq_bind, Option.bind_some, hdata]
    refine ⟨_, rfl, rfl, hlo, (hpos.trans hroom).trans_le hlo, ?_, ?_⟩
    · exact read_append ((Memory.read_memcpy ..).trans hcontents)
    · show simp.blocks + 1 - _ = 1
      rw [hb.blocks]
      exact Nat.add_sub_cancel_left ..
  · rw [if_neg hroom]
    exact ⟨_, rfl, rfl, Nat.le_of_not_lt hroom, hb.some_room, read_append hcontents, hb.blocks⟩

theorem holds_init {alloced : Nat} (hpos : 0 < alloced) (data : Memory UInt8) : (BufferSimple.init alloced data).Holds [] :=
  ⟨rfl, Nat.zero_le _, hpos, rfl, rfl⟩

/-! ### The three ways together -/

/-- A sample has a name, the times it was seen, packed, and the sample before it. -/
def sampleFields : List FieldDescriptor :=
  [⟨CStr.ofPtr [110], 1, .none, .string, false, none, false, 0, none⟩,
    ⟨CStr.ofPtr [116], 2, .repeated, .sint32, true, none, true, 0, none⟩,
    ⟨CStr.ofPtr [112], 16, .optional, .message, false, none, false, 0, none⟩]

def samples : Descriptors := fun _ => ⟨sampleFields, some [0, 2, 1], [⟨1, 0⟩, ⟨16, 2⟩, ⟨0, 3⟩], 0⟩

def firstSample : Message :=
  .mk 0 [.single 0 (.string (.heap [97, 98, 0])), .repeated [.word32 200, .word32 0], .single 0 (.message none)] [] []

/-- The second sample has the first one in it, and a field that is not known. -/
def secondSample : Message :=
  .mk 0 [.single 0 (.string .null), .repeated [], .single 0 (.message (some firstSample))] [] [⟨4, 0, [1]⟩]

def sampleRecords : List Record := [⟨1, 2, delimited [97, 98]⟩, ⟨2, 2, delimited [144, 3, 0]⟩]

def secondRecords : List Record := [⟨16, 2, delimited (bytesOf sampleRecords)⟩, ⟨4, 0, [1]⟩]

theorem records_secondSample : records samples secondSample = some secondRecords := rfl

theorem length_secondRecords : (bytesOf secondRecords).length = 14 := by
  simp [bytesOf, Record.bytes, length_header, length_delimited, getTagSize, encode_of_lt, sampleRecords, secondRecords]

/-- A message is as long as its size says, at any address and in a simple buffer alike. -/
theorem packed_everywhere {D : Descriptors} {m : Message} {rs : List Record} (h : records D m = some rs)
    (hlt : (bytesOf rs).length < 2 ^ 32) {malloc : Nat → Option (Memory UInt8)}
    (hmalloc : ∀ n < 2 ^ 33, (malloc n).isSome) {alloced : Nat} (hpos : 0 < alloced) (data : Memory UInt8) :
    messageGetPackedSize D m = some (bytesOf rs).length ∧
    (∀ out mem, messagePack D m out mem = some ((bytesOf rs).length, store mem out (bytesOf rs))) ∧
    ∃ simp : BufferSimple, messagePackToBuffer (appendSimple malloc) D m (some (.init alloced data)) =
      some ((bytesOf rs).length, some simp) ∧ simp.Holds (bytesOf rs) := by
  have hpacks := message_packs (appends_simple (show 2 ^ 32 ≤ 2 ^ 63 by omega) hmalloc) m h hlt
  refine ⟨hpacks.size, hpacks.writes, ?_⟩
  obtain ⟨_, hsends, simp, rfl, hholds⟩ := hpacks.sends _ [] ⟨_, rfl, holds_init hpos data⟩ (by simpa using hlt.le)
  exact ⟨simp, hsends, by simpa using hholds⟩

theorem packed_everywhere_secondSample : ∃ simp : BufferSimple,
    messagePackToBuffer (appendSimple fun _ => some fun _ => 0) samples secondSample (some (.init 1 fun _ => 0)) =
      some ((bytesOf secondRecords).length, some simp) ∧ simp.Holds (bytesOf secondRecords) :=
  (packed_everywhere records_secondSample (by rw [length_secondRecords]; omega) (fun _ _ => rfl) (by omega) _).2.2

theorem packs_records {D : Descriptors} {m : Message} {rs : List Record} (h : records D m = some rs)
    (hlt : (bytesOf rs).length < 2 ^ 32) : messageGetPackedSize D m = some (bytesOf rs).length ∧
      ∀ out mem, messagePack D m out mem = some ((bytesOf rs).length, store mem out (bytesOf rs)) := by
  have happend : Appends HoldsSimple (2 ^ 32) (appendSimple fun _ => some fun _ => 0) :=
    appends_simple (by omega) fun _ _ => rfl
  have hpacks := message_packs happend m h hlt
  exact ⟨hpacks.size, hpacks.writes⟩

/-- A message of the types of its fields that `protobuf_c_message_check` accepts is packed, whatever is in it. -/
theorem packed_of_check {D : Descriptors} {m : Message} (ht : wellTyped D m = true) (hc : messageCheck D m = true) :
    ∃ rs, records D m = some rs ∧ ((bytesOf rs).length < 2 ^ 32 →
      messageGetPackedSize D m = some (bytesOf rs).length ∧
        ∀ out mem, messagePack D m out mem = some ((bytesOf rs).length, store mem out (bytesOf rs))) := by
  obtain ⟨rs, hrs⟩ := records_of_check m ht hc
  exact ⟨rs, hrs, packs_records hrs⟩

theorem packed_of_check_secondSample : ∃ rs, records samples secondSample = some rs :=
  (packed_of_check (show wellTyped samples secondSample = true by decide) (by decide)).imp fun _ => And.left

end ProtobufC
end CmetricsRuby
