import CmetricsRuby.Proofs.Scanning
import CmetricsRuby.Proofs.Packing
import CmetricsRuby.ProtobufC.Normal

/-!
# Cutting what was packed

The bytes of records are cut by the scan into these records again, as long as their payloads are of their wire types
and there are not more of them than the slabs have room for.
-/

namespace CmetricsRuby
namespace ProtobufC

open Base128

/-! ### Bits of a byte -/

theorem and_128 : ∀ k < 256, k &&& 128 = 0 ↔ k < 128 := by decide +kernel

theorem and_248 : ∀ k < 256, k &&& 248 = 0 ↔ k < 8 := by decide +kernel

theorem and_0x80 {b : UInt8} : b &&& 0x80 = 0 ↔ b.toNat < 128 := by
  rw [← UInt8.toNat_inj, UInt8.toNat_and]
  exact and_128 b.toNat b.toNat_lt

theorem and_0xf8 {b : UInt8} : b &&& 0xf8 = 0 ↔ b.toNat < 8 := by
  rw [← UInt8.toNat_inj, UInt8.toNat_and]
  exact and_248 b.toNat b.toNat_lt

theorem and_7 (b : UInt8) : (b &&& 7).toNat = b.toNat % 8 := by
  rw [UInt8.toNat_and]
  exact Nat.and_two_pow_sub_one_eq_mod b.toNat 3

/-! ### Varints with something behind them -/

theorem findIdx?_take_append {x : Bytes} (h : Terminated x) {n : Nat} (hn : x.length ≤ n) (rest : Bytes) :
    ((x ++ rest).take n).findIdx? (· &&& 0x80 = 0) = some (x.length - 1) := by
  induction x, h using Terminated.induction generalizing n with
  | last b hb =>
    obtain ⟨n, rfl⟩ := Nat.exists_eq_succ_of_ne_zero (show n ≠ 0 by simp at hn; omega)
    simp [List.findIdx?_cons, and_0x80.2 hb]
  | more b x hb hx ih =>
    rw [List.length_cons] at hn
    obtain ⟨n, rfl⟩ := Nat.exists_eq_succ_of_ne_zero (show n ≠ 0 by omega)
    have hpos := hx.length_pos
    rw [List.cons_append, List.take_succ_cons, List.findIdx?_cons, if_neg (by simpa [and_0x80] using hb),
      ih (by omega), Option.map_some, List.length_cons]
    congr 1
    omega

theorem scanVarint_append {x : Bytes} (h : Terminated x) (hlen : x.length ≤ 10) (rest : Bytes) :
    scanVarint (x ++ rest) = some x.length := by
  have hpos := h.length_pos
  rw [scanVarint, findIdx?_take_append h hlen, Option.map_some, Nat.sub_add_cancel hpos]

theorem maxB128Numbers_append {x : Bytes} (h : Terminated x) (rest : Bytes) :
    maxB128Numbers (x ++ rest) = maxB128Numbers rest + 1 := by
  unfold maxB128Numbers
  induction x, h using Terminated.induction with
  | last b hb => simp [and_0x80.2 hb]
  | more b x hb hx ih => rw [List.cons_append, List.countP_cons_of_neg (by simpa [and_0x80] using hb), ih]

theorem or_digit {val shift : Nat} (hval : val < 2 ^ shift) (d : Nat) : val ||| (d <<< shift) = val + 2 ^ shift * d := by
  rw [Nat.shiftLeft_eq, Nat.mul_comm]
  exact or_mul hval (Nat.dvd_mul_right ..)

theorem prefixLoop_append {x : Bytes} (h : Terminated x) {n val shift hdrLen : Nat} (hn : x.length ≤ n)
    (hval : val < 2 ^ shift) (rest : Bytes) :
    prefixLoop val shift hdrLen ((x ++ rest).take n) = some (hdrLen + x.length, val + 2 ^ shift * value x) := by
  induction x, h using Terminated.induction generalizing n val shift hdrLen with
  | last b hb =>
    obtain ⟨n, rfl⟩ := Nat.exists_eq_succ_of_ne_zero (show n ≠ 0 by simp at hn; omega)
    rw [List.singleton_append, List.take_succ_cons, prefixLoop]
    simp [and_0x80.2 hb, or_digit hval, value]
  | more b x hb hx ih =>
    rw [List.length_cons] at hn
    obtain ⟨n, rfl⟩ := Nat.exists_eq_succ_of_ne_zero (show n ≠ 0 by omega)
    have hpow : 2 ^ (shift + 7) = 2 ^ shift * 128 := Nat.pow_add 2 shift 7
    have hlt : val + 2 ^ shift * (b.toNat % 128) < 2 ^ (shift + 7) := by
      have := Nat.mul_le_mul_left (2 ^ shift) (show b.toNat % 128 ≤ 127 by omega)
      omega
    have hsum : val + 2 ^ shift * (b.toNat % 128) + 2 ^ (shift + 7) * value x = val + 2 ^ shift * value (b :: x) := by
      rw [value, hpow]
      ring
    rw [List.cons_append, List.take_succ_cons, prefixLoop]
    simp only [and_0x80, or_digit hval, if_neg (show ¬ b.toNat < 128 by omega)]
    rw [ih (by omega) hlt, hsum, List.length_cons, Nat.add_right_comm, Nat.add_assoc]

theorem tagLoop_append {x : Bytes} (h : Terminated x) {n k rv : Nat} {tag : UInt32} (hn : x.length ≤ n)
    (hk : k + 7 * x.length ≤ 32) (htag : tag.toNat < 2 ^ k) (rest : Bytes) :
    tagLoop tag (.ofNat k) rv ((x ++ rest).take n) = .ok (rv + x.length, .ofNat (tag.toNat + 2 ^ k * value x)) := by
  induction x, h using Terminated.induction generalizing n k rv tag with
  | last b hb =>
    obtain ⟨n, rfl⟩ := Nat.exists_eq_succ_of_ne_zero (show n ≠ 0 by simp at hn; omega)
    have hlow : b.toUInt32 = low7 b := UInt32.toNat_inj.1 (by rw [toNat_low7, UInt8.toNat_toUInt32]; omega)
    have hor := or_low7 b (show k + 7 ≤ 32 by simpa using hk) htag
    have hlt := (tag ||| (low7 b <<< UInt32.ofNat k)).toNat_lt
    rw [hor] at hlt
    rw [List.singleton_append, List.take_succ_cons, tagLoop, if_neg (by simp [and_0x80.2 hb]), hlow]
    refine congrArg Except.ok (congrArg (Prod.mk _) (UInt32.toNat_inj.1 ?_))
    rw [hor, UInt32.toNat_ofNat', value, value, Nat.mul_zero, Nat.add_zero, Nat.mul_comm (2 ^ k), Nat.mod_eq_of_lt hlt]
  | more b x hb hx ih =>
    rw [List.length_cons] at hn hk
    obtain ⟨n, rfl⟩ := Nat.exists_eq_succ_of_ne_zero (show n ≠ 0 by omega)
    have hpow : 2 ^ (k + 7) = 2 ^ k * 128 := Nat.pow_add 2 k 7
    have hor := or_low7 b (show k + 7 ≤ 32 by omega) htag
    have hlt : (tag ||| (low7 b <<< UInt32.ofNat k)).toNat < 2 ^ (k + 7) := by
      have := Nat.mul_le_mul_right (2 ^ k) (show b.toNat % 128 ≤ 127 by omega)
      omega
    have hnext : UInt32.ofNat k + 7 = UInt32.ofNat (k + 7) := by
      rw [UInt32.ofNat_add]
      rfl
    have hsum : tag.toNat + b.toNat % 128 * 2 ^ k + 2 ^ (k + 7) * value x = tag.toNat + 2 ^ k * value (b :: x) := by
      rw [value, hpow]
      ring
    rw [List.cons_append, List.take_succ_cons, tagLoop, if_pos (by simpa [and_0x80] using hb), hnext,
      ih (by omega) (by omega) hlt, hor, hsum, List.length_cons, Nat.add_right_comm, Nat.add_assoc]

theorem toNat_or_wireType {n : Nat} (hn : n < 256) (h8 : 8 ∣ n) {wireType : UInt8} (hw : wireType.toNat < 8) :
    (UInt8.ofNat n ||| wireType).toNat = n + wireType.toNat := by
  rw [UInt8.toNat_or, UInt8.toNat_ofNat', Nat.mod_eq_of_lt hn, Nat.or_comm, Nat.add_comm]
  exact or_mul (k := 3) hw h8

/-- What is known of the first byte of a tag. -/
theorem first_byte {b wireType : UInt8} {n : Nat} (hb : b.toNat = n + wireType.toNat) (h8 : 8 ∣ n)
    (hw : wireType.toNat < 8) : b &&& 7 = wireType ∧ (low7 b >>> 3).toNat = n % 128 / 8 := by
  constructor
  · refine UInt8.toNat_inj.1 ?_
    rw [and_7, hb]
    omega
  · rw [show (low7 b >>> 3).toNat = (low7 b).toNat / 2 ^ 3 from toNat_shift (low7 b) 3 (by omega), toNat_low7, hb]
    omega

theorem parseTagAndWiretype_header {id : UInt32} (hid : id ≠ 0) {wireType : UInt8} (hw : wireType.toNat < 8)
    (rest : Bytes) :
    parseTagAndWiretype (header id wireType ++ rest) = .ok ((header id wireType).length, id, wireType) := by
  have hlt := id.toNat_lt
  have hpos : id.toNat ≠ 0 := fun h => hid (UInt32.toNat_inj.1 h)
  by_cases h : id.toNat * 8 < 128
  · have hb := toNat_or_wireType (show id.toNat * 8 < 256 by omega) (Nat.dvd_mul_left ..) hw
    obtain ⟨hseven, htag⟩ := first_byte hb (Nat.dvd_mul_left ..) hw
    have hid' : low7 (UInt8.ofNat (id.toNat * 8) ||| wireType) >>> 3 = id := by
      refine UInt32.toNat_inj.1 ?_
      rw [htag]
      omega
    rw [header, tagPack_eq, encode_of_lt h, orFirst, List.singleton_append, parseTagAndWiretype]
    simp only [and_0xf8, and_0x80, hseven, hid']
    rw [if_neg (by omega), if_pos (by omega)]
    rfl
  · have hb := toNat_or_wireType (show id.toNat * 8 % 128 + 128 < 256 by omega) (by omega) hw
    obtain ⟨hseven, htag⟩ := first_byte hb (by omega) hw
    have hlen : (encode (id.toNat * 8 / 128)).length ≤ 4 := length_encode_le_iff.2 (by omega)
    have hloop : tagLoop (low7 (UInt8.ofNat (id.toNat * 8 % 128 + 128) ||| wireType) >>> 3) (.ofNat 4) 1
        ((encode (id.toNat * 8 / 128) ++ rest).take 4) = _ :=
      tagLoop_append (terminated_encode _) hlen (by omega) (by rw [htag]; omega) rest
    rw [htag, value_encode] at hloop
    have hid' : UInt32.ofNat ((id.toNat * 8 % 128 + 128) % 128 / 8 + 2 ^ 4 * (id.toNat * 8 / 128)) = id := by
      refine UInt32.toNat_inj.1 ?_
      rw [UInt32.toNat_ofNat']
      omega
    rw [hid'] at hloop
    rw [header, tagPack_eq, encode_of_le (by omega), orFirst, List.cons_append, parseTagAndWiretype, more]
    simp only [and_0xf8, and_0x80, hseven]
    rw [if_neg (by omega), if_neg (by omega)]
    simp only [show (4 : UInt32) = UInt32.ofNat 4 from rfl, hloop]
    rw [List.length_cons, Nat.add_comm]
    rfl

/-! ### Records -/

/-- How many bytes of a payload are its length. -/
def prefixLen (wireType : UInt8) (x : Bytes) : Nat := if wireType = 2 then ((front x).getD []).length else 0

theorem prefixLen_delimited (y : Bytes) : prefixLen 2 (delimited y) = (encode y.length).length := by
  rw [prefixLen, if_pos rfl, delimited, front_append (terminated_encode _), Option.getD_some]

theorem scanLengthPrefixedData_delimited {y : Bytes} (hy : y.length < 2 ^ 31) (rest : Bytes) :
    scanLengthPrefixedData (delimited y ++ rest) = some ((delimited y).length, (encode y.length).length) := by
  have hlen : (encode y.length).length ≤ 5 := length_encode_le_iff.2 (by omega)
  have hloop : prefixLoop 0 0 0 ((encode y.length ++ (y ++ rest)).take 5) = _ :=
    prefixLoop_append (terminated_encode y.length) hlen (by omega) (y ++ rest)
  rw [value_encode, Nat.zero_add, Nat.zero_add, Nat.pow_zero, Nat.one_mul] at hloop
  rw [scanLengthPrefixedData, delimited, List.append_assoc, hloop]
  simp only [Option.bind_eq_bind, Option.bind_some, List.length_append]
  rw [if_neg (by omega), if_neg (by omega)]
  rfl

theorem scanData_payload {wireType : UInt8} {x : Bytes} (h : IsPayload wireType x) (hx : x.length < 2 ^ 31)
    (rest : Bytes) : scanData wireType (x ++ rest) = some (x.length, prefixLen wireType x) := by
  rcases h with ⟨rfl, hterm, hlen⟩ | ⟨rfl, hlen⟩ | ⟨y, rfl, rfl⟩ | ⟨rfl, hlen⟩
  · rw [scanData, scanVarint_append hterm hlen]
    rfl
  · rw [scanData, if_neg (by rw [List.length_append]; omega), hlen]
    rfl
  · rw [length_delimited] at hx
    rw [scanData, scanLengthPrefixedData_delimited (by omega), prefixLen_delimited]
  · rw [scanData, if_neg (by rw [List.length_append]; omega), hlen]
    rfl

theorem IsPayload.wireType_lt {wireType : UInt8} {x : Bytes} (h : IsPayload wireType x) : wireType.toNat < 8 := by
  rcases h with ⟨rfl, -, -⟩ | ⟨rfl, -⟩ | ⟨y, rfl, -⟩ | ⟨rfl, -⟩ <;> decide

theorem IsPayload.length_pos {wireType : UInt8} {x : Bytes} (h : IsPayload wireType x) : 0 < x.length := by
  rcases h with ⟨-, hterm, -⟩ | ⟨-, hlen⟩ | ⟨y, -, rfl⟩ | ⟨-, hlen⟩
  · exact hterm.length_pos
  · omega
  · have := length_encode_pos y.length
    rw [length_delimited]
    omega
  · omega

/-- The member that the scan makes of a record. -/
def Record.scanned (desc : MessageDescriptor) (r : Record) : ScannedMember :=
  ⟨r.tag, r.wireType, prefixLen r.wireType r.payload, intRangeLookup desc.fieldRanges (toInt r.tag), r.payload⟩

/-- A record that the scan takes; an array of numbers in it can be counted. -/
structure Record.Cut (desc : MessageDescriptor) (r : Record) : Prop where
  tag : r.tag ≠ 0
  payload : IsPayload r.wireType r.payload
  length : r.payload.length < 2 ^ 31
  count : ∀ i field, (r.scanned desc).field = some i → desc.fields[i]? = some field → field.label = .repeated →
    ∃ n, memberCount field (r.scanned desc) = some n

theorem lookupField_eq {desc : MessageDescriptor} (hd : desc.Indexed) (last : Nat) (tag : UInt32) :
    lookupField desc last tag = intRangeLookup desc.fieldRanges (toInt tag) := by
  unfold lookupField
  split_ifs with hlast
  · obtain ⟨field, hfield, hid⟩ := (Option.any_eq_true _ _).1 hlast
    refine (hd.lookup_eq_some_iff.2 ?_).symm
    rw [List.getElem?_map, hfield, Option.map_some, of_decide_eq_true hid]
  · rfl

/-- The slabs before the one in use are full. -/
structure Scan.Slots (scan : Scan) : Prop where
  filled : scan.members.length + 16 = 16 * 2 ^ scan.whichSlab + scan.inSlabIndex
  room : scan.inSlabIndex ≤ 2 ^ (scan.whichSlab + 4)
  slabs : scan.whichSlab ≤ maxScannedMemberSlab

/-- How many members there is room for. -/
def maxMembers : Nat := 2 ^ 27 - 16

theorem Scan.Slots.next {scan : Scan} (h : scan.Slots) (hfew : scan.members.length < maxMembers) :
    ∃ whichSlab inSlabIndex, nextSlot scan.whichSlab scan.inSlabIndex = some (whichSlab, inSlabIndex) ∧
      scan.members.length + 1 + 16 = 16 * 2 ^ whichSlab + (inSlabIndex + 1) ∧
      inSlabIndex + 1 ≤ 2 ^ (whichSlab + 4) ∧ whichSlab ≤ maxScannedMemberSlab := by
  obtain ⟨hfilled, hroom, hslabs⟩ := h
  have hpow : ∀ w, 2 ^ (w + 4) = 16 * 2 ^ w := fun w => by rw [Nat.pow_add]; omega
  have hone := Nat.one_le_two_pow (n := scan.whichSlab)
  rw [hpow] at hroom
  unfold nextSlot maxScannedMemberSlab at *
  rw [maxMembers] at hfew
  rw [hpow]
  split_ifs with hfull hlast
  · rw [hlast] at hfilled hfull
    omega
  · refine ⟨scan.whichSlab + 1, 0, rfl, ?_, ?_, by omega⟩
    · rw [Nat.pow_succ]
      omega
    · rw [hpow, Nat.pow_succ]
      omega
  · exact ⟨_, _, rfl, by omega, by rw [hpow]; omega, hslabs⟩

/-- A record of a required field. -/
def Record.Requires (desc : MessageDescriptor) (r : Record) (i : Nat) : Prop :=
  ∃ field, (r.scanned desc).field = some i ∧ desc.fields[i]? = some field ∧ field.label = .required

/-- What the tally of a record does to what the scan keeps. -/
theorem tally_record {desc : MessageDescriptor} (hd : desc.Indexed) (scan : Scan) {r : Record} (hr : r.Cut desc) :
    ∃ scan', scan.tally desc (r.scanned desc) = .ok scan' ∧ scan'.members = scan.members ∧
      ∀ i, i ∈ scan.required ∨ r.Requires desc i → i ∈ scan'.required := by
  unfold Scan.tally
  rcases hf : (r.scanned desc).field with _ | i
  · refine ⟨_, rfl, rfl, fun i hi => hi.resolve_right ?_⟩
    rintro ⟨field, hi, -⟩
    cases hf.symm.trans hi
  · obtain ⟨field, hfield, -⟩ := lookupField_some hd ((lookupField_eq hd 0 r.tag).trans hf)
    have hother : ∀ {scan' : Scan}, scan'.required = scan.required → field.label ≠ .required → ∀ j,
        j ∈ scan.required ∨ r.Requires desc j → j ∈ scan'.required := by
      rintro scan' hreq hl j (hj | ⟨field', hj, hfield', hl'⟩)
      · exact hreq ▸ hj
      · cases hf.symm.trans hj
        cases hfield.symm.trans hfield'
        exact absurd hl' hl
    simp only [hfield]
    split
    · refine ⟨_, rfl, rfl, ?_⟩
      rintro j (hj | ⟨field', hj, -⟩)
      · exact List.mem_cons_of_mem _ hj
      · cases hf.symm.trans hj
        exact List.mem_cons_self ..
    · rename_i hl
      obtain ⟨n, hn⟩ := hr.count i field hf hfield hl
      rw [hn]
      exact ⟨_, rfl, rfl, hother rfl (by rw [hl]; decide)⟩
    · rename_i hl _
      exact ⟨_, rfl, rfl, hother rfl hl⟩

theorem turn_record {desc : MessageDescriptor} (hd : desc.Indexed) {scan : Scan} (hslots : scan.Slots)
    (hfew : scan.members.length < maxMembers) {r : Record} (hr : r.Cut desc) (rest : Bytes) :
    ∃ scan', scan.turn desc (r.bytes ++ rest) = .ok (scan', rest) ∧ scan'.Slots ∧
      scan'.members = scan.members ++ [r.scanned desc] ∧
      ∀ i, i ∈ scan.required ∨ r.Requires desc i → i ∈ scan'.required := by
  obtain ⟨whichSlab, inSlabIndex, hnext, hfilled, hroom, hslabs⟩ := hslots.next hfew
  obtain ⟨scan', htally, hmembers, hrequired⟩ := tally_record hd scan hr
  refine ⟨{ scan' with
    members := scan'.members ++ [r.scanned desc], whichSlab := whichSlab, inSlabIndex := inSlabIndex + 1 },
    ?_, ⟨?_, hroom, hslabs⟩, by rw [hmembers], hrequired⟩
  · have htag := parseTagAndWiretype_header hr.tag hr.payload.wireType_lt (r.payload ++ rest)
    have hdata := scanData_payload hr.payload hr.length rest
    unfold Scan.turn
    rw [Record.bytes, List.append_assoc, htag]
    simp only [bind, Except.bind, List.drop_left', hdata, orFail, lookupField_eq hd, hnext, List.take_left']
    rw [show (⟨r.tag, r.wireType, prefixLen r.wireType r.payload, intRangeLookup desc.fieldRanges (toInt r.tag),
      r.payload⟩ : ScannedMember) = r.scanned desc from rfl, htally]
    rfl
  · rw [hmembers, List.length_append, List.length_singleton]
    exact hfilled

theorem loop_records {desc : MessageDescriptor} (hd : desc.Indexed) {rs : List Record} (hrs : ∀ r ∈ rs, r.Cut desc)
    {scan : Scan} (hslots : scan.Slots) (hfew : scan.members.length + rs.length ≤ maxMembers) {fuel : Nat}
    (hfuel : (bytesOf rs).length ≤ fuel) :
    ∃ scan', Scan.loop desc fuel scan (bytesOf rs) = .ok scan' ∧
      scan'.members = scan.members ++ rs.map (Record.scanned desc) ∧
      ∀ i, i ∈ scan.required ∨ (∃ r ∈ rs, r.Requires desc i) → i ∈ scan'.required := by
  induction rs generalizing scan fuel with
  | nil =>
    refine ⟨scan, ?_, (List.append_nil _).symm, fun i hi => hi.resolve_right ?_⟩
    · rw [show bytesOf [] = [] from rfl]
      cases fuel <;> rw [Scan.loop]
    · rintro ⟨r, hr, -⟩
      exact List.not_mem_nil hr
  | cons r rs ih =>
    have hr := hrs r (List.mem_cons_self ..)
    have hbytes : bytesOf (r :: rs) = r.bytes ++ bytesOf rs := List.flatMap_cons
    have hpos : 0 < r.bytes.length := by
      have := hr.payload.length_pos
      rw [Record.bytes, List.length_append]
      omega
    rw [List.length_cons] at hfew
    rw [hbytes, List.length_append] at hfuel
    obtain ⟨fuel, rfl⟩ := Nat.exists_eq_succ_of_ne_zero (show fuel ≠ 0 by omega)
    obtain ⟨scan₁, hturn, hslots₁, hmembers₁, hrequired₁⟩ := turn_record hd hslots (by omega) hr (bytesOf rs)
    obtain ⟨scan', hloop, hmembers, hrequired⟩ := ih (fun r hr => hrs r (List.mem_cons_of_mem _ hr)) hslots₁
      (by rw [hmembers₁, List.length_append, List.length_singleton]; omega) (show (bytesOf rs).length ≤ fuel by omega)
    refine ⟨scan', ?_, ?_, ?_⟩
    · obtain ⟨b, l, hb⟩ : ∃ b l, r.bytes ++ bytesOf rs = b :: l :=
        List.exists_cons_of_ne_nil fun h => by simp [(List.append_eq_nil_iff.1 h).1] at hpos
      rw [hbytes, hb, Scan.loop, ← hb, hturn]
      exact hloop
    · rw [hmembers, hmembers₁, List.append_assoc, List.map_cons]
      rfl
    · rintro i (hi | ⟨r', hr', hi⟩)
      · exact hrequired i (.inl (hrequired₁ i (.inl hi)))
      · rcases List.mem_cons.1 hr' with rfl | hr'
        · exact hrequired i (.inl (hrequired₁ i (.inr hi)))
        · exact hrequired i (.inr ⟨r', hr', hi⟩)

end ProtobufC
end CmetricsRuby
