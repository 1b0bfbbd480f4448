import CmetricsRuby.Proofs.Parsing
import CmetricsRuby.Proofs.Cutting

/-!
# Reading elements back

Each number is read back from the bytes it was packed to, in an array too, and so is every other element, if the
messages inside are.
-/

namespace CmetricsRuby
namespace ProtobufC

open Base128

variable {D : Descriptors} {t : FieldType} {e : Elt} {elts : List Elt} {x : Bytes} {field : FieldDescriptor}

/-! ### Numbers -/

theorem parseUint32_encode (n : Nat) : parseUint32 (encode n) = .ok (.ofNat n) := by
  rw [parseUint32_eq (encode_ne_nil n), value_encode]

theorem parseUint64_encode (v : UInt64) : parseUint64 (encode v.toNat) = .ok v := by
  have hlen : (encode v.toNat).length ≤ 10 := length_encode_le_iff.2 (by have := v.toNat_lt; omega)
  rw [parseUint64_eq (encode_ne_nil _) hlen, value_encode, UInt64.ofNat_toNat]

theorem parseFixedUint32_pack (v : UInt32) : parseFixedUint32 (fixed32Pack v) = .ok v := by
  simpa using parseFixedUint32_fixed32Pack v []

theorem parseFixedUint64_pack (v : UInt64) : parseFixedUint64 (fixed64Pack v) = .ok v := by
  simpa using parseFixedUint64_fixed64Pack v []

theorem scalarParse_scalarPack (D : Descriptors) (h : scalarPack t e = some x) :
    scalarParse t x = .ok (normalElt D t e) := by
  rcases e with v | v | p | b | p
  · have hword : t ≠ .bool → normalElt D t (.word32 v) = .word32 v := fun ht => by simp [normalElt, ht]
    rcases t <;> rcases h
    · rw [hword (by decide), scalarParse, parseInt32, int32Pack_eq, parseUint32_encode, ofNat_extend]
      rfl
    · rw [hword (by decide), scalarParse, sint32Pack_eq, parseUint32_encode, UInt32.ofNat_toNat]
      exact congrArg (fun v => Except.ok (Elt.word32 v)) (unzigzag32_zigzag32 v)
    · rw [hword (by decide), scalarParse, parseFixedUint32_pack]
      rfl
    · rw [hword (by decide), scalarParse, uint32Pack_eq, parseUint32_encode, UInt32.ofNat_toNat]
      rfl
    · rw [hword (by decide), scalarParse, parseFixedUint32_pack]
      rfl
    · rw [hword (by decide), scalarParse, parseFixedUint32_pack]
      rfl
    · rw [scalarParse, parseBoolean_booleanPack, normalElt]
      by_cases hv : v = 0 <;> simp [hv]
    · rw [hword (by decide), scalarParse, parseInt32, int32Pack_eq, parseUint32_encode, ofNat_extend]
      rfl
  · rw [normalElt]
    rcases t <;> rcases h
    · rw [scalarParse, uint64Pack_eq, parseUint64_encode]
      rfl
    · rw [scalarParse, sint64Pack_eq, parseUint64_encode]
      exact congrArg (fun v => Except.ok (Elt.word64 v)) (unzigzag64_zigzag64 v)
    · rw [scalarParse, parseFixedUint64_pack]
      rfl
    · rw [scalarParse, uint64Pack_eq, parseUint64_encode]
      rfl
    · rw [scalarParse, parseFixedUint64_pack]
      rfl
    · rw [scalarParse, parseFixedUint64_pack]
      rfl
  · cases h
  · cases h
  · cases h

theorem packable_of_scalar (h : scalarPack t e = some x) : isPackableType t = true := by
  rcases e with v | v | p | b | p
  · rcases t <;> first | rfl | cases h
  · rcases t <;> first | rfl | cases h
  · cases h
  · cases h
  · cases h

theorem isPayload_of_scalar (h : scalarPack t e = some x) : IsPayload t.wireType x := by
  rcases scalarShape h with ⟨hw, -, hterm, hlen⟩ | ⟨hw, -, hlen⟩ | ⟨hw, -, hlen⟩
  · exact .varint hw hterm hlen
  · exact .word32 hw hlen
  · exact .word64 hw hlen

/-! ### Packed arrays -/

theorem pushElt_of_room {cap : Nat} {acc : List Elt} (h : acc.length < cap) (e : Elt) :
    pushElt cap acc e = .ok (acc ++ [e]) := if_pos h

theorem append_normalElts (acc : List Elt) (e : Elt) (elts : List Elt) :
    acc ++ [normalElt D t e] ++ normalElts D t elts = acc ++ normalElts D t (e :: elts) := by
  rw [normalElts, List.append_assoc]
  rfl

/-- Every number of the type is a varint. -/
theorem terminated_of_scalar (hw : t.wireType = 0) (h : scalarPack t e = some x) : Terminated x ∧ x.length ≤ 10 := by
  rcases scalarShape h with ⟨-, -, hterm, hlen⟩ | ⟨hw', -, -⟩ | ⟨hw', -, -⟩
  · exact ⟨hterm, hlen⟩
  · exact absurd (hw.symm.trans hw') (by decide)
  · exact absurd (hw.symm.trans hw') (by decide)

theorem packedVarints_scalars (D : Descriptors) (hw : t.wireType = 0) (h : scalarsPack t elts = some x) {cap fuel : Nat}
    {acc : List Elt} (hcap : acc.length + elts.length ≤ cap) (hfuel : x.length ≤ fuel) :
    packedVarints t cap fuel acc x = .ok (acc ++ normalElts D t elts) := by
  induction elts generalizing x fuel acc with
  | nil =>
    cases h
    rw [normalElts, List.append_nil]
    cases fuel <;> exact packedVarints.eq_1 ..
  | cons e elts ih =>
    obtain ⟨y, z, hy, hz, rfl⟩ := scalarsPack_cons h
    obtain ⟨hterm, hlen⟩ := terminated_of_scalar hw hy
    have hpos := hterm.length_pos
    rw [List.length_append] at hfuel
    rw [List.length_cons] at hcap
    obtain ⟨fuel, rfl⟩ := Nat.exists_eq_succ_of_ne_zero (show fuel ≠ 0 by omega)
    obtain ⟨b, l, hb⟩ : ∃ b l, y ++ z = b :: l :=
      List.exists_cons_of_ne_nil fun hnil => by simp [(List.append_eq_nil_iff.1 hnil).1] at hpos
    rw [hb, packedVarints, ← hb, scanVarint_append hterm hlen]
    simp only [orFail, bind, Except.bind, List.take_left', List.drop_left', scalarParse_scalarPack D hy,
      pushElt_of_room (show acc.length < cap by omega)]
    rw [ih hz (by rw [List.length_append, List.length_singleton]; omega) (by omega), append_normalElts]

theorem packedWords_scalars (D : Descriptors) {size : Nat}
    (hsize : ∀ {e x}, scalarPack t e = some x → x.length = size) (h : scalarsPack t elts = some x) {cap : Nat}
    {acc : List Elt} (hcap : acc.length + elts.length ≤ cap) :
    packedWords t size cap elts.length acc x = .ok (acc ++ normalElts D t elts) ∧ x.length = elts.length * size := by
  induction elts generalizing x acc with
  | nil =>
    cases h
    rw [normalElts, List.append_nil]
    exact ⟨rfl, by simp⟩
  | cons e elts ih =>
    obtain ⟨y, z, hy, hz, rfl⟩ := scalarsPack_cons h
    have hlen := hsize hy
    rw [List.length_cons] at hcap
    have hroom : (acc ++ [normalElt D t e]).length + elts.length ≤ cap := by
      rw [List.length_append, List.length_singleton]
      omega
    obtain ⟨hrest, hlenz⟩ := ih hz hroom
    constructor
    · rw [List.length_cons, packedWords, List.take_left' hlen, scalarParse_scalarPack D hy]
      simp only [bind, Except.bind, pushElt_of_room (show acc.length < cap by omega), List.drop_left' hlen]
      rw [hrest, append_normalElts]
    · rw [List.length_append, List.length_cons, Nat.succ_mul, hlen, hlenz, Nat.add_comm]

theorem maxB128Numbers_scalars (hw : t.wireType = 0) (h : scalarsPack t elts = some x) :
    maxB128Numbers x = elts.length := by
  induction elts generalizing x with
  | nil =>
    cases h
    rfl
  | cons e elts ih =>
    obtain ⟨y, z, hy, hz, rfl⟩ := scalarsPack_cons h
    rw [maxB128Numbers_append (terminated_of_scalar hw hy).1, ih hz, List.length_cons]

theorem length_scalarsPack_bool (h : scalarsPack .bool elts = some x) : x.length = elts.length := by
  induction elts generalizing x with
  | nil =>
    cases h
    rfl
  | cons e elts ih =>
    obtain ⟨y, z, hy, hz, rfl⟩ := scalarsPack_cons h
    have hone : y.length = 1 := by
      rcases e with v | v | p | b | p <;> cases hy
      rfl
    rw [List.length_append, hone, ih hz, List.length_cons, Nat.add_comm]

theorem length_of_fixed (hw : t.wireType ≠ 0) (h : scalarPack t e = some x) : x.length = getTypeMinSize t := by
  rcases scalarShape h with ⟨hw', -, -, -⟩ | ⟨-, hmin, hlen⟩ | ⟨-, hmin, hlen⟩
  · exact absurd hw' hw
  · rw [hmin, hlen]
  · rw [hmin, hlen]

/-- An array comes back, and as many elements are counted as it has. -/
theorem parsePacked_scalars (D : Descriptors) (ht : isPackableType t = true) {s : ScannedMember}
    (h : scalarsPack t elts = some s.payload) {cap : Nat} {acc : List Elt} (hcap : acc.length + elts.length ≤ cap) :
    countPackedElements t s.payload = some elts.length ∧
      parsePackedRepeatedMember t cap acc s = .ok (acc ++ normalElts D t elts) := by
  have hvar : t.wireType = 0 → packedVarints t cap s.payload.length acc s.payload = .ok (acc ++ normalElts D t elts) :=
    fun hw => packedVarints_scalars D hw h hcap le_rfl
  have hwords : t.wireType ≠ 0 → (if s.payload.length % getTypeMinSize t ≠ 0 then none
      else some (s.payload.length / getTypeMinSize t)) = some elts.length ∧
        packedWords t (getTypeMinSize t) cap (s.payload.length / getTypeMinSize t) acc s.payload =
          .ok (acc ++ normalElts D t elts) := fun hw => by
    have hpos : 0 < getTypeMinSize t := by rcases t <;> decide
    obtain ⟨hparse, hlen⟩ := packedWords_scalars D (length_of_fixed hw) h hcap
    rw [hlen, Nat.mul_div_cancel _ hpos, if_neg (by simp)]
    exact ⟨rfl, hparse⟩
  rcases t <;>
    first
    | exact ⟨congrArg some (maxB128Numbers_scalars rfl h), hvar rfl⟩
    | exact hwords (by decide)
    | exact ⟨congrArg some (length_scalarsPack_bool h), hvar rfl⟩
    | cases ht

/-! ### One element -/

/-- Messages whose records have fewer than `limit` bytes are read back. -/
def Reads (D : Descriptors) (limit : Nat) (unpack : DescId → Bytes → Except Stop Message) : Prop :=
  ∀ m rs, Whole D m → records D m = some rs → (bytesOf rs).length < limit →
    unpack m.desc (bytesOf rs) = .ok (normal D m)

theorem isPayload_of_payload {repeated : Bool} (h : payload D t repeated e = some x) : IsPayload t.wireType x := by
  rcases e with v | v | p | b | _ | m <;> simp only [payload] at h
  · exact isPayload_of_scalar h
  · exact isPayload_of_scalar h
  · split_ifs at h with ht hnull
    cases h
    exact .delimited _ (ht ▸ rfl) rfl
  · split_ifs at h with ht
    obtain ⟨y, -, rfl⟩ := Option.map_eq_some_iff.1 h
    exact .delimited y (ht ▸ rfl) rfl
  · split_ifs at h with ht hrep
    cases h
    exact .delimited _ (ht ▸ rfl) rfl
  · split_ifs at h with ht
    obtain ⟨rs, -, rfl⟩ := Option.map_eq_some_iff.1 h
    exact .delimited _ (ht ▸ rfl) rfl

theorem payload_delimited {s : ScannedMember} {y : Bytes} (hdata : s.data = delimited y)
    (hlen : s.lengthPrefixLen = prefixLen 2 s.data) : s.payload = y := by
  rw [ScannedMember.payload, hlen, hdata, prefixLen_delimited, delimited, List.drop_left]

theorem length_data_delimited {s : ScannedMember} {y : Bytes} (hdata : s.data = delimited y)
    (hlen : s.lengthPrefixLen = prefixLen 2 s.data) : s.data.length > s.lengthPrefixLen ↔ y ≠ [] := by
  rw [hlen, hdata, prefixLen_delimited, length_delimited, gt_iff_lt, ← List.length_pos_iff]
  omega

theorem parseRequiredMember_scalar {unpack : DescId → Bytes → Except Stop Message}
    {merge : Message → Message → Except Stop (Message × Message)} {s : ScannedMember} {old : Option Elt}
    (h : scalarPack field.type e = some s.data) (hwire : s.wireType = field.type.wireType) :
    parseRequiredMember unpack merge field s old = .ok (normalElt D field.type e) := by
  have hparse := scalarParse_scalarPack D h
  have ht := packable_of_scalar h
  unfold parseRequiredMember
  split
  · rename_i hbool
    rw [hbool, scalarParse] at hparse
    rw [hparse, hbool]
  · rename_i hstring
    rw [hstring] at ht
    cases ht
  · rename_i hbytes
    rw [hbytes] at ht
    cases ht
  · rename_i hmessage
    rw [hmessage] at ht
    cases ht
  · rw [if_neg (not_not.2 hwire)]
    exact hparse

/-- What is read of the payload of an element, when no message is there already. -/
theorem parseRequiredMember_payload {limit : Nat} {unpack : DescId → Bytes → Except Stop Message}
    {merge : Message → Message → Except Stop (Message × Message)} (hreads : Reads D limit unpack) {repeated : Bool}
    (he : EltWhole D field e) {s : ScannedMember} (hx : payload D field.type repeated e = some s.data)
    (hwire : s.wireType = field.type.wireType) (hlen : s.lengthPrefixLen = prefixLen s.wireType s.data)
    (hlimit : s.data.length ≤ limit) {old : Option Elt} (hold : ∀ m, old ≠ some (.message (some m))) :
    parseRequiredMember unpack merge field s old = .ok (normalElt D field.type e) := by
  rcases e with v | v | p | b | _ | m <;> simp only [payload] at hx
  · exact parseRequiredMember_scalar hx hwire
  · exact parseRequiredMember_scalar hx hwire
  · split_ifs at hx with ht hnull
    have hdata := Option.some.inj hx
    rw [ht] at hwire
    rw [hwire] at hlen
    unfold parseRequiredMember
    rw [ht]
    dsimp only
    rw [if_neg (by rw [hwire]; decide), payload_delimited hdata.symm hlen, normalElt]
  · split_ifs at hx with ht
    obtain ⟨y, hy, hdata⟩ := Option.map_eq_some_iff.1 hx
    rw [ht] at hwire
    rw [hwire] at hlen
    unfold parseRequiredMember
    rw [ht]
    dsimp only
    rw [if_neg (by rw [hwire]; decide), payload_delimited hdata.symm hlen, normalElt, BinaryData.length_of_data? hy, hy,
      Option.getD_some]
    simp only [length_data_delimited hdata.symm hlen, List.length_eq_zero_iff]
    by_cases hnil : y = [] <;> simp [hnil]
  · exact he.elim
  · split_ifs at hx with ht
    obtain ⟨rs, hrs, hdata⟩ := Option.map_eq_some_iff.1 hx
    obtain ⟨hdesc, hm⟩ := he
    rw [ht] at hwire
    rw [hwire] at hlen
    have hlt : (bytesOf rs).length < limit := by
      have := length_encode_pos (bytesOf rs).length
      rw [← hdata, length_delimited] at hlimit
      omega
    have hunpack := hreads m rs hm hrs hlt
    unfold parseRequiredMember
    rw [ht]
    dsimp only
    rw [if_neg (by rw [hwire]; decide), payload_delimited hdata.symm hlen, ← hdesc, hunpack, normalElt]
    simp only [bind, Except.bind]
    rfl

end ProtobufC
end CmetricsRuby
