import CmetricsRuby.ProtobufC.Records

/-!
# Packing writes the records

A message that has records has the size of their bytes, when that is below `2 ^ 32`. `protobuf_c_message_pack`
writes these bytes where it is told to, whatever it moves about on the way, and writes nowhere else;
`protobuf_c_message_pack_to_buffer` appends the same bytes. No assertion fails.
-/

namespace CmetricsRuby
namespace ProtobufC

open Base128
open Memory (store memmove modify store_append store_prepend store_store memmove_store modify_store)

/-! ### Writers -/

def Writes (f : Nat → Memory UInt8 → Written) (x : Bytes) : Prop :=
  ∀ out mem, f out mem = some (x.length, store mem out x)

namespace Writes

variable {f g : Nat → Memory UInt8 → Written} {x y : Bytes}

theorem nothing : Writes (fun _ mem => some (0, mem)) [] := by
  intro out mem
  simp

theorem put (x : Bytes) : Writes (put x) x := fun _ _ => rfl

theorem andThen (hf : Writes f x) (hg : Writes g y) : Writes (andThen f g) (x ++ y) := by
  intro out mem
  have hsecond := hg (out + x.length) (store mem out x)
  rw [store_append] at hsecond
  simp only [ProtobufC.andThen, hf out mem, hsecond, Option.bind_eq_bind, Option.bind_some, List.length_append]
  rfl

theorem tagPack_cons (id : UInt32) : ∃ b l, tagPack id = b :: l := by
  rw [tagPack_eq]
  exact List.exists_cons_of_ne_nil (encode_ne_nil _)

theorem putHeader (id : UInt32) (w : UInt8) : Writes (putHeader id w) (header id w) := by
  obtain ⟨b, l, hb⟩ := tagPack_cons id
  intro out mem
  simp only [ProtobufC.putHeader, header, hb, orFirst, modify_store, List.length_cons]

end Writes

/-- A buffer takes what is appended as long as it is `limit` bytes at most; `Holds` says what is in it. -/
def Appends {σ : Type} (Holds : σ → Bytes → Prop) (limit : Nat) (append : σ → Bytes → σ) : Prop :=
  ∀ s b x, Holds s b → (b ++ x).length ≤ limit → Holds (append s x) (b ++ x)

def Sends {σ : Type} (Holds : σ → Bytes → Prop) (limit : Nat) (g : σ → Option (Nat × σ)) (x : Bytes) : Prop :=
  ∀ s b, Holds s b → (b ++ x).length ≤ limit → ∃ s', g s = some (x.length, s') ∧ Holds s' (b ++ x)

namespace Sends

variable {σ : Type} {Holds : σ → Bytes → Prop} {limit : Nat} {append : σ → Bytes → σ} {f g : σ → Option (Nat × σ)}
  {x y : Bytes}

theorem nothing : Sends Holds limit (fun s => some (0, s)) [] :=
  fun s b hb _ => ⟨s, rfl, (List.append_nil b).symm ▸ hb⟩

theorem sends (happend : Appends Holds limit append) (x : Bytes) : Sends Holds limit (sends append x) x :=
  fun s b hb hlimit => ⟨append s x, rfl, happend s b x hb hlimit⟩

theorem bufferThen (hf : Sends Holds limit f x) (hg : Sends Holds limit g y) :
    Sends Holds limit (bufferThen f g) (x ++ y) := by
  intro s b hb hlimit
  rw [← List.append_assoc] at hlimit ⊢
  have hfirst : (b ++ x).length ≤ limit := by
    rw [List.length_append] at hlimit
    omega
  obtain ⟨s₁, hs₁, hx⟩ := hf s b hb hfirst
  obtain ⟨s₂, hs₂, hy⟩ := hg s₁ (b ++ x) hx hlimit
  refine ⟨s₂, ?_, hy⟩
  simp only [ProtobufC.bufferThen, hs₁, hs₂, Option.bind_eq_bind, Option.bind_some, List.length_append]
  rfl

/-- What a function appends itself, before the rest. -/
theorem after (happend : Appends Holds limit append) (hg : Sends Holds limit g y) {s : σ} {b : Bytes} (hb : Holds s b)
    (hlimit : (b ++ (x ++ y)).length ≤ limit) :
    ∃ s', g (append s x) = some (y.length, s') ∧ Holds s' (b ++ (x ++ y)) := by
  rw [← List.append_assoc] at hlimit ⊢
  refine hg (append s x) (b ++ x) (happend s b x hb ?_) hlimit
  rw [List.length_append] at hlimit
  omega

end Sends

/-! ### Numbers -/

theorem scalarSize_eq (t : FieldType) (e : Elt) : scalarSize t e = (scalarPack t e).map List.length := by
  cases e with
  | word32 v =>
    cases t <;> simp [scalarSize, scalarPack, sint32Size, sint32Pack, uint32Size_eq, uint32Pack_eq, int32Size_eq,
      int32Pack_eq, fixed32Pack, booleanPack]
  | word64 v =>
    cases t <;> simp [scalarSize, scalarPack, sint64Size, sint64Pack, uint64Size_eq, uint64Pack_eq, fixed64Pack,
      fixed32Pack]
  | _ => rfl

theorem extend_lt (v : UInt32) : extend v < 128 ^ 10 := by
  have hv := v.toNat_lt
  unfold extend
  split_ifs <;> omega

/-- A varint, or four or eight bytes. -/
inductive ScalarShape (t : FieldType) (x : Bytes) : Prop
  | varint : t.wireType = 0 → getTypeMinSize t = 1 → Terminated x → x.length ≤ 10 → ScalarShape t x
  | fixed32 : t.wireType = 5 → getTypeMinSize t = 4 → x.length = 4 → ScalarShape t x
  | fixed64 : t.wireType = 1 → getTypeMinSize t = 8 → x.length = 8 → ScalarShape t x

theorem ScalarShape.digits {t : FieldType} (hw : t.wireType = 0) (hmin : getTypeMinSize t = 1) {n : Nat}
    (hn : n < 128 ^ 10) : ScalarShape t (encode n) :=
  .varint hw hmin (terminated_encode n) (length_encode_le_iff.2 hn)

theorem terminated_booleanPack (v : UInt32) : Terminated (booleanPack v) := by
  unfold booleanPack
  split_ifs
  · exact show (1 : UInt8).toNat < 128 by decide
  · exact show (0 : UInt8).toNat < 128 by decide

theorem scalarShape {t : FieldType} {e : Elt} {x : Bytes} (h : scalarPack t e = some x) : ScalarShape t x := by
  cases e with
  | word32 v =>
    have hz := (zigzag32 v).toNat_lt
    have hv := v.toNat_lt
    rcases t <;> rcases h
    · exact int32Pack_eq v ▸ .digits rfl rfl (extend_lt v)
    · exact sint32Pack_eq v ▸ .digits rfl rfl (by omega)
    · exact .fixed32 rfl rfl rfl
    · exact uint32Pack_eq v ▸ .digits rfl rfl (by omega)
    · exact .fixed32 rfl rfl rfl
    · exact .fixed32 rfl rfl rfl
    · exact .varint rfl rfl (terminated_booleanPack v) (by simp [booleanPack])
    · exact int32Pack_eq v ▸ .digits rfl rfl (extend_lt v)
  | word64 v =>
    have hz := (zigzag64 v).toNat_lt
    have hv := v.toNat_lt
    rcases t <;> rcases h
    · exact uint64Pack_eq v ▸ .digits rfl rfl (by omega)
    · exact sint64Pack_eq v ▸ .digits rfl rfl (by omega)
    · exact .fixed64 rfl rfl rfl
    · exact uint64Pack_eq v ▸ .digits rfl rfl (by omega)
    · exact .fixed64 rfl rfl rfl
    · exact .fixed64 rfl rfl rfl
  | _ => cases h

theorem ScalarShape.length {t : FieldType} {x : Bytes} (h : ScalarShape t x) :
    getTypeMinSize t ≤ x.length ∧ x.length ≤ 127 * getTypeMinSize t := by
  rcases h with ⟨-, hmin, hterm, hlen⟩ | ⟨-, hmin, hlen⟩ | ⟨-, hmin, hlen⟩
  · have hpos : x ≠ [] := by
      rintro rfl
      exact hterm
    have := List.length_pos_iff.2 hpos
    omega
  · omega
  · omega

/-! ### Packed arrays -/

theorem scalarsPack_cons {t : FieldType} {e : Elt} {elts : List Elt} {x : Bytes} (h : scalarsPack t (e :: elts) = some x) :
    ∃ y z, scalarPack t e = some y ∧ scalarsPack t elts = some z ∧ x = y ++ z := by
  unfold scalarsPack at h ⊢
  cases he : scalarPack t e with
  | none =>
    simp [List.mapM_cons, he] at h
  | some y =>
    cases hl : elts.mapM (scalarPack t) with
    | none => simp [List.mapM_cons, he, hl] at h
    | some ys =>
      simp [List.mapM_cons, he, hl] at h
      exact ⟨y, ys.flatten, rfl, rfl, h.symm⟩

theorem length_scalarsPack {t : FieldType} {elts : List Elt} {x : Bytes} (h : scalarsPack t elts = some x) :
    getTypeMinSize t * elts.length ≤ x.length ∧ x.length ≤ 127 * (getTypeMinSize t * elts.length) := by
  induction elts generalizing x with
  | nil =>
    cases h
    simp
  | cons e elts ih =>
    obtain ⟨y, z, hy, hz, rfl⟩ := scalarsPack_cons h
    have hshape := (scalarShape hy).length
    have ih := ih hz
    rw [List.length_append, List.length_cons, Nat.mul_succ]
    omega

theorem writes_packedPayload {t : FieldType} {elts : List Elt} {x : Bytes} (h : scalarsPack t elts = some x) :
    Writes (packedPayload t elts) x := by
  induction elts generalizing x with
  | nil =>
    cases h
    exact .nothing
  | cons e elts ih =>
    obtain ⟨y, z, hy, hz, rfl⟩ := scalarsPack_cons h
    intro out mem
    rw [packedPayload, hy]
    exact (Writes.put y).andThen (ih hz) out mem

theorem toNat_ofNat_length {x : Bytes} (h : x.length < 2 ^ 32) : (UInt32.ofNat x.length).toNat = x.length := by
  rw [UInt32.toNat_ofNat']
  omega

theorem uint32Pack_length {x : Bytes} (h : x.length < 2 ^ 32) : uint32Pack (.ofNat x.length) = encode x.length := by
  rw [uint32Pack_eq, toNat_ofNat_length h]

theorem uint32Size_length {x : Bytes} (h : x.length < 2 ^ 32) :
    uint32Size (.ofNat x.length) = (encode x.length).length := by
  rw [uint32Size_eq, toNat_ofNat_length h]

/-- The room left for the length is enough or one byte short, and then the payload is moved up by one. -/
theorem writes_repeatedFieldPackPacked {field : FieldDescriptor} {elts : List Elt} {x : Bytes} (hne : elts ≠ [])
    (h : scalarsPack field.type elts = some x) (hlt : x.length < 2 ^ 32) :
    Writes (repeatedFieldPackPacked field elts) (header field.id 2 ++ delimited x) := by
  intro out mem
  obtain ⟨hlo, hhi⟩ := length_scalarsPack h
  have hguess : uint32Size (.ofNat (getTypeMinSize field.type * elts.length)) =
      (encode (getTypeMinSize field.type * elts.length)).length := by
    rw [uint32Size_eq, UInt32.toNat_ofNat', Nat.mod_eq_of_lt (by omega)]
  have hmono := length_encode_mono hlo
  have hmul := length_encode_mul hhi
  unfold repeatedFieldPackPacked
  rw [if_neg (by simpa using hne), Writes.putHeader field.id 2 out mem]
  simp only [Option.bind_eq_bind, Option.bind_some, hguess]
  generalize (encode (getTypeMinSize field.type * elts.length)).length = guess at hmono hmul
  simp only [writes_packedPayload h _ _, Option.bind_some, uint32Size_length hlt, uint32Pack_length hlt]
  set H := header field.id 2
  by_cases hsame : guess = (encode x.length).length
  · rw [if_neg (not_not.2 hsame), hsame, ← Nat.add_assoc, store_prepend, store_append]
    simp [delimited]
    omega
  · have hone : (encode x.length).length = guess + 1 := by omega
    have hplace : out + (H.length + guess) + 1 = out + H.length + (encode x.length).length := by omega
    rw [if_pos hsame, if_pos hone, memmove_store, hplace, store_prepend,
      store_store (by omega) (by rw [List.length_append]; omega), store_append]
    simp [delimited]
    omega

/-- A message behind its length is packed behind one byte, and moved up when the length takes more. -/
theorem writes_prefixed {D : Descriptors} {m : Message} {x : Bytes} (h : Writes (messagePack D m) x)
    (hlt : x.length < 2 ^ 32) : Writes (eltPack D .message (.message (some m))) (delimited x) := by
  intro out mem
  have hpos := length_encode_pos x.length
  rw [eltPack, if_pos rfl]
  simp only [h (out + 1) mem, Option.bind_eq_bind, Option.bind_some, uint32Size_length hlt, uint32Pack_length hlt]
  have hmoved : (if (encode x.length).length ≠ 1 then
      memmove (store mem (out + 1) x) (out + (encode x.length).length) (out + 1) x.length
      else store mem (out + 1) x) = store (store mem (out + 1) x) (out + (encode x.length).length) x := by
    by_cases hone : (encode x.length).length = 1
    · rw [if_neg (not_not.2 hone), hone, store_store le_rfl le_rfl]
    · rw [if_pos hone, memmove_store]
  rw [hmoved, store_prepend, store_store (by omega) (by rw [List.length_append]; omega)]
  simp [delimited]

/-! ### Packed arrays, piece by piece -/

section
variable {σ : Type} {append : σ → Bytes → σ} {Holds : σ → Bytes → Prop} {limit : Nat}
  (happend : Appends Holds limit append)
include happend

theorem sends_packBufferPackedPayload {t : FieldType} {elts : List Elt} {x : Bytes} (h : scalarsPack t elts = some x) :
    Sends Holds limit (packBufferPackedPayload append t elts) x := by
  induction elts generalizing x with
  | nil =>
    cases h
    exact .nothing
  | cons e elts ih =>
    obtain ⟨y, z, hy, hz, rfl⟩ := scalarsPack_cons h
    intro s b hb hlimit
    rw [packBufferPackedPayload, hy]
    exact (Sends.sends happend y).bufferThen (ih hz) s b hb hlimit

omit happend in
theorem getPackedPayloadLength_eq {t : FieldType} {elts : List Elt} {x : Bytes} (h : scalarsPack t elts = some x) :
    getPackedPayloadLength t elts = some x.length := by
  induction elts generalizing x with
  | nil =>
    cases h
    rfl
  | cons e elts ih =>
    obtain ⟨y, z, hy, hz, rfl⟩ := scalarsPack_cons h
    rw [getPackedPayloadLength, scalarSize_eq, hy, ih hz, List.length_append]
    rfl

theorem sends_repeatedFieldPackToBufferPacked {field : FieldDescriptor} {elts : List Elt} {x : Bytes} (hne : elts ≠ [])
    (h : scalarsPack field.type elts = some x) (hlt : x.length < 2 ^ 32) :
    Sends Holds limit (repeatedFieldPackToBufferPacked append field elts) (header field.id 2 ++ delimited x) := by
  intro s b hb hlimit
  unfold repeatedFieldPackToBufferPacked
  rw [if_neg (by simpa using hne), getPackedPayloadLength_eq h]
  simp only [Option.bind_eq_bind, Option.bind_some, uint32Pack_length hlt]
  rw [delimited, ← List.append_assoc (header field.id 2)] at hlimit ⊢
  obtain ⟨s', hs', hholds⟩ := (sends_packBufferPackedPayload happend h).after happend hb hlimit
  rw [hs']
  refine ⟨s', ?_, hholds⟩
  simp only [Option.bind_some, if_true, List.length_append]

end

/-! ### Messages -/

section
set_option linter.unusedSectionVars false
variable {σ : Type} {append : σ → Bytes → σ} {Holds : σ → Bytes → Prop} {limit : Nat}

/-- The three ways agree on `x`. -/
structure Packs (Holds : σ → Bytes → Prop) (limit : Nat) (size : Option Nat) (f : Nat → Memory UInt8 → Written)
    (g : σ → Option (Nat × σ)) (x : Bytes) : Prop where
  size : size = some x.length
  writes : Writes f x
  sends : Sends Holds limit g x

theorem Packs.nothing : Packs Holds limit (some 0) (fun _ mem => some (0, mem)) (fun s => some (0, s)) [] :=
  ⟨rfl, .nothing, .nothing⟩

theorem Packs.andThen {n m : Option Nat} {f f' : Nat → Memory UInt8 → Written} {g g' : σ → Option (Nat × σ)}
    {x y : Bytes} (hx : Packs Holds limit n f g x) (hy : Packs Holds limit m f' g' y) :
    Packs Holds limit (do return (← n) + (← m)) (andThen f f') (bufferThen g g') (x ++ y) := by
  refine ⟨?_, hx.writes.andThen hy.writes, hx.sends.bufferThen hy.sends⟩
  rw [hx.size, hy.size, List.length_append]
  rfl

theorem Packs.congr {n n' : Option Nat} {f f' : Nat → Memory UInt8 → Written} {g g' : σ → Option (Nat × σ)} {x : Bytes}
    (h : Packs Holds limit n f g x) (hn : n' = n) (hf : ∀ out mem, f' out mem = f out mem) (hg : ∀ s, g' s = g s) :
    Packs Holds limit n' f' g' x :=
  ⟨hn ▸ h.size, fun out mem => (hf out mem).trans (h.writes out mem), fun s b hb hlimit => (hg s).symm ▸ h.sends s b hb hlimit⟩

theorem length_orFirst (w : UInt8) (x : Bytes) : (orFirst w x).length = x.length := by
  cases x <;> rfl

theorem length_header (id : UInt32) (w : UInt8) : (header id w).length = getTagSize id := by
  rw [header, length_orFirst, tagPack_eq, getTagSize_eq]

theorem bytesOf_append (rs rs' : List Record) : bytesOf (rs ++ rs') = bytesOf rs ++ bytesOf rs' :=
  List.flatMap_append

theorem bytesOf_singleton (r : Record) : bytesOf [r] = header r.tag r.wireType ++ r.payload := by
  rw [bytesOf, List.flatMap_singleton, Record.bytes]

theorem length_payload_le (r : Record) : r.payload.length ≤ (bytesOf [r]).length := by
  rw [bytesOf_singleton, List.length_append]
  omega

theorem length_delimited (x : Bytes) : (delimited x).length = (encode x.length).length + x.length :=
  List.length_append

/-- What is known of an element with its payload. -/
structure EltPacks (append : σ → Bytes → σ) (Holds : σ → Bytes → Prop) (limit : Nat) (D : Descriptors) (t : FieldType) (repeated : Bool)
    (e : Elt) (x : Bytes) : Prop where
  size : eltGetPackedSize D t repeated e = some x.length
  writes : Writes (eltPack D t e) x
  sends : ∀ field : FieldDescriptor, field.type = t →
    Sends Holds limit (requiredFieldPackToBuffer append D field e) (header field.id t.wireType ++ x)

variable {D : Descriptors}

theorem EltPacks.field {field : FieldDescriptor} {repeated : Bool} {e : Elt} {x : Bytes}
    (h : EltPacks append Holds limit D field.type repeated e x) :
    Packs Holds limit (do return getTagSize field.id + (← eltGetPackedSize D field.type repeated e))
      (andThen (putHeader field.id field.type.wireType) (eltPack D field.type e))
      (requiredFieldPackToBuffer append D field e) (bytesOf [⟨field.id, field.type.wireType, x⟩]) := by
  rw [bytesOf_singleton]
  refine ⟨?_, (Writes.putHeader _ _).andThen h.writes, h.sends field rfl⟩
  rw [h.size, List.length_append, length_header]
  rfl

theorem eltGetPackedSize_of_scalar {t : FieldType} {e : Elt} {x : Bytes} (h : scalarPack t e = some x)
    (repeated : Bool) : eltGetPackedSize D t repeated e = some x.length := by
  cases e with
  | word32 v => rw [eltGetPackedSize, scalarSize_eq, h, Option.map_some]
  | word64 v => rw [eltGetPackedSize, scalarSize_eq, h, Option.map_some]
  | _ => cases h

theorem eltsGetPackedSize_of_scalars {t : FieldType} {elts : List Elt} {x : Bytes} (h : scalarsPack t elts = some x) :
    eltsGetPackedSize D t elts = some x.length := by
  induction elts generalizing x with
  | nil =>
    cases h
    rfl
  | cons e elts ih =>
    obtain ⟨y, z, hy, hz, rfl⟩ := scalarsPack_cons h
    rw [eltsGetPackedSize, eltGetPackedSize_of_scalar hy, ih hz, List.length_append]
    rfl

variable (happend : Appends Holds limit append)
include happend

theorem eltPacks_scalar {t : FieldType} {e : Elt} {x : Bytes} (h : scalarPack t e = some x) (repeated : Bool) :
    EltPacks append Holds limit D t repeated e x := by
  refine ⟨eltGetPackedSize_of_scalar h repeated, ?_, ?_⟩
  · intro out mem
    cases e with
    | word32 v => rw [eltPack, h]; rfl
    | word64 v => rw [eltPack, h]; rfl
    | _ => cases h
  · rintro field rfl s b hb hlimit
    cases e with
    | word32 v => rw [requiredFieldPackToBuffer, h]; exact Sends.sends happend _ s b hb hlimit
    | word64 v => rw [requiredFieldPackToBuffer, h]; exact Sends.sends happend _ s b hb hlimit
    | _ => cases h

theorem eltPacks_string {p : Pointer} {repeated : Bool} (hp : ¬(repeated && p = .null) = true)
    (hlt : (delimited p.chars).length < 2 ^ 32) :
    EltPacks append Holds limit D .string repeated (.string p) (delimited p.chars) := by
  rw [length_delimited] at hlt
  have hlen : p.chars.length < 2 ^ 32 := by omega
  refine ⟨?_, ?_, ?_⟩
  · rw [eltGetPackedSize, if_pos rfl, if_neg hp, uint32Size_length hlen, length_delimited]
  · intro out mem
    have hpack : stringPack p = delimited p.chars := by
      cases p with
      | null =>
        show [0] = encode 0 ++ []
        rw [encode_of_lt (by omega)]
        rfl
      | static x => exact congrArg (· ++ _) (uint32Pack_length hlen)
      | heap x => exact congrArg (· ++ _) (uint32Pack_length hlen)
    rw [eltPack, if_pos rfl, hpack]
    rfl
  · intro field ht
    rw [delimited, ← List.append_assoc]
    intro s b hb hlimit
    rw [requiredFieldPackToBuffer, if_pos ht, uint32Pack_length hlen]
    exact (Sends.sends happend _).bufferThen (Sends.sends happend _) s b hb hlimit

theorem eltPacks_bytes {b : BinaryData} {x : Bytes} {repeated : Bool} (hx : b.data? = some x)
    (hlt : (delimited x).length < 2 ^ 32) :
    EltPacks append Holds limit D .bytes repeated (.bytes b) (delimited x) := by
  rw [length_delimited] at hlt
  have hlen : x.length < 2 ^ 32 := by omega
  have hlen' := BinaryData.length_of_data? hx
  refine ⟨?_, ?_, ?_⟩
  · rw [eltGetPackedSize, if_pos rfl, hlen', uint32Size_length hlen, length_delimited]
  · intro out mem
    rw [eltPack, if_pos rfl, binaryDataPack, hx, hlen', uint32Pack_length hlen]
    rfl
  · intro field ht
    rw [delimited, ← List.append_assoc]
    intro s b hb hlimit
    rw [requiredFieldPackToBuffer, if_pos ht, hx, hlen', uint32Pack_length hlen]
    exact (Sends.sends happend _).bufferThen (Sends.sends happend _) s b hb hlimit

theorem eltPacks_null (D : Descriptors) : EltPacks append Holds limit D .message false (.message none) (delimited []) := by
  have hempty : delimited [] = [0] := by
    show encode 0 ++ [] = [0]
    rw [encode_of_lt (by omega)]
    rfl
  rw [hempty]
  refine ⟨rfl, ?_, ?_⟩
  · intro out mem
    rw [eltPack, if_pos rfl]
    rfl
  · intro field ht s b hb hlimit
    rw [requiredFieldPackToBuffer, if_pos ht]
    exact Sends.sends happend _ s b hb hlimit

theorem eltPacks_message {m : Message} {x : Bytes} {repeated : Bool} (hlt : x.length < 2 ^ 32)
    (h : Packs Holds limit (messageGetPackedSize D m) (messagePack D m) (messagePackToBuffer append D m) x) :
    EltPacks append Holds limit D .message repeated (.message (some m)) (delimited x) := by
  refine ⟨?_, writes_prefixed h.writes hlt, ?_⟩
  · rw [eltGetPackedSize, if_pos rfl, h.size, length_delimited, ← uint32Size_length hlt]
    rfl
  · intro field ht
    rw [delimited, ← List.append_assoc]
    intro s b hb hlimit
    obtain ⟨s', hs', hholds⟩ := h.sends.after happend hb hlimit
    rw [requiredFieldPackToBuffer, if_pos ht, h.size]
    simp only [Option.bind_eq_bind, Option.bind_some, uint32Pack_length hlt]
    refine ⟨s', ?_, hholds⟩
    rw [show FieldType.message.wireType = 2 from rfl] at hs' ⊢
    simp only [hs', Option.bind_some, List.length_append]
    rfl

theorem packs_unknown (us : List UnknownField) : Packs Holds limit (some (us.map unknownFieldGetPackedSize).sum)
    (unknownFieldsPack us) (unknownFieldsPackToBuffer append us) (bytesOf (us.map UnknownField.record)) := by
  induction us with
  | nil => exact .nothing
  | cons u us ih =>
    have hu : Packs Holds limit (some (unknownFieldGetPackedSize u)) (unknownFieldPack u)
        (unknownFieldPackToBuffer append u) (bytesOf [u.record]) := by
      rw [bytesOf_singleton]
      refine ⟨?_, (Writes.putHeader _ _).andThen (.put _), (Sends.sends happend _).bufferThen (.sends happend _)⟩
      rw [List.length_append, length_header]
      rfl
    have h := hu.andThen ih
    rw [← bytesOf_append] at h
    exact h.congr rfl (fun _ _ => rfl) fun _ => rfl

theorem packs_packed {field : FieldDescriptor} {elts : List Elt} {x : Bytes} (cases : List UInt32)
    (hl : field.label = .repeated) (hp : field.packed = true) (hne : elts ≠ []) (h : scalarsPack field.type elts = some x)
    (hlt : x.length < 2 ^ 32) : Packs Holds limit (memberGetPackedSize D cases field (.repeated elts))
      (memberPack D cases field (.repeated elts)) (memberPackToBuffer append D cases field (.repeated elts))
      (bytesOf [⟨field.id, 2, delimited x⟩]) := by
  have hl' : ¬(field.label ≠ .repeated) := not_not.2 hl
  rw [bytesOf_singleton]
  refine ⟨?_, ?_, ?_⟩
  · rw [memberGetPackedSize, if_neg hl', if_neg (by simpa using hne), eltsGetPackedSize_of_scalars h]
    simp only [Option.bind_eq_bind, Option.bind_some, if_pos hp, uint32Size_length hlt, List.length_append,
      length_header, length_delimited, Nat.add_assoc]
    rfl
  · intro out mem
    rw [memberPack, if_neg hl', if_pos hp]
    exact writes_repeatedFieldPackPacked hne h hlt out mem
  · intro s b hb hlimit
    rw [memberPackToBuffer, if_neg hl', if_pos hp]
    exact sends_repeatedFieldPackToBufferPacked happend hne h hlt s b hb hlimit

mutual

theorem message_packs : ∀ (m : Message) {rs : List Record}, records D m = some rs → (bytesOf rs).length < 2 ^ 32 →
    Packs Holds limit (messageGetPackedSize D m) (messagePack D m) (messagePackToBuffer append D m) (bytesOf rs)
  | .mk desc members cases unknown, rs, h, hlt => by
    obtain ⟨rs₁, hrs₁, rfl⟩ := records_mk h
    rw [bytesOf_append, List.length_append] at hlt
    have hmembers := members_pack cases (D desc).fields members hrs₁ (by omega)
    have hall := hmembers.andThen (packs_unknown happend unknown)
    rw [← bytesOf_append] at hall
    exact hall.congr (by rw [messageGetPackedSize]; rfl) (fun _ _ => by rw [messagePack])
      fun _ => by rw [messagePackToBuffer]

theorem members_pack (cases : List UInt32) : ∀ (fields : List FieldDescriptor) (members : List Member) {rs : List Record},
    membersRecords D cases fields members = some rs → (bytesOf rs).length < 2 ^ 32 →
    Packs Holds limit (membersGetPackedSize D cases fields members) (membersPack D cases fields members)
      (membersPackToBuffer append D cases fields members) (bytesOf rs)
  | [], members, rs, h, _ => by
    rw [membersRecords] at h
    cases h
    exact Packs.nothing.congr (by rw [membersGetPackedSize]) (fun _ _ => by rw [membersPack])
      fun _ => by rw [membersPackToBuffer]
  | field :: fields, [], rs, h, _ => by
    rw [membersRecords] at h
    cases h
  | field :: fields, member :: members, rs, h, hlt => by
    obtain ⟨rs₁, rs₂, hrs₁, hrs₂, rfl⟩ := membersRecords_cons h
    rw [bytesOf_append, List.length_append] at hlt
    have hall := (member_packs cases field member hrs₁ (by omega)).andThen
      (members_pack cases fields members hrs₂ (by omega))
    rw [← bytesOf_append] at hall
    exact hall.congr (by rw [membersGetPackedSize]) (fun _ _ => by rw [membersPack]) fun _ => by rw [membersPackToBuffer]

theorem member_packs (cases : List UInt32) (field : FieldDescriptor) : ∀ (member : Member) {rs : List Record},
    memberRecords D cases field member = some rs → (bytesOf rs).length < 2 ^ 32 →
    Packs Holds limit (memberGetPackedSize D cases field member) (memberPack D cases field member)
      (memberPackToBuffer append D cases field member) (bytesOf rs)
  | .single has e, rs, h, hlt => by
    rw [memberRecords] at h
    split_ifs at h with hl hset
    · obtain ⟨x, hx, hrs⟩ := Option.bind_eq_some_iff.1 h
      cases hrs
      have hx' := length_payload_le ⟨field.id, field.type.wireType, x⟩
      exact (elt_packs field.type false e hx (hx'.trans_lt hlt)).field.congr
        (by rw [memberGetPackedSize, if_neg hl, if_pos hset])
        (fun _ _ => by rw [memberPack, if_neg hl, if_pos hset])
        fun _ => by rw [memberPackToBuffer, if_neg hl, if_pos hset]
    · cases h
      exact Packs.nothing.congr (by rw [memberGetPackedSize, if_neg hl, if_neg hset])
        (fun _ _ => by rw [memberPack, if_neg hl, if_neg hset])
        fun _ => by rw [memberPackToBuffer, if_neg hl, if_neg hset]
  | .repeated elts, rs, h, hlt => by
    rw [memberRecords] at h
    split_ifs at h with hl hp hempty
    · cases h
      have hnil : elts = [] := List.isEmpty_iff.1 hempty
      subst hnil
      exact Packs.nothing.congr (by rw [memberGetPackedSize, if_neg hl]; rfl)
        (fun _ _ => by rw [memberPack, if_neg hl, if_pos hp]; rfl)
        fun _ => by rw [memberPackToBuffer, if_neg hl, if_pos hp]; rfl
    · obtain ⟨x, hx, hrs⟩ := Option.bind_eq_some_iff.1 h
      cases hrs
      rw [bytesOf_singleton, List.length_append, length_delimited] at hlt
      exact packs_packed happend cases (not_not.1 hl) hp (fun hnil => hempty (List.isEmpty_iff.2 hnil)) hx (by omega)
    · refine (elts_pack field elts h hlt).congr ?_ (fun _ _ => by rw [memberPack, if_neg hl, if_neg hp])
        fun _ => by rw [memberPackToBuffer, if_neg hl, if_neg hp]
      rw [memberGetPackedSize, if_neg hl]
      rcases elts with _ | ⟨e, elts⟩
      · rw [eltsGetPackedSize]
        rfl
      · simp only [List.isEmpty_cons, Bool.false_eq_true, if_false, if_neg hp]

theorem elt_packs (t : FieldType) (repeated : Bool) : ∀ (e : Elt) {x : Bytes},
    payload D t repeated e = some x → x.length < 2 ^ 32 → EltPacks append Holds limit D t repeated e x
  | .word32 v, x, h, _ => eltPacks_scalar happend (by rw [payload] at h; exact h) repeated
  | .word64 v, x, h, _ => eltPacks_scalar happend (by rw [payload] at h; exact h) repeated
  | .string p, x, h, hlt => by
    rw [payload] at h
    split_ifs at h with ht hp
    cases h
    subst ht
    exact eltPacks_string happend hp hlt
  | .bytes b, x, h, hlt => by
    rw [payload] at h
    split_ifs at h with ht
    obtain ⟨y, hy, rfl⟩ := Option.map_eq_some_iff.1 h
    subst ht
    exact eltPacks_bytes happend hy hlt
  | .message none, x, h, hlt => by
    rw [payload] at h
    split_ifs at h with ht hr
    cases h
    subst ht
    rw [Bool.not_eq_true] at hr
    subst hr
    exact eltPacks_null happend D
  | .message (some m), x, h, hlt => by
    rw [payload] at h
    split_ifs at h with ht
    obtain ⟨rs, hrs, rfl⟩ := Option.map_eq_some_iff.1 h
    subst ht
    rw [length_delimited] at hlt
    exact eltPacks_message happend (by omega) (message_packs m hrs (by omega))

theorem elts_pack (field : FieldDescriptor) : ∀ (elts : List Elt) {rs : List Record},
    eltsRecords D field elts = some rs → (bytesOf rs).length < 2 ^ 32 →
    Packs Holds limit (do return getTagSize field.id * elts.length + (← eltsGetPackedSize D field.type elts))
      (eltsPack D field elts) (eltsPackToBuffer append D field elts) (bytesOf rs)
  | [], rs, h, _ => by
    rw [eltsRecords] at h
    cases h
    exact Packs.nothing.congr (by rw [eltsGetPackedSize]; rfl) (fun _ _ => by rw [eltsPack])
      fun _ => by rw [eltsPackToBuffer]
  | e :: elts, rs, h, hlt => by
    obtain ⟨x, rs', hx, hrs', rfl⟩ := eltsRecords_cons h
    have hsplit : bytesOf (⟨field.id, field.type.wireType, x⟩ :: rs') =
        bytesOf [⟨field.id, field.type.wireType, x⟩] ++ bytesOf rs' := bytesOf_append [_] rs'
    have hx' : x.length ≤ _ := length_payload_le ⟨field.id, field.type.wireType, x⟩
    rw [hsplit, List.length_append] at hlt
    have he := elt_packs field.type true e hx (by omega)
    have helts := elts_pack field elts hrs' (by omega)
    have hall := he.field.andThen helts
    rw [← hsplit] at hall
    refine hall.congr ?_ (fun _ _ => by rw [eltsPack]) fun _ => by rw [eltsPackToBuffer]
    have hsize := helts.size
    rw [eltsGetPackedSize, he.size]
    cases hn : eltsGetPackedSize D field.type elts with
    | none => rfl
    | some n =>
      simp only [Option.bind_eq_bind, Option.bind_some, List.length_cons]
      refine congrArg some ?_
      ring

end

end

end ProtobufC
end CmetricsRuby
