import CmetricsRuby.ProtobufC.Message
import CmetricsRuby.Base.Memory

/-!
# Packing

The three ways through a message: `protobuf_c_message_get_packed_size`, `protobuf_c_message_pack` to an address,
and `protobuf_c_message_pack_to_buffer` piece by piece. `none` is undefined behaviour: a member that is not of the
type its field says, NULL where it is read, a failed assertion. A size is a number of bytes that are there, so
`size_t` is not taken to overflow; what is passed on as `uint32_t` is cut.
-/

namespace CmetricsRuby
namespace ProtobufC

open Memory (store memmove modify)

def FieldType.wireType : FieldType → UInt8
  | .sfixed32 | .fixed32 | .float => 5
  | .sfixed64 | .fixed64 | .double => 1
  | .string | .bytes | .message => 2
  | _ => 0

/-! ### Numbers, by their type -/

def isPackableType : FieldType → Bool
  | .string | .bytes | .message => false
  | _ => true

def scalarSize (t : FieldType) : Elt → Option Nat
  | .word32 v =>
    match t with
    | .sint32 => some (sint32Size v)
    | .enum | .int32 => some (int32Size v)
    | .uint32 => some (uint32Size v)
    | .sfixed32 | .fixed32 | .float => some 4
    | .bool => some 1
    | _ => none
  | .word64 v =>
    match t with
    | .sint64 => some (sint64Size v)
    | .int64 | .uint64 => some (uint64Size v)
    | .sfixed64 | .fixed64 | .double => some 8
    | _ => none
  | _ => none

def scalarPack (t : FieldType) : Elt → Option Bytes
  | .word32 v =>
    match t with
    | .sint32 => some (sint32Pack v)
    | .enum | .int32 => some (int32Pack v)
    | .uint32 => some (uint32Pack v)
    | .sfixed32 | .fixed32 | .float => some (fixed32Pack v)
    | .bool => some (booleanPack v)
    | _ => none
  | .word64 v =>
    match t with
    | .sint64 => some (sint64Pack v)
    | .int64 | .uint64 => some (uint64Pack v)
    | .sfixed64 | .fixed64 | .double => some (fixed64Pack v)
    | _ => none
  | _ => none

def getTypeMinSize : FieldType → Nat
  | .sfixed32 | .fixed32 | .float => 4
  | .sfixed64 | .fixed64 | .double => 8
  | _ => 1

def stringPack (p : Pointer) : Bytes :=
  match p with
  | .null => [0]
  | p => uint32Pack (.ofNat p.chars.length) ++ p.chars

def binaryDataPack (b : BinaryData) : Option Bytes := do
  let x ← b.data?
  return uint32Pack (.ofNat b.len) ++ x

def orFirst (w : UInt8) : Bytes → Bytes
  | [] => []
  | b :: l => (b ||| w) :: l

/-- `tag_pack`, and then `out[0] |= wire_type`. -/
def header (id : UInt32) (wireType : UInt8) : Bytes := orFirst wireType (tagPack id)

/-! ### `protobuf_c_message_get_packed_size` -/

def unknownFieldGetPackedSize (u : UnknownField) : Nat := getTagSize u.tag + u.data.length

mutual

def messageGetPackedSize (D : Descriptors) : Message → Option Nat
  | .mk desc members cases unknown => do
    let rv ← membersGetPackedSize D cases (D desc).fields members
    return rv + (unknown.map unknownFieldGetPackedSize).sum

def membersGetPackedSize (D : Descriptors) (cases : List UInt32) : List FieldDescriptor → List Member → Option Nat
  | [], _ => some 0
  | _ :: _, [] => none
  | field :: fields, member :: members => do
    let n ← memberGetPackedSize D cases field member
    let rv ← membersGetPackedSize D cases fields members
    return n + rv

def memberGetPackedSize (D : Descriptors) (cases : List UInt32) (field : FieldDescriptor) : Member → Option Nat
  | .single has e =>
    if field.label = .repeated then none
    else if fieldIsSet field cases has e then do
      let n ← eltGetPackedSize D field.type false e
      return getTagSize field.id + n
    else some 0
  | .repeated elts =>
    if field.label ≠ .repeated then none
    else if elts.isEmpty then some 0
    else do
      let rv ← eltsGetPackedSize D field.type elts
      return if field.packed then getTagSize field.id + uint32Size (.ofNat rv) + rv
        else getTagSize field.id * elts.length + rv

/-- In an array NULL is not taken for an empty String or message. -/
def eltGetPackedSize (D : Descriptors) (t : FieldType) (repeated : Bool) : Elt → Option Nat
  | .string p =>
    if t = .string then
      if repeated && p = .null then none
      else some (uint32Size (.ofNat p.chars.length) + p.chars.length)
    else none
  | .bytes b => if t = .bytes then some (uint32Size (.ofNat b.len) + b.len) else none
  | .message p =>
    if t = .message then
      match p with
      | none => if repeated then none else some (uint32Size 0)
      | some m => do
        let subrv ← messageGetPackedSize D m
        return uint32Size (.ofNat subrv) + subrv
    else none
  | .word32 v => scalarSize t (.word32 v)
  | .word64 v => scalarSize t (.word64 v)

def eltsGetPackedSize (D : Descriptors) (t : FieldType) : List Elt → Option Nat
  | [] => some 0
  | e :: elts => do
    let n ← eltGetPackedSize D t true e
    let rv ← eltsGetPackedSize D t elts
    return n + rv

end

/-! ### `protobuf_c_message_pack` -/

/-- How many bytes were written, and the memory. -/
abbrev Written := Option (Nat × Memory UInt8)

def put (x : Bytes) (out : Nat) (mem : Memory UInt8) : Written := some (x.length, store mem out x)

/-- A second writer behind a first one. -/
def andThen (first second : Nat → Memory UInt8 → Written) (out : Nat) (mem : Memory UInt8) : Written := do
  let (n, mem) ← first out mem
  let (rv, mem) ← second (out + n) mem
  return (n + rv, mem)

def putHeader (id : UInt32) (wireType : UInt8) (out : Nat) (mem : Memory UInt8) : Written :=
  let tag := tagPack id
  some (tag.length, modify (store mem out tag) out (· ||| wireType))

def unknownFieldPack (u : UnknownField) : Nat → Memory UInt8 → Written :=
  andThen (putHeader u.tag u.wireType) (put u.data)

def unknownFieldsPack : List UnknownField → Nat → Memory UInt8 → Written
  | [], _, mem => some (0, mem)
  | u :: us, out, mem => andThen (unknownFieldPack u) (unknownFieldsPack us) out mem

/-- The elements of a packed array, each as its type packs it; `memcpy` of an array of fixed size is the same. -/
def packedPayload (t : FieldType) : List Elt → Nat → Memory UInt8 → Written
  | [], _, mem => some (0, mem)
  | e :: elts, out, mem => do
    let x ← scalarPack t e
    andThen (put x) (packedPayload t elts) out mem

/-- The length goes in front of the payload, which is written first: it is moved up when there are more than
`get_type_min_size` of the elements gave room for. -/
def repeatedFieldPackPacked (field : FieldDescriptor) (elts : List Elt) (out : Nat) (mem : Memory UInt8) : Written :=
  if elts.isEmpty then some (0, mem)
  else do
    let (lenStart, mem) ← putHeader field.id 2 out mem
    let lengthSizeMin := uint32Size (.ofNat (getTypeMinSize field.type * elts.length))
    let headerLen := lenStart + lengthSizeMin
    let (payloadLen, mem) ← packedPayload field.type elts (out + headerLen) mem
    let actual := uint32Size (.ofNat payloadLen)
    let length := uint32Pack (.ofNat payloadLen)
    if lengthSizeMin ≠ actual then
      if actual = lengthSizeMin + 1 then
        let mem := memmove mem (out + headerLen + 1) (out + headerLen) payloadLen
        some (headerLen + 1 + payloadLen, store mem (out + lenStart) length)
      else none
    else some (headerLen + payloadLen, store mem (out + lenStart) length)

mutual

def messagePack (D : Descriptors) : Message → Nat → Memory UInt8 → Written
  | .mk desc members cases unknown, out, mem =>
    andThen (membersPack D cases (D desc).fields members) (unknownFieldsPack unknown) out mem

def membersPack (D : Descriptors) (cases : List UInt32) :
    List FieldDescriptor → List Member → Nat → Memory UInt8 → Written
  | [], _, _, mem => some (0, mem)
  | _ :: _, [], _, _ => none
  | field :: fields, member :: members, out, mem =>
    andThen (memberPack D cases field member) (membersPack D cases fields members) out mem

def memberPack (D : Descriptors) (cases : List UInt32) (field : FieldDescriptor) :
    Member → Nat → Memory UInt8 → Written
  | .single has e, out, mem =>
    if field.label = .repeated then none
    else if fieldIsSet field cases has e then
      andThen (putHeader field.id field.type.wireType) (eltPack D field.type e) out mem
    else some (0, mem)
  | .repeated elts, out, mem =>
    if field.label ≠ .repeated then none
    else if field.packed then repeatedFieldPackPacked field elts out mem
    else eltsPack D field elts out mem

/-- What `required_field_pack` writes behind the tag. -/
def eltPack (D : Descriptors) (t : FieldType) : Elt → Nat → Memory UInt8 → Written
  | .string p, out, mem => if t = .string then put (stringPack p) out mem else none
  | .bytes b, out, mem =>
    if t = .bytes then do
      let x ← binaryDataPack b
      put x out mem
    else none
  | .message p, out, mem =>
    if t = .message then
      match p with
      | none => put [0] out mem
      | some m => do
        -- the message is packed behind one byte, and moved up when its length takes more
        let (rv, mem) ← messagePack D m (out + 1) mem
        let size := uint32Size (.ofNat rv)
        let mem := if size ≠ 1 then memmove mem (out + size) (out + 1) rv else mem
        let x := uint32Pack (.ofNat rv)
        return (x.length + rv, store mem out x)
    else none
  | .word32 v, out, mem => do
    let x ← scalarPack t (.word32 v)
    put x out mem
  | .word64 v, out, mem => do
    let x ← scalarPack t (.word64 v)
    put x out mem

def eltsPack (D : Descriptors) (field : FieldDescriptor) : List Elt → Nat → Memory UInt8 → Written
  | [], _, mem => some (0, mem)
  | e :: elts, out, mem =>
    andThen (andThen (putHeader field.id field.type.wireType) (eltPack D field.type e)) (eltsPack D field elts) out mem

end

/-! ### `protobuf_c_buffer_simple_append` -/

/-- A buffer with room for `alloced` bytes; `blocks` is how many blocks it has from `malloc` and not freed. -/
structure BufferSimple where
  alloced : Nat
  len : Nat
  data : Memory UInt8
  mustFreeData : Bool
  blocks : Nat

/-- What `PROTOBUF_C_BUFFER_SIMPLE_INIT` makes of an array. -/
def BufferSimple.init (alloced : Nat) (data : Memory UInt8) : BufferSimple := ⟨alloced, 0, data, false, 0⟩

/-- The loop that doubles `new_alloced`, a `size_t`: after 64 times that is 0, and `none` is to go on for ever. -/
def growTo (newLen : Nat) : Nat → Nat → Option Nat
  | 0, _ => none
  | n + 1, newAlloced =>
    if newAlloced < newLen then growTo newLen n ((newAlloced + newAlloced) % 2 ^ 64) else some newAlloced

/-- `malloc` is what is in a new block of a size, or NULL. -/
def bufferSimpleAppend (malloc : Nat → Option (Memory UInt8)) (simp : BufferSimple) (data : Bytes) :
    Option BufferSimple := do
  let newLen := (simp.len + data.length) % 2 ^ 64
  if newLen > simp.alloced then
    let newAlloced ← growTo newLen 65 (simp.alloced * 2 % 2 ^ 64)
    match malloc newAlloced with
    | none => return simp
    | some newData =>
      let old := if simp.mustFreeData then 1 else 0
      return {
        alloced := newAlloced, len := newLen, mustFreeData := true, blocks := simp.blocks + 1 - old
        data := store (Memory.memcpy newData 0 simp.data 0 simp.len) simp.len data }
  else return { simp with len := newLen, data := store simp.data simp.len data }

/-! ### `protobuf_c_message_pack_to_buffer` -/

section
variable {σ : Type} (append : σ → Bytes → σ)

/-- How many bytes were packed, and the buffer. -/
def sends (x : Bytes) (buffer : σ) : Option (Nat × σ) := some (x.length, append buffer x)

def bufferThen (first second : σ → Option (Nat × σ)) (buffer : σ) : Option (Nat × σ) := do
  let (n, buffer) ← first buffer
  let (rv, buffer) ← second buffer
  return (n + rv, buffer)

def unknownFieldPackToBuffer (u : UnknownField) : σ → Option (Nat × σ) :=
  bufferThen (sends append (header u.tag u.wireType)) (sends append u.data)

def unknownFieldsPackToBuffer : List UnknownField → σ → Option (Nat × σ)
  | [], buffer => some (0, buffer)
  | u :: us, buffer => bufferThen (unknownFieldPackToBuffer append u) (unknownFieldsPackToBuffer us) buffer

def getPackedPayloadLength (t : FieldType) : List Elt → Option Nat
  | [] => some 0
  | e :: elts => do
    let n ← scalarSize t e
    let rv ← getPackedPayloadLength t elts
    return n + rv

/-- Element by element. The source, on a little-endian machine, appends an array of elements of a fixed size in one
call, which leaves the same bytes. -/
def packBufferPackedPayload (t : FieldType) : List Elt → σ → Option (Nat × σ)
  | [], buffer => some (0, buffer)
  | e :: elts, buffer => do
    let x ← scalarPack t e
    bufferThen (sends append x) (packBufferPackedPayload t elts) buffer

def repeatedFieldPackToBufferPacked (field : FieldDescriptor) (elts : List Elt) (buffer : σ) : Option (Nat × σ) :=
  if elts.isEmpty then some (0, buffer)
  else do
    let payloadLen ← getPackedPayloadLength field.type elts
    let scratch := header field.id 2 ++ uint32Pack (.ofNat payloadLen)
    let (tmp, buffer) ← packBufferPackedPayload append field.type elts (append buffer scratch)
    if tmp = payloadLen then some (scratch.length + payloadLen, buffer) else none

mutual

def messagePackToBuffer (D : Descriptors) : Message → σ → Option (Nat × σ)
  | .mk desc members cases unknown, buffer =>
    bufferThen (membersPackToBuffer D cases (D desc).fields members) (unknownFieldsPackToBuffer append unknown) buffer

def membersPackToBuffer (D : Descriptors) (cases : List UInt32) :
    List FieldDescriptor → List Member → σ → Option (Nat × σ)
  | [], _, buffer => some (0, buffer)
  | _ :: _, [], _ => none
  | field :: fields, member :: members, buffer =>
    bufferThen (memberPackToBuffer D cases field member) (membersPackToBuffer D cases fields members) buffer

def memberPackToBuffer (D : Descriptors) (cases : List UInt32) (field : FieldDescriptor) : Member → σ → Option (Nat × σ)
  | .single has e, buffer =>
    if field.label = .repeated then none
    else if fieldIsSet field cases has e then requiredFieldPackToBuffer D field e buffer
    else some (0, buffer)
  | .repeated elts, buffer =>
    if field.label ≠ .repeated then none
    else if field.packed then repeatedFieldPackToBufferPacked append field elts buffer
    else eltsPackToBuffer D field elts buffer

def requiredFieldPackToBuffer (D : Descriptors) (field : FieldDescriptor) : Elt → σ → Option (Nat × σ)
  | .string p, buffer =>
    if field.type = .string then
      bufferThen (sends append (header field.id 2 ++ uint32Pack (.ofNat p.chars.length))) (sends append p.chars) buffer
    else none
  | .bytes b, buffer =>
    if field.type = .bytes then do
      let x ← b.data?
      bufferThen (sends append (header field.id 2 ++ uint32Pack (.ofNat b.len))) (sends append x) buffer
    else none
  | .message p, buffer =>
    if field.type = .message then
      match p with
      | none => sends append (header field.id 2 ++ uint32Pack 0) buffer
      | some m => do
        let sublen ← messageGetPackedSize D m
        let scratch := header field.id 2 ++ uint32Pack (.ofNat sublen)
        let (_, buffer) ← messagePackToBuffer D m (append buffer scratch)
        return (scratch.length + sublen, buffer)
    else none
  | .word32 v, buffer => do
    let x ← scalarPack field.type (.word32 v)
    sends append (header field.id field.type.wireType ++ x) buffer
  | .word64 v, buffer => do
    let x ← scalarPack field.type (.word64 v)
    sends append (header field.id field.type.wireType ++ x) buffer

def eltsPackToBuffer (D : Descriptors) (field : FieldDescriptor) : List Elt → σ → Option (Nat × σ)
  | [], buffer => some (0, buffer)
  | e :: elts, buffer => bufferThen (requiredFieldPackToBuffer D field e) (eltsPackToBuffer D field elts) buffer

end

end

end ProtobufC
end CmetricsRuby
