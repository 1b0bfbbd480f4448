import CmetricsRuby.ProtobufC.Lookup
import CmetricsRuby.ProtobufC.Pack

/-!
# Unpacking

`protobuf_c_message_unpack` goes over its input twice: a scan that cuts it into members and counts them, and, once
there are arrays of the sizes counted, the parsing of each member. What is left of the input is a list, a member is
cut out of it, and to read behind either is `undefined`, as is to write behind an array. `failed` is NULL or FALSE:
a shift of an `int` keeps its bits, `malloc` gives memory, and what is freed on the way is left out. Members of a
oneof are kept apart; in C they are in the same place.
-/

namespace CmetricsRuby
namespace ProtobufC

/-! ### Cutting -/

def tagLoop (tag shift : UInt32) (rv : Nat) : Bytes → Except Stop (Nat × UInt32)
  | [] => .error .failed
  | b :: l =>
    if b &&& 0x80 ≠ 0 then tagLoop (tag ||| (low7 b <<< shift)) (shift + 7) (rv + 1) l
    else .ok (rv + 1, tag ||| (b.toUInt32 <<< shift))

/-- How many bytes there were, the tag and the wire type. -/
def parseTagAndWiretype : Bytes → Except Stop (Nat × UInt32 × UInt8)
  | [] => .error .undefined
  | b :: l =>
    let tag := low7 b >>> 3
    if b &&& 0xf8 = 0 then .error .failed
    else if b &&& 0x80 = 0 then .ok (1, tag, b &&& 7)
    else do
      let (rv, tag) ← tagLoop tag 4 1 (l.take 4)
      return (rv, tag, b &&& 7)

def prefixLoop (val shift hdrLen : Nat) : Bytes → Option (Nat × Nat)
  | [] => none
  | b :: l =>
    let val := val ||| ((b.toNat % 128) <<< shift)
    if b &&& 0x80 = 0 then some (hdrLen + 1, val) else prefixLoop val (shift + 7) (hdrLen + 1) l

/-- How many bytes there are with the prefix, and how many in the prefix. -/
def scanLengthPrefixedData (data : Bytes) : Option (Nat × Nat) := do
  let (hdrLen, val) ← prefixLoop 0 0 0 (data.take 5)
  if val > 2 ^ 31 - 1 then none
  else if hdrLen + val > data.length then none
  else return (hdrLen + val, hdrLen)

/-- `none` is 0. -/
def scanVarint (data : Bytes) : Option Nat := ((data.take 10).findIdx? (· &&& 0x80 = 0)).map (· + 1)

def maxB128Numbers (data : Bytes) : Nat := data.countP (· &&& 0x80 = 0)

def countPackedElements (t : FieldType) (data : Bytes) : Option Nat :=
  match t with
  | .sfixed32 | .fixed32 | .float => if data.length % 4 ≠ 0 then none else some (data.length / 4)
  | .sfixed64 | .fixed64 | .double => if data.length % 8 ≠ 0 then none else some (data.length / 8)
  | .bool => some data.length
  | .string | .bytes | .message => none
  | _ => some (maxB128Numbers data)

/-- A repeated field is taken for packed by its wire type. -/
def comesPacked (field : FieldDescriptor) (wireType : UInt8) : Bool :=
  wireType = 2 && (field.packed || isPackableType field.type)

/-! ### The scan -/

structure ScannedMember where
  tag : UInt32
  wireType : UInt8
  lengthPrefixLen : Nat
  /-- Which field of the descriptor, or NULL. -/
  field : Option Nat
  /-- The `len` bytes at `data`. -/
  data : Bytes
deriving DecidableEq

namespace ScannedMember

def payload (s : ScannedMember) : Bytes := s.data.drop s.lengthPrefixLen

end ScannedMember

/-- What the scan keeps: `required` are the bits set in `required_fields_bitmap`, `counts` the sizes so far of the
repeated fields. -/
structure Scan where
  lastField : Nat
  members : List ScannedMember
  whichSlab : Nat
  inSlabIndex : Nat
  nUnknown : Nat
  required : List Nat
  counts : List Nat

def Scan.start (desc : MessageDescriptor) : Scan := ⟨0, [], 0, 0, 0, [], desc.fields.map fun _ => 0⟩

/-- The field with a tag, the last one first. -/
def lookupField (desc : MessageDescriptor) (lastField : Nat) (tag : UInt32) : Option Nat :=
  if desc.fields[lastField]?.any (·.id = tag) then some lastField
  else intRangeLookup desc.fieldRanges (toInt tag)

/-- How many bytes follow the tag, and how many of these are a length. -/
def scanData (wireType : UInt8) (at_ : Bytes) : Option (Nat × Nat) :=
  match wireType with
  | 0 => (scanVarint at_).map fun len => (len, 0)
  | 1 => if at_.length < 8 then none else some (8, 0)
  | 2 => scanLengthPrefixedData at_
  | 5 => if at_.length < 4 then none else some (4, 0)
  | _ => none

/-- `MAX_SCANNED_MEMBER_SLAB` -/
def maxScannedMemberSlab : Nat := 22

/-- The slab and the place in it for one more member. -/
def nextSlot (whichSlab inSlabIndex : Nat) : Option (Nat × Nat) :=
  if inSlabIndex = 2 ^ (whichSlab + 4) then
    if whichSlab = maxScannedMemberSlab then none else some (whichSlab + 1, 0)
  else some (whichSlab, inSlabIndex)

/-- How many elements of its array a member of a repeated field has. -/
def memberCount (field : FieldDescriptor) (s : ScannedMember) : Option Nat :=
  if comesPacked field s.wireType then countPackedElements field.type s.payload else some 1

/-- What is counted of a member. -/
def Scan.tally (desc : MessageDescriptor) (scan : Scan) (s : ScannedMember) : Except Stop Scan :=
  match s.field with
  | none => .ok { scan with nUnknown := scan.nUnknown + 1 }
  | some i =>
    match desc.fields[i]? with
    | none => .error .undefined
    | some field =>
      let scan := { scan with lastField := i }
      match field.label with
      | .required => .ok { scan with required := i :: scan.required }
      | .repeated =>
        match memberCount field s with
        | none => .error .failed
        | some count => .ok { scan with counts := scan.counts.modify i (· + count) }
      | _ => .ok scan

def orFail {α : Type} : Option α → Except Stop α
  | none => .error .failed
  | some a => .ok a

/-- One turn of the loop: the member at the front of the input, counted and put into a slab, and what is behind. -/
def Scan.turn (desc : MessageDescriptor) (scan : Scan) (at_ : Bytes) : Except Stop (Scan × Bytes) := do
  let (used, tag, wireType) ← parseTagAndWiretype at_
  let field := lookupField desc scan.lastField tag
  let at_ := at_.drop used
  let (len, lengthPrefixLen) ← orFail (scanData wireType at_)
  let s : ScannedMember := ⟨tag, wireType, lengthPrefixLen, field, at_.take len⟩
  let (whichSlab, inSlabIndex) ← orFail (nextSlot scan.whichSlab scan.inSlabIndex)
  let scan ← scan.tally desc s
  return ({ scan with members := scan.members ++ [s], whichSlab := whichSlab, inSlabIndex := inSlabIndex + 1 },
    at_.drop len)

/-- Each turn takes at least two bytes of the input, so `fuel` can be its length. -/
def Scan.loop (desc : MessageDescriptor) : Nat → Scan → Bytes → Except Stop Scan
  | _, scan, [] => .ok scan
  | 0, _, _ :: _ => .error .undefined
  | fuel + 1, scan, b :: l => do
    let (scan, at_) ← scan.turn desc (b :: l)
    Scan.loop desc fuel scan at_

def isMissing (required : List Nat) (f : Nat) (field : FieldDescriptor) : Bool :=
  field.label = .required && field.default.isNone && f ∉ required

/-! ### Numbers -/

/-- Numbers by their type, from the bytes of one. -/
def scalarParse (t : FieldType) (data : Bytes) : Except Stop Elt :=
  match t with
  | .enum | .int32 => (parseInt32 data).map .word32
  | .uint32 => (parseUint32 data).map .word32
  | .sint32 => (parseUint32 data).map fun v => .word32 (unzigzag32 v)
  | .sfixed32 | .fixed32 | .float => (parseFixedUint32 data).map .word32
  | .int64 | .uint64 => (parseUint64 data).map .word64
  | .sint64 => (parseUint64 data).map fun v => .word64 (unzigzag64 v)
  | .sfixed64 | .fixed64 | .double => (parseFixedUint64 data).map .word64
  | .bool => .ok (.word32 (parseBoolean data))
  | .string | .bytes | .message => .error .undefined

/-- An element written to an array with room for `cap`. -/
def pushElt (cap : Nat) (elts : List Elt) (e : Elt) : Except Stop (List Elt) :=
  if elts.length < cap then .ok (elts ++ [e]) else .error .undefined

def packedVarints (t : FieldType) (cap : Nat) : Nat → List Elt → Bytes → Except Stop (List Elt)
  | _, elts, [] => .ok elts
  | 0, _, _ :: _ => .error .undefined
  | fuel + 1, elts, b :: l => do
    let s ← orFail (scanVarint (b :: l))
    let e ← scalarParse t ((b :: l).take s)
    let elts ← pushElt cap elts e
    packedVarints t cap fuel elts ((b :: l).drop s)

/-- `memcpy` of `count` words of `size` bytes. -/
def packedWords (t : FieldType) (size cap : Nat) : Nat → List Elt → Bytes → Except Stop (List Elt)
  | 0, elts, _ => .ok elts
  | count + 1, elts, at_ => do
    let e ← scalarParse t (at_.take size)
    let elts ← pushElt cap elts e
    packedWords t size cap count elts (at_.drop size)

def parsePackedRepeatedMember (t : FieldType) (cap : Nat) (elts : List Elt) (s : ScannedMember) :
    Except Stop (List Elt) :=
  match t with
  | .sfixed32 | .fixed32 | .float => packedWords t 4 cap (s.payload.length / 4) elts s.payload
  | .sfixed64 | .fixed64 | .double => packedWords t 8 cap (s.payload.length / 8) elts s.payload
  | .string | .bytes | .message => .error .undefined
  | _ => packedVarints t cap s.payload.length elts s.payload

/-! ### Elements at their start -/

def zeroElt : FieldType → Elt
  | .int64 | .sint64 | .sfixed64 | .uint64 | .fixed64 | .double => .word64 0
  | .string => .string .null
  | .bytes => .bytes (.null 0)
  | .message => .message none
  | _ => .word32 0

def initElt (field : FieldDescriptor) : Elt :=
  match field.default with
  | none => zeroElt field.type
  | some (.word32 v) => .word32 v
  | some (.word64 v) => .word64 v
  | some (.string x) => .string (.static x)
  | some (.bytes x) => .bytes (.static x)

def initMember (field : FieldDescriptor) : Member :=
  if field.label = .repeated then .repeated [] else .single 0 (initElt field)

/-- `message_init_generic`. The functions that `protoc` writes do the same but in a oneof, where the storage that
the members share starts at zero whatever their defaults are. Here each member has its own, and only the one that
the case word names is looked at. -/
def messageInitGeneric (D : Descriptors) (desc : DescId) : Message :=
  .mk desc ((D desc).fields.map initMember) (List.replicate (D desc).nOneofs 0) []

/-! ### Merging an earlier message into a later one -/

namespace Member

def elt? : Member → Option Elt
  | .single _ e => some e
  | .repeated _ => none

def has? : Member → Option UInt32
  | .single has _ => some has
  | .repeated _ => none

def elts? : Member → Option (List Elt)
  | .single _ _ => none
  | .repeated elts => some elts

def withElt (e : Elt) : Member → Member
  | .single has _ => .single has e
  | .repeated elts => .repeated elts

def withHas (has : UInt32) : Member → Member
  | .single _ e => .single has e
  | .repeated elts => .repeated elts

def withElts (elts : List Elt) : Member → Member
  | .single has e => .single has e
  | .repeated _ => .repeated elts

end Member

namespace Message

def elt? (m : Message) (i : Nat) : Option Elt := m.members[i]?.bind Member.elt?

def has? (m : Message) (i : Nat) : Option UInt32 := m.members[i]?.bind Member.has?

def elts? (m : Message) (i : Nat) : Option (List Elt) := m.members[i]?.bind Member.elts?

def setMember (m : Message) (i : Nat) (f : Member → Member) : Message :=
  .mk m.desc (m.members.modify i f) m.cases m.unknown

def setElt (m : Message) (i : Nat) (e : Elt) : Message := m.setMember i (.withElt e)

def setHas (m : Message) (i : Nat) (has : UInt32) : Message := m.setMember i (.withHas has)

def setElts (m : Message) (i : Nat) (elts : List Elt) : Message := m.setMember i (.withElts elts)

def setCase (m : Message) (i : Nat) (v : UInt32) : Message := .mk m.desc m.members (m.cases.set i v) m.unknown

def addUnknown (m : Message) (u : UnknownField) : Message := .mk m.desc m.members m.cases (m.unknown ++ [u])

/-- The word at `quantifier_offset` of field `i`. -/
def quantifier? (m : Message) (i : Nat) (field : FieldDescriptor) : Option UInt32 :=
  (m.has? i).map (quantifierWord field m.cases)

def setQuantifier (m : Message) (i : Nat) (field : FieldDescriptor) (v : UInt32) : Message :=
  match field.oneof with
  | some c => m.setCase c v
  | none => if field.quantifier then m.setHas i v else m

end Message

def orUndefined {α : Type} : Option α → Except Stop α
  | none => .error .undefined
  | some a => .ok a

/-- `data` of bytes is neither NULL nor that of the default. -/
def ownData (field : FieldDescriptor) : BinaryData → Bool
  | .null _ => false
  | .static x => field.default ≠ some (.bytes x)
  | .heap _ => true

/-- The pointer is that of the default. -/
def isDefault (field : FieldDescriptor) : Pointer → Bool
  | .null => field.default.isNone
  | .static x => field.default = some (.string x)
  | .heap _ => false

/-- Whether an element of the earlier message is moved to the later one: two messages are merged instead. -/
def needToMerge (field : FieldDescriptor) (earlierCase latterCase : UInt32) : Elt → Elt → Option Bool
  | .message none, .message _ => some false
  | .message (some _), .message lm => some lm.isNone
  | .bytes e, .bytes l => some (ownData field e && !ownData field l)
  | .string e, .string l => some (!isDefault field e && isDefault field l)
  | .word32 _, .word32 _ => some (earlierCase ≠ 0 && latterCase = 0)
  | .word64 _, .word64 _ => some (earlierCase ≠ 0 && latterCase = 0)
  | _, _ => none

/-- The repeated field of both, and nothing is left of it in the earlier message. -/
def mergeRepeated (i : Nat) (earlier latter : Message) : Except Stop (Message × Message) := do
  let earlierElts ← orUndefined (earlier.elts? i)
  let latterElts ← orUndefined (latter.elts? i)
  return (earlier.setElts i [], latter.setElts i (earlierElts ++ latterElts))

/-- The element goes from one message to the other, and the word with it that says it is there. -/
def moveElt (i j : Nat) (loopField field : FieldDescriptor) (earlierCase : UInt32) (e : Elt) (earlier latter : Message) :
    Message × Message :=
  let earlier := earlier.setElt j (zeroElt field.type)
  let latter := latter.setElt j e
  if field.oneof.isSome || field.quantifier then
    (earlier.setQuantifier i loopField 0, latter.setQuantifier i loopField earlierCase)
  else (earlier, latter)

/-- `i` is the field the loop is at, `j` is that field or the one of its oneof that is set. -/
def mergeElt (merge : Message → Message → Except Stop (Message × Message)) (D : Descriptors) (i j : Nat)
    (earlier latter : Message) : Except Stop (Message × Message) := do
  let loopField ← orUndefined (D latter.desc).fields[i]?
  let field ← orUndefined (D latter.desc).fields[j]?
  let earlierCase ← orUndefined (earlier.quantifier? i loopField)
  let latterCase ← orUndefined (latter.quantifier? i loopField)
  let e ← orUndefined (earlier.elt? j)
  let l ← orUndefined (latter.elt? j)
  match e, l with
  | .message (some em), .message (some lm) =>
    let (em, lm) ← merge em lm
    return (earlier.setElt j (.message (some em)), latter.setElt j (.message (some lm)))
  | e, l =>
    let need ← orUndefined (needToMerge field earlierCase latterCase e l)
    return if need then moveElt i j loopField field earlierCase e earlier latter else (earlier, latter)

/-- A oneof that is set in the later message is left as it is. -/
def mergeSingle (merge : Message → Message → Except Stop (Message × Message)) (D : Descriptors) (i : Nat)
    (field : FieldDescriptor) (earlier latter : Message) : Except Stop (Message × Message) :=
  match field.oneof with
  | none => mergeElt merge D i i earlier latter
  | some c =>
    if latter.cases.getD c 0 ≠ 0 then .ok (earlier, latter)
    else do
      let j ← orFail (intRangeLookup (D latter.desc).fieldRanges (toInt (earlier.cases.getD c 0)))
      mergeElt merge D i j earlier latter

def mergeField (merge : Message → Message → Except Stop (Message × Message)) (D : Descriptors) (i : Nat)
    (earlier latter : Message) : Except Stop (Message × Message) := do
  let field ← orUndefined (D latter.desc).fields[i]?
  match field.label with
  | .required => .ok (earlier, latter)
  | .repeated => mergeRepeated i earlier latter
  | _ => mergeSingle merge D i field earlier latter

def mergeFields (merge : Message → Message → Except Stop (Message × Message)) (D : Descriptors) :
    List Nat → Message → Message → Except Stop (Message × Message)
  | [], earlier, latter => .ok (earlier, latter)
  | i :: is, earlier, latter => do
    let (earlier, latter) ← mergeField merge D i earlier latter
    mergeFields merge D is earlier latter

/-- What is left of the earlier message, and the merged one; messages are not nested deeper than `fuel`. -/
def mergeMessages (D : Descriptors) : Nat → Message → Message → Except Stop (Message × Message)
  | 0, _, _ => .error .undefined
  | fuel + 1, earlier, latter =>
    mergeFields (mergeMessages D fuel) D (List.range (D latter.desc).fields.length) earlier latter

/-! ### Parsing the members -/

/-- The member that the oneof had is cleared, and so is the place of the new one. -/
def clearOneof (D : Descriptors) (i c : Nat) (field : FieldDescriptor) (m : Message) : Except Stop Message :=
  if m.cases.getD c 0 ≠ 0 then do
    let j ← orFail (intRangeLookup (D m.desc).fieldRanges (toInt (m.cases.getD c 0)))
    let oldField ← orUndefined (D m.desc).fields[j]?
    return (m.setElt j (zeroElt oldField.type)).setElt i (zeroElt field.type)
  else .ok m

section
variable (unpack : DescId → Bytes → Except Stop Message) (merge : Message → Message → Except Stop (Message × Message))

/-- The element that is there now is looked at only when it may have to be cleared. -/
def parseRequiredMember (field : FieldDescriptor) (s : ScannedMember) (old : Option Elt) : Except Stop Elt :=
  match field.type with
  -- whatever its wire type is, and with a length in front if there is one
  | .bool => .ok (.word32 (parseBoolean s.data))
  | .string => if s.wireType ≠ 2 then .error .failed else .ok (.string (.heap (s.payload ++ [0])))
  | .bytes =>
    if s.wireType ≠ 2 then .error .failed
    else .ok (.bytes (if s.data.length > s.lengthPrefixLen then .heap s.payload else .null 0))
  | .message =>
    if s.wireType ≠ 2 then .error .failed
    else do
      let subm ← unpack field.descriptor s.payload
      match old with
      | some (.message (some m)) =>
        let (_, subm) ← merge m subm
        return .message (some subm)
      | _ => return .message (some subm)
  | t => if s.wireType ≠ t.wireType then .error .failed else scalarParse t s.data

def parseOptionalMember (i : Nat) (field : FieldDescriptor) (s : ScannedMember) (m : Message) : Except Stop Message := do
  let old ← orUndefined (m.elt? i)
  let e ← parseRequiredMember unpack merge field s (some old)
  let m := m.setElt i e
  return if field.quantifier then m.setHas i 1 else m

def parseOneofMember (D : Descriptors) (i c : Nat) (field : FieldDescriptor) (s : ScannedMember) (m : Message) :
    Except Stop Message := do
  let m ← clearOneof D i c field m
  let old ← orUndefined (m.elt? i)
  let e ← parseRequiredMember unpack merge field s (some old)
  return (m.setElt i e).setCase c s.tag

def parseRepeatedMember (cap i : Nat) (field : FieldDescriptor) (s : ScannedMember) (m : Message) :
    Except Stop Message := do
  let elts ← orUndefined (m.elts? i)
  if comesPacked field s.wireType then
    let elts ← parsePackedRepeatedMember field.type cap elts s
    return m.setElts i elts
  else
    let e ← parseRequiredMember unpack merge field s none
    let elts ← pushElt cap elts e
    return m.setElts i elts

def parseMember (D : Descriptors) (nUnknown : Nat) (caps : List Nat) (s : ScannedMember) (m : Message) :
    Except Stop Message := do
  match s.field with
  | none =>
    if m.unknown.length < nUnknown then return m.addUnknown ⟨s.tag, s.wireType, s.data⟩ else .error .undefined
  | some i =>
    let field ← orUndefined (D m.desc).fields[i]?
    match field.label with
    | .required => do
      let old ← orUndefined (m.elt? i)
      let e ← parseRequiredMember unpack merge field s (some old)
      return m.setElt i e
    | .repeated => parseRepeatedMember unpack merge (caps.getD i 0) i field s m
    | _ =>
      match field.oneof with
      | some c => parseOneofMember unpack merge D i c field s m
      | none => parseOptionalMember unpack merge i field s m

def parseMembers (D : Descriptors) (nUnknown : Nat) (caps : List Nat) :
    List ScannedMember → Message → Except Stop Message
  | [], m => .ok m
  | s :: ss, m => do
    let m ← parseMember unpack merge D nUnknown caps s m
    parseMembers D nUnknown caps ss m

end

/-- `protobuf_c_message_unpack` where messages are not nested deeper than `fuel`. The size of an array is cut to
`unsigned`. -/
def unpackNested (D : Descriptors) : Nat → DescId → Bytes → Except Stop Message
  | 0, _, _ => .error .undefined
  | fuel + 1, desc, data => do
    let scan ← Scan.loop (D desc) data.length (Scan.start (D desc)) data
    if (D desc).fields.zipIdx.any fun (field, f) => isMissing scan.required f field then .error .failed
    else
      parseMembers (unpackNested D fuel) (mergeMessages D fuel) D scan.nUnknown (scan.counts.map (· % 2 ^ 32))
        scan.members (messageInitGeneric D desc)

def messageUnpack (D : Descriptors) (desc : DescId) (data : Bytes) : Except Stop Message :=
  unpackNested D (data.length + 1) desc data

end ProtobufC
end CmetricsRuby
