import CmetricsRuby.ProtobufC.Wire

/-!
# Messages and their descriptors

A message is its descriptor, a member for each field of it, a case word for each of its oneofs, and the unknown
fields. Descriptors refer to each other, so they stand in a table. A repeated member is the list of its elements;
arrays of `2 ^ 32` elements and more are left out, and so are default messages, which no descriptor has.
-/

namespace CmetricsRuby
namespace ProtobufC

inductive FieldType
  | int32
  | sint32
  | sfixed32
  | int64
  | sint64
  | sfixed64
  | uint32
  | fixed32
  | uint64
  | fixed64
  | float
  | double
  | bool
  | enum
  | string
  | bytes
  | message
deriving DecidableEq

inductive Label
  | required
  | optional
  | repeated
  | none
deriving DecidableEq

/-- Where `default_value` points to. -/
inductive Default
  | word32 (v : UInt32)
  | word64 (v : UInt64)
  | string (x : Bytes)
  | bytes (x : Bytes)
deriving DecidableEq

abbrev DescId := Nat

structure FieldDescriptor where
  name : CStr
  id : UInt32
  label : Label
  type : FieldType
  /-- `quantifier_offset` is not 0. -/
  quantifier : Bool
  /-- The oneof that a field with `PROTOBUF_C_FIELD_FLAG_ONEOF` belongs to, by its case word. -/
  oneof : Option Nat
  packed : Bool
  descriptor : DescId
  default : Option Default

/-- `startValue` and the values behind it, for the fields from `origIndex` on. -/
structure IntRange where
  startValue : Int
  origIndex : Nat
deriving DecidableEq

structure MessageDescriptor where
  fields : List FieldDescriptor
  /-- NULL for code that is optimized for size. -/
  fieldsSortedByName : Option (List Nat)
  /-- One more than `n_field_ranges`; the last only says where the one before it ends. -/
  fieldRanges : List IntRange
  /-- How many case words there are. -/
  nOneofs : Nat

abbrev Descriptors := DescId → MessageDescriptor

/-- A pointer to a C string, or to bytes: static ones are defaults. -/
inductive Pointer
  | null
  | static (x : Bytes)
  | heap (x : Bytes)
deriving DecidableEq

/-- What a `len` goes with is read only as far as `len`; at NULL it may be anything. -/
inductive BinaryData
  | null (len : Nat)
  | static (x : Bytes)
  | heap (x : Bytes)
deriving DecidableEq

structure UnknownField where
  tag : UInt32
  wireType : UInt8
  data : Bytes
deriving DecidableEq

mutual

inductive Elt
  | word32 (v : UInt32)
  | word64 (v : UInt64)
  | string (p : Pointer)
  | bytes (b : BinaryData)
  | message (p : Option Message)

/-- `has` is the word of the quantifier, where there is one and it is not a case word. -/
inductive Member
  | single (has : UInt32) (e : Elt)
  | repeated (elts : List Elt)

inductive Message
  | mk (desc : DescId) (members : List Member) (cases : List UInt32) (unknown : List UnknownField)

end

namespace Message

def desc : Message → DescId
  | .mk desc _ _ _ => desc

def members : Message → List Member
  | .mk _ members _ _ => members

def cases : Message → List UInt32
  | .mk _ _ cases _ => cases

def unknown : Message → List UnknownField
  | .mk _ _ _ unknown => unknown

end Message

/-- Where there is no quantifier, what is read as one is the low half of the address of the descriptor, which
is a multiple of 8. -/
def descriptorWord : UInt32 := 8

/-- The word at `quantifier_offset` of a field that is not repeated. -/
def quantifierWord (field : FieldDescriptor) (cases : List UInt32) (has : UInt32) : UInt32 :=
  match field.oneof with
  | some i => cases.getD i 0
  | none => if field.quantifier then has else descriptorWord

namespace Pointer

/-- The bytes of the C string, none of them at NULL. -/
def chars : Pointer → Bytes
  | .null => []
  | .static x | .heap x => (CStr.ofPtr x).bytes

end Pointer

namespace BinaryData

def len : BinaryData → Nat
  | .null len => len
  | .static x | .heap x => x.length

/-- What `memcpy` of `len` bytes copies; from NULL there is only nothing to copy. -/
def data? : BinaryData → Option Bytes
  | .null len => if len = 0 then some [] else none
  | .static x | .heap x => some x

theorem length_of_data? {b : BinaryData} {x : Bytes} (h : b.data? = some x) : b.len = x.length := by
  cases b with
  | null len =>
    rw [data?] at h
    split_ifs at h with hlen
    cases h
    exact hlen
  | _ =>
    cases h
    rfl

end BinaryData

/-! ### What is left out when a message is packed -/

def fieldIsZeroish (field : FieldDescriptor) : Elt → Bool
  | .word32 v =>
    match field.type with
    | .float => v = 0 || v = 0x80000000
    | _ => v = 0
  | .word64 v =>
    match field.type with
    | .double => v = 0 || v = 0x8000000000000000
    | _ => v = 0
  | .string p => p.chars = []
  -- the pointer that is compared with NULL is where the length is
  | .bytes b => b.len = 0
  | .message p => p.isNone

/-- A String or a message that is NULL or the default is not there. -/
def pointerIsSet (field : FieldDescriptor) : Elt → Bool
  | .string .null => false
  | .string (.static x) => field.default ≠ some (.string x)
  | .message p => p.isSome
  | _ => true

def FieldType.isPointer : FieldType → Bool
  | .message | .string => true
  | _ => false

def oneofFieldIsSet (field : FieldDescriptor) (oneofCase : UInt32) (e : Elt) : Bool :=
  oneofCase = field.id && (!field.type.isPointer || pointerIsSet field e)

def optionalFieldIsSet (field : FieldDescriptor) (has : UInt32) (e : Elt) : Bool :=
  if field.type.isPointer then pointerIsSet field e else has ≠ 0

def unlabeledFieldIsSet (field : FieldDescriptor) (e : Elt) : Bool := !fieldIsZeroish field e

/-- Whether a member that is not repeated is packed. -/
def fieldIsSet (field : FieldDescriptor) (cases : List UInt32) (has : UInt32) (e : Elt) : Bool :=
  match field.label, field.oneof with
  | .required, _ => true
  | _, some i => oneofFieldIsSet field (cases.getD i 0) e
  | .optional, none => optionalFieldIsSet field (quantifierWord field cases has) e
  | _, none => unlabeledFieldIsSet field e

/-! ### `protobuf_c_message_check` -/

/-- A member of a oneof that is not the one that is set. -/
def unpopulated (field : FieldDescriptor) (cases : List UInt32) : Bool :=
  match field.oneof with
  | some i => field.id ≠ cases.getD i 0
  | none => false

mutual

def messageCheck (D : Descriptors) : Message → Bool
  | .mk desc members cases _ => membersCheck D cases (D desc).fields members

def membersCheck (D : Descriptors) (cases : List UInt32) : List FieldDescriptor → List Member → Bool
  | field :: fields, member :: members => memberCheck D field cases member && membersCheck D cases fields members
  | _, _ => true

def memberCheck (D : Descriptors) (field : FieldDescriptor) (cases : List UInt32) : Member → Bool
  | .single has e => unpopulated field cases || singleCheck D field (quantifierWord field cases has) e
  | .repeated elts => unpopulated field cases || eltsCheck D elts

def singleCheck (D : Descriptors) (field : FieldDescriptor) (has : UInt32) : Elt → Bool
  | .message none => field.label ≠ .required
  | .message (some m) => messageCheck D m
  | .string p => !(field.label = .required && p = .null)
  | .bytes (.null len) => !((field.label = .required || has = 1) && 0 < len)
  | _ => true

def eltsCheck (D : Descriptors) : List Elt → Bool
  | [] => true
  | e :: elts => eltCheck D e && eltsCheck D elts

def eltCheck (D : Descriptors) : Elt → Bool
  | .message none => false
  | .message (some m) => messageCheck D m
  | .string p => p ≠ .null
  | .bytes (.null len) => len = 0
  | _ => true

end

end ProtobufC
end CmetricsRuby
