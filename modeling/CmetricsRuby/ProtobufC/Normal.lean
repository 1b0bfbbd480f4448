import CmetricsRuby.ProtobufC.Unpack
import CmetricsRuby.ProtobufC.Records

/-!
# What is left of a message

`normal` is the message that is unpacked from a packed one: what was not packed is as it is at the start, an element
that was packed is in memory of its own, and the words that say what is there are those of the records. A message is
`Whole` when its parts go with its descriptor.
-/

namespace CmetricsRuby
namespace ProtobufC

open Base128

def normalCase (cases : List UInt32) (field : FieldDescriptor) (member : Member) (words : List UInt32) : List UInt32 :=
  match member, field.oneof with
  | .single has e, some c => if fieldIsSet field cases has e then words.set c field.id else words
  | _, _ => words

/-- The case words, from those that are left of the members before. -/
def normalCases (cases : List UInt32) : List FieldDescriptor → List Member → List UInt32 → List UInt32
  | field :: fields, member :: members, words => normalCases cases fields members (normalCase cases field member words)
  | _, _, words => words

mutual

def normal (D : Descriptors) : Message → Message
  | .mk desc members cases unknown =>
    .mk desc (normalMembers D cases (D desc).fields members)
      (normalCases cases (D desc).fields members (List.replicate (D desc).nOneofs 0)) unknown

def normalMembers (D : Descriptors) (cases : List UInt32) : List FieldDescriptor → List Member → List Member
  | field :: fields, member :: members => normalMember D cases field member :: normalMembers D cases fields members
  | _, _ => []

def normalMember (D : Descriptors) (cases : List UInt32) (field : FieldDescriptor) : Member → Member
  | .single has e =>
    if fieldIsSet field cases has e then
      .single (if field.label ≠ .required && field.oneof.isNone && field.quantifier then 1 else 0)
        (normalElt D field.type e)
    else initMember field
  | .repeated elts => .repeated (normalElts D field.type elts)

/-- A String ends at its first NUL, and what is true is 1. -/
def normalElt (D : Descriptors) (t : FieldType) : Elt → Elt
  | .word32 v => .word32 (if t = .bool && v ≠ 0 then 1 else v)
  | .word64 v => .word64 v
  | .string p => .string (.heap (p.chars ++ [0]))
  | .bytes b => .bytes (if b.len = 0 then .null 0 else .heap (b.data?.getD []))
  | .message none => .message none
  | .message (some m) => .message (some (normal D m))

def normalElts (D : Descriptors) (t : FieldType) : List Elt → List Elt
  | [] => []
  | e :: elts => normalElt D t e :: normalElts D t elts

end

/-- What can follow a tag with a wire type. -/
inductive IsPayload (wireType : UInt8) (x : Bytes) : Prop
  | varint : wireType = 0 → Terminated x → x.length ≤ 10 → IsPayload wireType x
  | word64 : wireType = 1 → x.length = 8 → IsPayload wireType x
  | delimited (y : Bytes) : wireType = 2 → x = delimited y → IsPayload wireType x
  | word32 : wireType = 5 → x.length = 4 → IsPayload wireType x

/-- A field that is not one of the descriptor's. -/
structure UnknownField.Foreign (desc : MessageDescriptor) (u : UnknownField) : Prop where
  tag : u.tag ≠ 0
  field : ∀ field ∈ desc.fields, field.id ≠ u.tag
  payload : IsPayload u.wireType u.data

mutual

/-- There is a member for each field, messages are of the descriptors of their fields, and what is unknown is. -/
def Whole (D : Descriptors) : Message → Prop
  | .mk desc members cases unknown =>
    MembersWhole D cases (D desc).fields members ∧ ∀ u ∈ unknown, u.Foreign (D desc)

def MembersWhole (D : Descriptors) (cases : List UInt32) : List FieldDescriptor → List Member → Prop
  | [], [] => True
  | field :: fields, member :: members => MemberWhole D cases field member ∧ MembersWhole D cases fields members
  | _, _ => False

def MemberWhole (D : Descriptors) (cases : List UInt32) (field : FieldDescriptor) : Member → Prop
  | .single has e => fieldIsSet field cases has e = true → EltWhole D field e
  | .repeated elts => EltsWhole D field elts

def EltWhole (D : Descriptors) (field : FieldDescriptor) : Elt → Prop
  | .message none => False
  | .message (some m) => m.desc = field.descriptor ∧ Whole D m
  | _ => True

def EltsWhole (D : Descriptors) (field : FieldDescriptor) : List Elt → Prop
  | [] => True
  | e :: elts => EltWhole D field e ∧ EltsWhole D field elts

end

end ProtobufC
end CmetricsRuby
