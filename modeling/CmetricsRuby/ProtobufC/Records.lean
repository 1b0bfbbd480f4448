import CmetricsRuby.ProtobufC.Pack

/-!
# What a packed message is

A message on the wire is a list of records, each a tag with its wire type and what follows. `records` says which
ones a message has, without a word about sizes, addresses or buffers.
-/

namespace CmetricsRuby
namespace ProtobufC

open Base128 (encode)

structure Record where
  tag : UInt32
  wireType : UInt8
  payload : Bytes
deriving DecidableEq

def Record.bytes (r : Record) : Bytes := header r.tag r.wireType ++ r.payload

def bytesOf (rs : List Record) : Bytes := rs.flatMap Record.bytes

def delimited (x : Bytes) : Bytes := encode x.length ++ x

def scalarsPack (t : FieldType) (elts : List Elt) : Option Bytes := do
  let xs ← elts.mapM (scalarPack t)
  return xs.flatten

def UnknownField.record (u : UnknownField) : Record := ⟨u.tag, u.wireType, u.data⟩

mutual

def records (D : Descriptors) : Message → Option (List Record)
  | .mk desc members cases unknown => do
    let rs ← membersRecords D cases (D desc).fields members
    return rs ++ unknown.map UnknownField.record

def membersRecords (D : Descriptors) (cases : List UInt32) : List FieldDescriptor → List Member → Option (List Record)
  | [], _ => some []
  | _ :: _, [] => none
  | field :: fields, member :: members => do
    let r ← memberRecords D cases field member
    let rs ← membersRecords D cases fields members
    return r ++ rs

def memberRecords (D : Descriptors) (cases : List UInt32) (field : FieldDescriptor) : Member → Option (List Record)
  | .single has e =>
    if field.label = .repeated then none
    else if fieldIsSet field cases has e then do
      let x ← payload D field.type false e
      return [⟨field.id, field.type.wireType, x⟩]
    else some []
  | .repeated elts =>
    if field.label ≠ .repeated then none
    else if field.packed then
      if elts.isEmpty then some []
      else do
        let x ← scalarsPack field.type elts
        return [⟨field.id, 2, delimited x⟩]
    else eltsRecords D field elts

/-- A String or message that is NULL is an empty one, but not in an array. -/
def payload (D : Descriptors) (t : FieldType) (repeated : Bool) : Elt → Option Bytes
  | .string p =>
    if t = .string then
      if repeated && p = .null then none else some (delimited p.chars)
    else none
  | .bytes b => if t = .bytes then b.data?.map delimited else none
  | .message p =>
    if t = .message then
      match p with
      | none => if repeated then none else some (delimited [])
      | some m => (records D m).map fun rs => delimited (bytesOf rs)
    else none
  | .word32 v => scalarPack t (.word32 v)
  | .word64 v => scalarPack t (.word64 v)

def eltsRecords (D : Descriptors) (field : FieldDescriptor) : List Elt → Option (List Record)
  | [] => some []
  | e :: elts => do
    let x ← payload D field.type true e
    let rs ← eltsRecords D field elts
    return ⟨field.id, field.type.wireType, x⟩ :: rs

end

section
variable {D : Descriptors} {rs : List Record}

theorem records_mk {desc : DescId} {members : List Member} {cases : List UInt32} {unknown : List UnknownField}
    (h : records D (.mk desc members cases unknown) = some rs) :
    ∃ rs', membersRecords D cases (D desc).fields members = some rs' ∧ rs = rs' ++ unknown.map UnknownField.record := by
  rw [records] at h
  obtain ⟨rs', hrs', h⟩ := Option.bind_eq_some_iff.1 h
  cases h
  exact ⟨rs', hrs', rfl⟩

theorem membersRecords_cons {cases : List UInt32} {field : FieldDescriptor} {fields : List FieldDescriptor}
    {member : Member} {members : List Member}
    (h : membersRecords D cases (field :: fields) (member :: members) = some rs) :
    ∃ r rs', memberRecords D cases field member = some r ∧ membersRecords D cases fields members = some rs' ∧
      rs = r ++ rs' := by
  rw [membersRecords] at h
  obtain ⟨r, hr, h⟩ := Option.bind_eq_some_iff.1 h
  obtain ⟨rs', hrs', h⟩ := Option.bind_eq_some_iff.1 h
  cases h
  exact ⟨r, rs', hr, hrs', rfl⟩

theorem eltsRecords_cons {field : FieldDescriptor} {e : Elt} {elts : List Elt}
    (h : eltsRecords D field (e :: elts) = some rs) :
    ∃ x rs', payload D field.type true e = some x ∧ eltsRecords D field elts = some rs' ∧
      rs = ⟨field.id, field.type.wireType, x⟩ :: rs' := by
  rw [eltsRecords] at h
  obtain ⟨x, hx, h⟩ := Option.bind_eq_some_iff.1 h
  obtain ⟨rs', hrs', h⟩ := Option.bind_eq_some_iff.1 h
  cases h
  exact ⟨x, rs', hx, hrs', rfl⟩

end

/-! ### What the types of a program promise -/

/-- Bytes at NULL have no length, or are where `protobuf_c_message_check` looks for them. -/
def nullIsSeen (field : FieldDescriptor) (has : UInt32) : Elt → Bool
  | .bytes (.null len) =>
    len = 0 || field.oneof = none &&
      (field.label = .required || field.label = .optional && field.quantifier && (has = 0 || has = 1))
  | _ => true

mutual

/-- There is a member of the right type for each field, and only numbers are packed in one record. -/
def wellTyped (D : Descriptors) : Message → Bool
  | .mk desc members _ _ => membersTyped D (D desc).fields members

def membersTyped (D : Descriptors) : List FieldDescriptor → List Member → Bool
  | [], [] => true
  | field :: fields, member :: members => memberTyped D field member && membersTyped D fields members
  | _, _ => false

def memberTyped (D : Descriptors) (field : FieldDescriptor) : Member → Bool
  | .single has e =>
    field.label ≠ .repeated && (field.label ≠ .required || field.oneof = none) && eltTyped D field.type e &&
      nullIsSeen field has e
  | .repeated elts =>
    field.label = .repeated && field.oneof = none && (!field.packed || isPackableType field.type) &&
      eltsTyped D field.type elts

def eltTyped (D : Descriptors) (t : FieldType) : Elt → Bool
  | .word32 v => (scalarPack t (.word32 v)).isSome
  | .word64 v => (scalarPack t (.word64 v)).isSome
  | .string _ => t = .string
  | .bytes _ => t = .bytes
  | .message none => t = .message
  | .message (some m) => t = .message && wellTyped D m

def eltsTyped (D : Descriptors) (t : FieldType) : List Elt → Bool
  | [] => true
  | e :: elts => eltTyped D t e && eltsTyped D t elts

end

end ProtobufC
end CmetricsRuby
