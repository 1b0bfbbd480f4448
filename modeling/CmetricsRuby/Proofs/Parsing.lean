import CmetricsRuby.Proofs.Scanning

/-!
# What is unpacked

Whatever the input is, unpacking comes to NULL or to a message of its descriptor, with every member of the type of
its field and every required one there: each element is read inside its member and written inside its array. Merging
takes two such messages to such a message.
-/

namespace CmetricsRuby
namespace ProtobufC

/-! ### Descriptors -/

def defaultFits (t : FieldType) : Default → Bool
  | .word32 v => (scalarPack t (.word32 v)).isSome
  | .word64 v => (scalarPack t (.word64 v)).isSome
  | .string _ => t = .string
  | .bytes _ => t = .bytes

/-- A field as `protoc` writes it, with no default in a oneof. -/
structure FieldDescriptor.WellFormed (field : FieldDescriptor) : Prop where
  id : field.id ≠ 0
  idLt : field.id.toNat < 2 ^ 29
  default : field.default.all (defaultFits field.type) = true
  oneof : field.oneof ≠ none → field.label = .optional ∨ field.label = .none
  oneofDefault : field.oneof ≠ none → field.default = none
  packed : field.packed = true → isPackableType field.type = true

/-- No required field is in a oneof. -/
theorem FieldDescriptor.WellFormed.not_required {field : FieldDescriptor} (hf : field.WellFormed)
    (ho : field.oneof ≠ none) : field.label ≠ .required := by
  rcases hf.oneof ho with h | h <;> rw [h] <;> decide

/-- The members of a oneof are all zero at the start, as the storage is that they share. -/
theorem FieldDescriptor.WellFormed.initElt_oneof {field : FieldDescriptor} (hf : field.WellFormed)
    (ho : field.oneof ≠ none) : initElt field = zeroElt field.type := by
  rw [initElt, hf.oneofDefault ho]

structure MessageDescriptor.WellFormed (desc : MessageDescriptor) : Prop where
  indexed : desc.Indexed
  fields : ∀ field ∈ desc.fields, field.WellFormed

instance (field : FieldDescriptor) : Decidable field.WellFormed :=
  decidable_of_iff (field.id ≠ 0 ∧ field.id.toNat < 2 ^ 29 ∧ field.default.all (defaultFits field.type) = true ∧
      (field.oneof ≠ none → field.label = .optional ∨ field.label = .none) ∧
      (field.oneof ≠ none → field.default = none) ∧ (field.packed = true → isPackableType field.type = true))
    ⟨fun ⟨h₁, h₂, h₃, h₄, h₅, h₆⟩ => ⟨h₁, h₂, h₃, h₄, h₅, h₆⟩,
      fun ⟨h₁, h₂, h₃, h₄, h₅, h₆⟩ => ⟨h₁, h₂, h₃, h₄, h₅, h₆⟩⟩

instance (desc : MessageDescriptor) : Decidable desc.Indexed := inferInstanceAs (Decidable (RangesOf _ _))

instance (desc : MessageDescriptor) : Decidable desc.WellFormed :=
  decidable_of_iff (desc.Indexed ∧ ∀ field ∈ desc.fields, field.WellFormed)
    ⟨fun ⟨h₁, h₂⟩ => ⟨h₁, h₂⟩, fun ⟨h₁, h₂⟩ => ⟨h₁, h₂⟩⟩

/-! ### Messages whose members are of their types -/

section
variable (S : Message → Prop)

/-- `S` is what is known of the messages inside, and `there` that NULL will not do. -/
def EltOk (field : FieldDescriptor) (there : Prop) : Elt → Prop
  | .word32 v => ∃ x, scalarPack field.type (.word32 v) = some x
  | .word64 v => ∃ x, scalarPack field.type (.word64 v) = some x
  | .string p => field.type = .string ∧ (there → p ≠ .null)
  | .bytes b => field.type = .bytes ∧ ∀ len, b = .null len → len = 0
  | .message none => field.type = .message ∧ ¬there
  | .message (some m) => field.type = .message ∧ m.desc = field.descriptor ∧ S m

def MemberOk (field : FieldDescriptor) (there : Prop) : Member → Prop
  | .single _ e => field.label ≠ .repeated ∧ EltOk S field there e
  | .repeated elts => field.label = .repeated ∧ ∀ e ∈ elts, EltOk S field True e

/-- A oneof has none of its members or one that is in it. -/
structure MessageOk (D : Descriptors) (there : Nat → FieldDescriptor → Prop) (m : Message) : Prop where
  length : m.members.length = (D m.desc).fields.length
  members : ∀ i field member, (D m.desc).fields[i]? = some field → m.members[i]? = some member →
    MemberOk S field (there i field) member
  cases : ∀ c, m.cases.getD c 0 ≠ 0 →
    ∃ (j : Nat) (field : FieldDescriptor), (D m.desc).fields[j]? = some field ∧ field.id = m.cases.getD c 0 ∧ field.oneof = some c

end

def isRequired (_ : Nat) (field : FieldDescriptor) : Prop := field.label = .required

/-- Messages nested less deep than `n`. -/
def Sound (D : Descriptors) : Nat → Message → Prop
  | 0, _ => False
  | n + 1, m => MessageOk (Sound D n) D isRequired m

variable {S : Message → Prop} {D : Descriptors} {field : FieldDescriptor}

theorem EltOk.weaken {p q : Prop} {e : Elt} (h : EltOk S field p e) (hqp : q → p) : EltOk S field q e := by
  rcases e with v | v | p | b | _ | m
  · exact h
  · exact h
  · exact ⟨h.1, fun hq => h.2 (hqp hq)⟩
  · exact h
  · exact ⟨h.1, fun hq => h.2 (hqp hq)⟩
  · exact h

theorem MemberOk.weaken {p q : Prop} {member : Member} (h : MemberOk S field p member) (hqp : q → p) :
    MemberOk S field q member := by
  rcases member with ⟨has, e⟩ | elts
  · exact ⟨h.1, h.2.weaken hqp⟩
  · exact h

theorem eltOk_of_scalar {e : Elt} {there : Prop} (h : ∃ x, scalarPack field.type e = some x) : EltOk S field there e := by
  rcases e with v | v | p | b | p
  · exact h
  · exact h
  all_goals
    obtain ⟨x, hx⟩ := h
    cases hx

theorem eltOk_zero : EltOk S field False (zeroElt field.type) := by
  rcases ht : field.type <;>
    first
    | exact eltOk_of_scalar ⟨_, by rw [ht]; rfl⟩
    | exact ⟨ht, fun h => h.elim⟩
    | exact ⟨ht, id⟩
    | (refine ⟨ht, fun len h => ?_⟩; cases h; rfl)

theorem eltOk_init (hf : field.WellFormed) : EltOk S field (field.default.isSome = true) (initElt field) := by
  unfold initElt
  rcases hd : field.default with _ | d
  · exact eltOk_zero.weaken fun h => absurd h (by simp)
  · have hfits := hf.default
    rw [hd, Option.all_some] at hfits
    rcases d with v | v | x | x
    · exact eltOk_of_scalar (Option.isSome_iff_exists.1 hfits)
    · exact eltOk_of_scalar (Option.isSome_iff_exists.1 hfits)
    · exact ⟨of_decide_eq_true hfits, fun _ => Pointer.noConfusion⟩
    · exact ⟨of_decide_eq_true hfits, fun _ => BinaryData.noConfusion⟩

/-! ### Numbers -/

/-- Long enough to be read as a number, and not too long. -/
structure Readable (t : FieldType) (data : Bytes) : Prop where
  nonempty : data ≠ []
  varint : t.wireType = 0 → data.length ≤ 10
  word64 : t.wireType = 1 → 8 ≤ data.length
  word32 : t.wireType = 5 → 4 ≤ data.length

theorem parseFixedUint32_ok {data : Bytes} (h : 4 ≤ data.length) : ∃ v, parseFixedUint32 data = .ok v := by
  rcases data with _ | ⟨a, _ | ⟨b, _ | ⟨c, _ | ⟨d, l⟩⟩⟩⟩
  · simp at h
  · simp at h
  · simp at h
  · simp at h
  · exact ⟨_, rfl⟩

theorem parseFixedUint64_ok {data : Bytes} (h : 8 ≤ data.length) : ∃ v, parseFixedUint64 data = .ok v := by
  obtain ⟨lo, hlo⟩ := parseFixedUint32_ok (show 4 ≤ data.length by omega)
  obtain ⟨hi, hhi⟩ := parseFixedUint32_ok (show 4 ≤ (data.drop 4).length by rw [List.length_drop]; omega)
  exact ⟨_, by rw [parseFixedUint64, hlo, hhi]; rfl⟩

theorem scalarParse_safe {t : FieldType} (ht : isPackableType t = true) {data : Bytes} (h : Readable t data) :
    Safe (fun e => ∃ x, scalarPack t e = some x) (scalarParse t data) := by
  have h32 := parseUint32_eq h.nonempty
  rcases t <;> simp only [isPackableType, Bool.false_eq_true] at ht
  · rw [scalarParse, parseInt32, h32]
    exact .ok ⟨_, rfl⟩
  · rw [scalarParse, h32]
    exact .ok ⟨_, rfl⟩
  · obtain ⟨v, hv⟩ := parseFixedUint32_ok (h.word32 rfl)
    rw [scalarParse, hv]
    exact .ok ⟨_, rfl⟩
  · rw [scalarParse, parseUint64_eq h.nonempty (h.varint rfl)]
    exact .ok ⟨_, rfl⟩
  · rw [scalarParse, parseUint64_eq h.nonempty (h.varint rfl)]
    exact .ok ⟨_, rfl⟩
  · obtain ⟨v, hv⟩ := parseFixedUint64_ok (h.word64 rfl)
    rw [scalarParse, hv]
    exact .ok ⟨_, rfl⟩
  · rw [scalarParse, h32]
    exact .ok ⟨_, rfl⟩
  · obtain ⟨v, hv⟩ := parseFixedUint32_ok (h.word32 rfl)
    rw [scalarParse, hv]
    exact .ok ⟨_, rfl⟩
  · rw [scalarParse, parseUint64_eq h.nonempty (h.varint rfl)]
    exact .ok ⟨_, rfl⟩
  · obtain ⟨v, hv⟩ := parseFixedUint64_ok (h.word64 rfl)
    rw [scalarParse, hv]
    exact .ok ⟨_, rfl⟩
  · obtain ⟨v, hv⟩ := parseFixedUint32_ok (h.word32 rfl)
    rw [scalarParse, hv]
    exact .ok ⟨_, rfl⟩
  · obtain ⟨v, hv⟩ := parseFixedUint64_ok (h.word64 rfl)
    rw [scalarParse, hv]
    exact .ok ⟨_, rfl⟩
  · exact .ok ⟨_, rfl⟩
  · rw [scalarParse, parseInt32, h32]
    exact .ok ⟨_, rfl⟩

/-! ### Packed arrays -/

/-- What a packed member adds to an array. -/
def Adds (t : FieldType) (elts : List Elt) (n : Nat) (elts' : List Elt) : Prop :=
  ∃ xs, elts' = elts ++ xs ∧ xs.length ≤ n ∧ ∀ e ∈ xs, ∃ x, scalarPack t e = some x

theorem adds_nil (t : FieldType) (elts : List Elt) (n : Nat) : Adds t elts n elts :=
  ⟨[], (List.append_nil _).symm, Nat.zero_le _, fun _ he => absurd he List.not_mem_nil⟩

theorem Adds.cons {t : FieldType} {elts elts' : List Elt} {e : Elt} {n : Nat} (he : ∃ x, scalarPack t e = some x)
    (h : Adds t (elts ++ [e]) n elts') : Adds t elts (n + 1) elts' := by
  obtain ⟨xs, rfl, hlen, hxs⟩ := h
  refine ⟨e :: xs, by rw [List.append_assoc]; rfl, Nat.succ_le_succ hlen, ?_⟩
  intro e' he'
  rcases List.mem_cons.1 he' with rfl | he'
  · exact he
  · exact hxs e' he'

theorem pushElt_safe {cap : Nat} {elts : List Elt} {e : Elt} (h : elts.length < cap) :
    Safe (· = elts ++ [e]) (pushElt cap elts e) := by
  rw [pushElt, if_pos h]
  exact .ok rfl

theorem packedVarints_safe {t : FieldType} (ht : isPackableType t = true) (hw : t.wireType = 0) {cap fuel : Nat}
    {elts : List Elt} {rest : Bytes} (hcap : elts.length + maxB128Numbers rest ≤ cap) (hfuel : rest.length ≤ fuel) :
    Safe (Adds t elts (maxB128Numbers rest)) (packedVarints t cap fuel elts rest) := by
  induction fuel generalizing elts rest with
  | zero =>
    rw [List.length_eq_zero_iff.1 (Nat.le_zero.1 hfuel), packedVarints]
    exact .ok (adds_nil ..)
  | succ fuel ih =>
    rcases rest with _ | ⟨b, l⟩
    · rw [packedVarints]
      exact .ok (adds_nil ..)
    rw [packedVarints]
    refine safe_orFail.bind fun s hs => ?_
    obtain ⟨hpos, hten, hlen, hcount⟩ := scanVarint_some hs
    have htake : ((b :: l).take s).length = s := List.length_take_of_le hlen
    have hread : Readable t ((b :: l).take s) := by
      refine ⟨?_, fun _ => by omega, ?_, ?_⟩
      · rw [← List.length_pos_iff]
        omega
      · rw [hw]
        exact fun h => absurd h (by decide)
      · rw [hw]
        exact fun h => absurd h (by decide)
    refine (scalarParse_safe ht hread).bind fun e he => ?_
    refine (pushElt_safe (by omega)).bind ?_
    rintro _ rfl
    rw [hcount] at hcap ⊢
    refine (ih ?_ ?_).mono fun elts' h => h.cons he
    · rw [List.length_append, List.length_singleton]
      omega
    · rw [List.length_drop]
      omega

theorem packedWords_safe {t : FieldType} (ht : isPackableType t = true) {size : Nat}
    (hread : ∀ data : Bytes, data.length = size → Readable t data) {cap count : Nat} {elts : List Elt} {rest : Bytes}
    (hcap : elts.length + count ≤ cap) (hrest : count * size ≤ rest.length) :
    Safe (Adds t elts count) (packedWords t size cap count elts rest) := by
  induction count generalizing elts rest with
  | zero => exact .ok (adds_nil ..)
  | succ count ih =>
    rw [Nat.succ_mul] at hrest
    rw [packedWords]
    refine (scalarParse_safe ht (hread _ (List.length_take_of_le (by omega)))).bind fun e he => ?_
    refine (pushElt_safe (by omega)).bind ?_
    rintro _ rfl
    refine (ih ?_ ?_).mono fun elts' h => h.cons he
    · rw [List.length_append, List.length_singleton]
      omega
    · rw [List.length_drop]
      omega

theorem readable_word32 {t : FieldType} (hw : t.wireType = 5) {data : Bytes} (h : data.length = 4) : Readable t data := by
  refine ⟨by rw [← List.length_pos_iff]; omega, ?_, ?_, fun _ => by omega⟩
  · rw [hw]
    exact fun h => absurd h (by decide)
  · rw [hw]
    exact fun h => absurd h (by decide)

theorem readable_word64 {t : FieldType} (hw : t.wireType = 1) {data : Bytes} (h : data.length = 8) : Readable t data := by
  refine ⟨by rw [← List.length_pos_iff]; omega, ?_, fun _ => by omega, ?_⟩
  · rw [hw]
    exact fun h => absurd h (by decide)
  · rw [hw]
    exact fun h => absurd h (by decide)

/-- The scan counted at least as many elements as there are. -/
theorem parsePackedRepeatedMember_safe {t : FieldType} {s : ScannedMember} {n cap : Nat} {elts : List Elt}
    (hn : countPackedElements t s.payload = some n) (hcap : elts.length + n ≤ cap) :
    Safe (Adds t elts n) (parsePackedRepeatedMember t cap elts s) := by
  have hmax : maxB128Numbers s.payload ≤ s.payload.length := List.countP_le_length
  have hmul4 := Nat.div_mul_le_self s.payload.length 4
  have hmul8 := Nat.div_mul_le_self s.payload.length 8
  have h32 : isPackableType t = true → t.wireType = 5 → n = s.payload.length / 4 →
      Safe (Adds t elts n) (packedWords t 4 cap (s.payload.length / 4) elts s.payload) := by
    rintro ht hw rfl
    exact packedWords_safe ht (fun _ => readable_word32 hw) hcap hmul4
  have h64 : isPackableType t = true → t.wireType = 1 → n = s.payload.length / 8 →
      Safe (Adds t elts n) (packedWords t 8 cap (s.payload.length / 8) elts s.payload) := by
    rintro ht hw rfl
    exact packedWords_safe ht (fun _ => readable_word64 hw) hcap hmul8
  have hvar : isPackableType t = true → t.wireType = 0 → maxB128Numbers s.payload ≤ n →
      Safe (Adds t elts n) (packedVarints t cap s.payload.length elts s.payload) := by
    intro ht hw hle
    refine (packedVarints_safe ht hw (by omega) le_rfl).mono ?_
    rintro elts' ⟨xs, rfl, hlen, hxs⟩
    exact ⟨xs, rfl, by omega, hxs⟩
  rcases t <;> simp only [countPackedElements] at hn <;>
    first
    | (cases hn; exact hvar rfl rfl le_rfl)
    | (cases hn; exact hvar rfl rfl hmax)
    | (split_ifs at hn; cases hn; exact h32 rfl rfl rfl)
    | (split_ifs at hn; cases hn; exact h64 rfl rfl rfl)
    | cases hn

end ProtobufC
end CmetricsRuby
