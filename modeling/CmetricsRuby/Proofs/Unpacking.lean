import CmetricsRuby.Proofs.Merging
import CmetricsRuby.Proofs.Packed
import Mathlib.Data.List.Forall2
import Mathlib.Algebra.Order.BigOperators.Group.List

/-!
# Unpacking messages

Each member that is parsed keeps what is known of the message, and the arrays never overflow: what a member puts
into one was counted. So unpacking comes to NULL, or to a message that `protobuf_c_message_check` accepts.
-/

namespace CmetricsRuby
namespace ProtobufC

variable {S : Message → Prop} {D : Descriptors} {m : Message} {i : Nat} {field : FieldDescriptor} {e : Elt}
  {elts : List Elt} {desc : DescId} {merge : Message → Message → Except Stop (Message × Message)}

/-! ### Parsing -/

/-- What is needed of the unpacking of the messages inside. -/
def Unpacks (S : Message → Prop) (limit : Nat) (unpack : DescId → Bytes → Except Stop Message) : Prop :=
  ∀ desc data, data.length < limit → Safe (Known S desc) (unpack desc data)

variable {unpack : DescId → Bytes → Except Stop Message} {limit : Nat} {s : ScannedMember}

theorem readable_of_wireType (hs : s.Ok) {t : FieldType} (hw : s.wireType = t.wireType) : Readable t s.data :=
  ⟨hs.nonempty, fun h => hs.varint (hw.trans h), fun h => (hs.word64 (hw.trans h)).ge,
    fun h => (hs.word32 (hw.trans h)).ge⟩

theorem parseRequiredMember_safe (hunpack : Unpacks S limit unpack) (hmerge : Merges (Known S) merge) (hs : s.Ok)
    (hlimit : s.data.length < limit) {old : Option Elt} (hold : ∀ e, old = some e → EltOk S field False e) :
    Safe (EltOk S field True) (parseRequiredMember unpack merge field s old) := by
  have hpayload : s.payload.length ≤ s.data.length := by
    rw [ScannedMember.payload, List.length_drop]
    omega
  unfold parseRequiredMember
  split
  · rename_i ht
    exact .ok (eltOk_of_scalar ⟨_, by rw [ht]; rfl⟩)
  · rename_i ht
    split_ifs
    · exact .error rfl
    · exact .ok ⟨ht, fun _ => Pointer.noConfusion⟩
  · rename_i ht
    split_ifs
    · exact .error rfl
    · exact .ok ⟨ht, fun len h => BinaryData.noConfusion h⟩
    · refine .ok ⟨ht, fun len h => ?_⟩
      cases h
      rfl
  · rename_i ht
    split_ifs
    · exact .error rfl
    · refine (hunpack field.descriptor s.payload (hpayload.trans_lt hlimit)).bind fun subm hsubm => ?_
      split
      · rename_i em
        obtain ⟨-, hem, hS⟩ := hold _ rfl
        refine (hmerge field.descriptor em subm ⟨hS, hem⟩ hsubm).bind ?_
        rintro ⟨em', subm'⟩ ⟨-, hS', hd'⟩
        exact .pure ⟨ht, hd', hS'⟩
      · exact .pure ⟨ht, hsubm.2, hsubm.1⟩
  · rename_i hbool hstring hbytes hmessage
    have hscalar : isPackableType field.type = true := by
      rcases ht : field.type <;> first | rfl | exact absurd ht ‹_›
    split_ifs with hw
    · exact .error rfl
    · exact (scalarParse_safe hscalar (readable_of_wireType hs (not_not.1 hw))).mono fun e he => eltOk_of_scalar he

/-- Required fields are there that have been parsed, or have a default. -/
def present (done : List Nat) (i : Nat) (field : FieldDescriptor) : Prop :=
  field.label = .required ∧ (i ∈ done ∨ field.default.isSome = true)

/-- Between two members: `ss` are still to come, and there is room for what was counted of them. -/
structure Between (S : Message → Prop) (D : Descriptors) (desc : DescId) (nUnknown : Nat) (caps done : List Nat)
    (ss : List ScannedMember) (m : Message) : Prop where
  of_desc : m.desc = desc
  ok : MessageOk S D (present done) m
  unknown : m.unknown.length + unknowns ss ≤ nUnknown
  elts : ∀ i elts, m.elts? i = some elts → elts.length + wanted (D desc) ss i ≤ caps.getD i 0

theorem unknowns_cons (s : ScannedMember) (ss : List ScannedMember) :
    unknowns (s :: ss) = unknowns ss + if s.field.isNone then 1 else 0 := by
  rw [unknowns, List.countP_cons]
  rfl

variable {nUnknown : Nat} {caps done : List Nat} {ss : List ScannedMember}

theorem present_cons (j : Nat) (field : FieldDescriptor) (hj : j ≠ i) (h : present (i :: done) j field) :
    present done j field := by
  refine ⟨h.1, h.2.imp_left fun hmem => ?_⟩
  exact (List.mem_cons.1 hmem).resolve_left hj

/-- A member that is not an element of an array. -/
theorem Between.single {done' : List Nat} {m' : Message} (h : Between S D desc nUnknown caps done (s :: ss) m)
    (hd : m'.desc = m.desc) (hok : MessageOk S D (present done') m') (hu : m'.unknown = m.unknown)
    (he : ∀ i, m'.elts? i = m.elts? i) : Between S D desc nUnknown caps done' ss m' := by
  refine ⟨hd.trans h.of_desc, hok, ?_, ?_⟩
  · have := h.unknown
    rw [unknowns_cons] at this
    rw [hu]
    omega
  · intro i elts helts
    have := h.elts i elts ((he i).symm.trans helts)
    rw [wanted_cons] at this
    omega

theorem parseOptionalMember_safe (hunpack : Unpacks S limit unpack) (hmerge : Merges (Known S) merge)
    (hs : s.Fits (D desc)) (hlimit : s.data.length < limit) (h : Between S D desc nUnknown caps done (s :: ss) m)
    (hfield : (D desc).fields[i]? = some field) (hrep : field.label ≠ .repeated) :
    Safe (Between S D desc nUnknown caps (i :: done) ss) (parseOptionalMember unpack merge i field s m) := by
  obtain ⟨has, e, he, hok⟩ := h.ok.single (h.of_desc ▸ hfield) hrep
  unfold parseOptionalMember
  rw [orUndefined_bind (Message.elt?_of_single he)]
  refine (parseRequiredMember_safe hunpack hmerge hs.ok hlimit fun e' he' => ?_).bind fun e' he' => ?_
  · cases he'
    exact hok.weaken False.elim
  · have hset := h.ok.setElt (h.of_desc ▸ hfield) (he'.weaken fun _ => trivial) present_cons
    split_ifs
    · exact .pure (h.single rfl (hset.setHas 1) rfl fun j => by simp)
    · exact .pure (h.single rfl hset rfl fun j => by simp)

/-- No required field is in a oneof. -/
theorem clearOneof_safe (hd : (D desc).WellFormed) (h : Between S D desc nUnknown caps done ss m)
    (hfield : (D desc).fields[i]? = some field) (hreq : field.label ≠ .required) (c : Nat) :
    Safe (Between S D desc nUnknown caps done ss) (clearOneof D i c field m) := by
  obtain ⟨hmd, hok, hunknown, helts⟩ := h
  have hcase : IsCase D desc c (m.cases.getD c 0) := fun hne => hmd ▸ hok.cases c hne
  unfold clearOneof
  split_ifs
  · refine safe_orFail.bind fun j hj => ?_
    obtain ⟨oldField, hold, -, -, hold_req⟩ := hcase.exists_field hd (hmd ▸ hj)
    rw [orUndefined_bind (hmd ▸ hold)]
    have hfirst := hok.setElt (hmd ▸ hold) (eltOk_zero.weaken fun hr => hold_req hr.1) fun _ _ _ hj => hj
    have hboth := hfirst.setElt (hmd ▸ hfield) (eltOk_zero.weaken fun hr => hreq hr.1) fun _ _ _ hj => hj
    exact .pure ⟨hmd, hboth, hunknown, fun k elts hk => helts k elts (by simpa using hk)⟩
  · exact .ok ⟨hmd, hok, hunknown, helts⟩

theorem parseOneofMember_safe (hd : (D desc).WellFormed) (hunpack : Unpacks S limit unpack)
    (hmerge : Merges (Known S) merge) (hs : s.Fits (D desc)) (hlimit : s.data.length < limit)
    (h : Between S D desc nUnknown caps done (s :: ss) m) (hi : s.field = some i)
    (hfield : (D desc).fields[i]? = some field) {c : Nat} (ho : field.oneof = some c) (hreq : field.label ≠ .required)
    (hrep : field.label ≠ .repeated) :
    Safe (Between S D desc nUnknown caps (i :: done) ss) (parseOneofMember unpack merge D i c field s m) := by
  unfold parseOneofMember
  refine (clearOneof_safe hd h hfield hreq c).bind fun m' h' => ?_
  obtain ⟨has, e, he, heok⟩ := h'.ok.single (h'.of_desc ▸ hfield) hrep
  rw [orUndefined_bind (Message.elt?_of_single he)]
  refine (parseRequiredMember_safe hunpack hmerge hs.ok hlimit fun e' he' => ?_).bind fun e' he' => ?_
  · cases he'
    exact heok.weaken False.elim
  · have hset := h'.ok.setElt (h'.of_desc ▸ hfield) (he'.weaken fun _ => trivial) present_cons
    obtain ⟨field', hfield', hid, -⟩ := hs.field i hi
    cases hfield.symm.trans hfield'
    refine .pure (h'.single rfl (hset.setCase fun _ => ⟨i, field, h'.of_desc ▸ hfield, hid, ho⟩) rfl fun j => ?_)
    exact Message.elts?_setElt

/-- What a member of a repeated field adds was counted. -/
theorem Between.push {elts elts' : List Elt} {n : Nat} (h : Between S D desc nUnknown caps done (s :: ss) m)
    (hs : s.field = some i) (hfield : (D desc).fields[i]? = some field) (hl : field.label = .repeated)
    (hn : memberCount field s = some n) (helts : m.elts? i = some elts) (hlen : elts'.length ≤ elts.length + n)
    (hok : ∀ e ∈ elts', EltOk S field True e) :
    Between S D desc nUnknown caps (i :: done) ss (m.setElts i elts') := by
  have hneed : s.need (D desc) i = n := by
    rw [s.need_of_some hs hfield, if_pos ⟨rfl, hl⟩, hn]
    rfl
  refine ⟨h.of_desc, h.ok.setElts (h.of_desc ▸ hfield) hok present_cons hl, ?_, ?_⟩
  · have := h.unknown
    rw [unknowns_cons] at this
    show m.unknown.length + _ ≤ _
    omega
  · intro j eltsj hj
    by_cases hij : i = j
    · subst hij
      have hnew := Message.elts?_setElts helts hj
      have := h.elts i elts helts
      rw [wanted_cons, hneed] at this
      rw [hnew]
      omega
    · rw [Message.elts?_setElts_of_ne hij] at hj
      have := h.elts j eltsj hj
      rw [wanted_cons] at this
      omega

theorem parseRepeatedMember_safe (hunpack : Unpacks S limit unpack) (hmerge : Merges (Known S) merge)
    (hs : s.Fits (D desc)) (hlimit : s.data.length < limit) (h : Between S D desc nUnknown caps done (s :: ss) m)
    (hi : s.field = some i) (hfield : (D desc).fields[i]? = some field) (hl : field.label = .repeated) :
    Safe (Between S D desc nUnknown caps (i :: done) ss)
      (parseRepeatedMember unpack merge (caps.getD i 0) i field s m) := by
  obtain ⟨elts, helts, hok⟩ := h.ok.repeated (h.of_desc ▸ hfield) hl
  obtain ⟨field', hfield', -, hcount⟩ := hs.field i hi
  cases hfield.symm.trans hfield'
  obtain ⟨n, hn⟩ := hcount hl
  have hneed : s.need (D desc) i = n := by
    rw [s.need_of_some hi hfield, if_pos ⟨rfl, hl⟩, hn]
    rfl
  have hroom := h.elts i elts helts
  rw [wanted_cons, hneed] at hroom
  unfold parseRepeatedMember
  rw [orUndefined_bind helts]
  by_cases hpacked : comesPacked field s.wireType = true
  · rw [if_pos hpacked]
    have hn' := hn
    rw [memberCount, if_pos hpacked] at hn'
    refine (parsePackedRepeatedMember_safe hn' (by omega)).bind ?_
    rintro _ ⟨xs, rfl, hlen, hxs⟩
    refine .pure (h.push hi hfield hl hn helts (by rw [List.length_append]; omega) fun e he => ?_)
    rcases List.mem_append.1 he with he | he
    · exact hok e he
    · exact eltOk_of_scalar (hxs e he)
  · rw [if_neg hpacked]
    have hn' := hn
    rw [memberCount, if_neg hpacked] at hn'
    cases hn'
    refine (parseRequiredMember_safe hunpack hmerge hs.ok hlimit fun e he => by cases he).bind fun e he => ?_
    refine (pushElt_safe (by omega)).bind ?_
    rintro _ rfl
    refine .pure (h.push hi hfield hl hn helts (by rw [List.length_append]; rfl) fun e' he' => ?_)
    rcases List.mem_append.1 he' with he' | he'
    · exact hok e' he'
    · rwa [List.mem_singleton.1 he']

theorem parseMember_safe (hd : (D desc).WellFormed) (hunpack : Unpacks S limit unpack) (hmerge : Merges (Known S) merge)
    (hs : s.Fits (D desc)) (hlimit : s.data.length < limit) (h : Between S D desc nUnknown caps done (s :: ss) m) :
    Safe (Between S D desc nUnknown caps (s.field.toList ++ done) ss) (parseMember unpack merge D nUnknown caps s m) := by
  unfold parseMember
  rcases hf : s.field with _ | i
  · have hroom := h.unknown
    rw [unknowns_cons, hf] at hroom
    have hcount : unknowns ss + 1 ≤ nUnknown - m.unknown.length := Nat.le_sub_of_add_le' hroom
    rw [if_pos (by omega)]
    refine .pure ⟨h.of_desc, h.ok.addUnknown _, ?_, ?_⟩
    · show (m.unknown ++ [_]).length + _ ≤ _
      rw [List.length_append, List.length_singleton]
      omega
    · intro i elts helts
      have := h.elts i elts helts
      rw [wanted_cons] at this
      omega
  · obtain ⟨field, hfield, -⟩ := hs.field i hf
    dsimp only
    rw [orUndefined_bind (h.of_desc ▸ hfield)]
    split
    · rename_i hl
      have hrep : field.label ≠ .repeated := by rw [hl]; decide
      obtain ⟨has, e, he, hok⟩ := h.ok.single (h.of_desc ▸ hfield) hrep
      rw [orUndefined_bind (Message.elt?_of_single he)]
      refine (parseRequiredMember_safe hunpack hmerge hs.ok hlimit fun e' he' => ?_).bind fun e' he' => ?_
      · cases he'
        exact hok.weaken False.elim
      · have hset := h.ok.setElt (h.of_desc ▸ hfield) (he'.weaken fun _ => trivial) present_cons
        exact .pure (h.single rfl hset rfl fun j => by simp)
    · rename_i hl
      exact parseRepeatedMember_safe hunpack hmerge hs hlimit h hf hfield hl
    · rename_i hreq hrep
      rcases ho : field.oneof with _ | c
      · exact parseOptionalMember_safe hunpack hmerge hs hlimit h hfield hrep
      · exact parseOneofMember_safe hd hunpack hmerge hs hlimit h hf hfield ho hreq hrep

theorem parseMembers_safe (hd : (D desc).WellFormed) (hunpack : Unpacks S limit unpack) (hmerge : Merges (Known S) merge)
    (hs : ∀ s ∈ ss, s.Fits (D desc)) (hlimit : ∀ s ∈ ss, s.data.length < limit)
    (h : Between S D desc nUnknown caps done ss m) :
    Safe (fun m' => ∃ done', (∀ i, i ∈ done ∨ (∃ s ∈ ss, s.field = some i) → i ∈ done') ∧
      Between S D desc nUnknown caps done' [] m') (parseMembers unpack merge D nUnknown caps ss m) := by
  induction ss generalizing done m with
  | nil =>
    refine .ok ⟨done, fun i hi => hi.resolve_right ?_, h⟩
    rintro ⟨s, hs', -⟩
    exact List.not_mem_nil hs'
  | cons s ss ih =>
    rw [parseMembers]
    refine (parseMember_safe hd hunpack hmerge (hs s (List.mem_cons_self ..)) (hlimit s (List.mem_cons_self ..)) h).bind
      fun m' h' => ?_
    refine (ih (fun s' hs' => hs s' (List.mem_cons_of_mem _ hs')) (fun s' hs' => hlimit s' (List.mem_cons_of_mem _ hs'))
      h').mono ?_
    rintro m'' ⟨done', hdone, h''⟩
    refine ⟨done', fun i hi => hdone i ?_, h''⟩
    rcases hi with hi | ⟨s', hs', hf⟩
    · exact .inl (List.mem_append_right _ hi)
    · rcases List.mem_cons.1 hs' with rfl | hs'
      · exact .inl (List.mem_append_left _ (by rw [hf]; exact List.mem_singleton_self i))
      · exact .inr ⟨s', hs', hf⟩

/-! ### Unpacking -/

theorem wanted_le (hs : ∀ s ∈ ss, s.Fits (D desc)) (i : Nat) :
    wanted (D desc) ss i ≤ (ss.map fun s => s.data.length + 1).sum := by
  induction ss with
  | nil => exact le_rfl
  | cons s ss ih =>
    have hneed := need_le (D desc) (hs s (List.mem_cons_self ..)).ok i
    have hrest := ih fun s' hs' => hs s' (List.mem_cons_of_mem _ hs')
    rw [wanted_cons, List.map_cons, List.sum_cons]
    omega

theorem data_lt (hs : s ∈ ss) : s.data.length < (ss.map fun s => s.data.length + 1).sum :=
  List.single_le_sum (fun _ _ => Nat.zero_le _) _ (List.mem_map.2 ⟨s, hs, rfl⟩)

theorem messageOk_init (hd : (D desc).WellFormed) : MessageOk S D (present []) (messageInitGeneric D desc) := by
  refine ⟨List.length_map .., ?_, ?_⟩
  · intro i field member hf hm
    have hget := (List.getElem?_map ..).symm.trans hm
    rw [show (D (messageInitGeneric D desc).desc).fields = (D desc).fields from rfl] at hf
    rw [hf] at hget
    cases hget
    have hwf := hd.fields field (List.mem_of_getElem? hf)
    unfold initMember
    split_ifs with hl
    · exact ⟨hl, fun e he => absurd he List.not_mem_nil⟩
    · refine ⟨hl, (eltOk_init hwf).weaken fun hp => hp.2.resolve_left List.not_mem_nil⟩
  · intro c hne
    refine absurd ?_ hne
    show (List.replicate _ _).getD c 0 = 0
    rw [List.getD_eq_getElem?_getD, List.getElem?_replicate]
    split_ifs <;> rfl

theorem elts?_init (h : (messageInitGeneric D desc).elts? i = some elts) : elts = [] := by
  obtain ⟨member, hmember, helts⟩ := Option.bind_eq_some_iff.1 h
  obtain ⟨field, -, rfl⟩ := Option.map_eq_some_iff.1 ((List.getElem?_map ..).symm.trans hmember)
  unfold initMember at helts
  split_ifs at helts <;> cases helts
  rfl

theorem between_start (hd : (D desc).WellFormed) {scan : Scan} {used : Nat} (h : ScanOk (D desc) scan used)
    (hused : used < 2 ^ 32) : Between S D desc scan.nUnknown (scan.counts.map (· % 2 ^ 32)) [] scan.members
      (messageInitGeneric D desc) := by
  refine ⟨rfl, messageOk_init hd, ?_, ?_⟩
  · show 0 + _ ≤ _
    rw [h.unknown, Nat.zero_add]
  · intro i elts helts
    have hlt : i < (D desc).fields.length := by
      obtain ⟨member, hmember, -⟩ := Option.bind_eq_some_iff.1 helts
      have := (List.getElem?_eq_some_iff.1 hmember).1
      rwa [show (messageInitGeneric D desc).members.length = (D desc).fields.length from List.length_map ..] at this
    have hle := wanted_le h.fits i
    have hsum := h.used
    rw [elts?_init helts, List.getD_eq_getElem?_getD, List.getElem?_map]
    have hcount := h.counts i hlt
    rw [List.getD_eq_getElem?_getD, List.getElem?_eq_getElem (h.length.symm ▸ hlt), Option.getD_some] at hcount
    rw [List.getElem?_eq_getElem (h.length.symm ▸ hlt), Option.map_some, Option.getD_some, hcount,
      Nat.mod_eq_of_lt (by omega), List.length_nil, Nat.zero_add]

/-- When no required field is missing, all of them are there in the end. -/
theorem required_present {scan : Scan} {done : List Nat} {used : Nat} (h : ScanOk (D desc) scan used)
    (hmissing : ¬((D desc).fields.zipIdx.any fun (field, f) => isMissing scan.required f field) = true)
    (hdone : ∀ i, i ∈ ([] : List Nat) ∨ (∃ s ∈ scan.members, s.field = some i) → i ∈ done)
    (hm : MessageOk S D (present done) m) (hmd : m.desc = desc) : MessageOk S D isRequired m := by
  refine ⟨hm.length, fun i field member hf hmember => (hm.members i field member hf hmember).weaken ?_, hm.cases⟩
  intro hl
  refine ⟨hl, ?_⟩
  by_contra hno
  rw [not_or, Bool.not_eq_true, Option.isSome_eq_false_iff] at hno
  refine hmissing (List.any_eq_true.2 ⟨(field, i), List.mk_mem_zipIdx_iff_getElem?.2 (hmd ▸ hf), ?_⟩)
  have hreq : i ∉ scan.required := fun hi => hno.1 (hdone i (.inr (h.required i hi)))
  simp only [isMissing, show field.label = .required from hl, hno.2, hreq, not_false_eq_true, decide_true, Bool.and_self]

theorem unpackNested_safe (hD : ∀ desc, (D desc).WellFormed) (fuel : Nat) :
    Unpacks (Sound D fuel) (min fuel (2 ^ 32)) (unpackNested D fuel) := by
  induction fuel with
  | zero => exact fun _ _ h => by omega
  | succ fuel ih =>
    intro desc data hdata
    rw [unpackNested]
    refine (loop_safe (hD desc).indexed (scanOk_start (D desc)) le_rfl).bind fun scan hscan => ?_
    rw [Nat.zero_add] at hscan
    split_ifs with hmissing
    · exact .error rfl
    · have hlimit : ∀ s ∈ scan.members, s.data.length < min fuel (2 ^ 32) := fun s hs => by
        have := data_lt hs
        have := hscan.used
        omega
      refine (parseMembers_safe (hD desc) ih (mergeMessages_safe hD fuel) hscan.fits hlimit
        (between_start (hD desc) hscan (by omega))).mono ?_
      rintro m ⟨done, hdone, hm⟩
      exact ⟨required_present hscan hmissing hdone hm.ok hm.of_desc, hm.of_desc⟩

/-! ### Messages that can be packed -/

theorem MessageOk.forall₂ (h : MessageOk S D isRequired m) :
    List.Forall₂ (fun field member => MemberOk S field (field.label = .required) member) (D m.desc).fields m.members := by
  refine List.forall₂_iff_get.2 ⟨h.length.symm, fun i hi hi' => ?_⟩
  exact h.members i _ _ (List.getElem?_eq_getElem hi) (List.getElem?_eq_getElem hi')

theorem eltTyped_of_ok (hS : ∀ m, S m → wellTyped D m = true) {there : Prop} (h : EltOk S field there e) :
    eltTyped D field.type e = true := by
  rcases e with v | v | p | b | _ | m <;> rw [eltTyped]
  · exact Option.isSome_iff_exists.2 h
  · exact Option.isSome_iff_exists.2 h
  · exact decide_eq_true h.1
  · exact decide_eq_true h.1
  · exact decide_eq_true h.1
  · rw [Bool.and_eq_true]
    exact ⟨decide_eq_true h.1, hS m h.2.2⟩

theorem memberTyped_of_ok (hwf : field.WellFormed) (hS : ∀ m, S m → wellTyped D m = true) {member : Member}
    (h : MemberOk S field (field.label = .required) member) : memberTyped D field member = true := by
  have hone : field.label = .required ∨ field.label = .repeated → field.oneof = none := by
    intro hl
    by_contra ho
    rcases hwf.oneof ho with hl' | hl' <;> rw [hl'] at hl <;> simp at hl
  rcases member with ⟨has, e⟩ | elts
  · rw [memberTyped]
    simp only [Bool.and_eq_true, Bool.or_eq_true, decide_eq_true_eq]
    refine ⟨⟨⟨h.1, ?_⟩, eltTyped_of_ok hS h.2⟩, ?_⟩
    · by_cases hl : field.label = .required
      · exact .inr (hone (.inl hl))
      · exact .inl hl
    · rcases e with v | v | p | b | p
      · rfl
      · rfl
      · rfl
      · rcases b with len | x | x
        · rw [nullIsSeen, h.2.2 len rfl]
          rfl
        · rfl
        · rfl
      · rfl
  · rw [memberTyped]
    simp only [Bool.and_eq_true, Bool.or_eq_true, decide_eq_true_eq]
    refine ⟨⟨⟨h.1, hone (.inr h.1)⟩, ?_⟩, ?_⟩
    · by_cases hp : field.packed = true
      · exact .inr (hwf.packed hp)
      · exact .inl (by simpa using hp)
    · obtain ⟨-, helts⟩ := h
      induction elts with
      | nil => rw [eltsTyped]
      | cons e elts ih =>
        rw [eltsTyped, Bool.and_eq_true]
        exact ⟨eltTyped_of_ok hS (helts e (List.mem_cons_self ..)), ih fun e' he' => helts e' (List.mem_cons_of_mem _ he')⟩

theorem wellTyped_of_sound (hD : ∀ desc, (D desc).WellFormed) {n : Nat} (h : Sound D n m) : wellTyped D m = true := by
  induction n generalizing m with
  | zero => exact h.elim
  | succ n ih =>
    have hmembers : ∀ {fields members}, (∀ field ∈ fields, field.WellFormed) →
        List.Forall₂ (fun field member => MemberOk (Sound D n) field (field.label = .required) member) fields members →
        membersTyped D fields members = true := by
      intro fields members hwf hall
      induction hall with
      | nil => rw [membersTyped]
      | cons hhead htail ihs =>
        rw [membersTyped, Bool.and_eq_true]
        exact ⟨memberTyped_of_ok (hwf _ (List.mem_cons_self ..)) (fun m => ih) hhead,
          ihs fun field hf => hwf field (List.mem_cons_of_mem _ hf)⟩
    rcases m with ⟨desc, members, cases, unknown⟩
    rw [wellTyped]
    exact hmembers (hD desc).fields (MessageOk.forall₂ h)

theorem eltCheck_of_ok (hS : ∀ m, S m → messageCheck D m = true) (h : EltOk S field True e) : eltCheck D e = true := by
  rcases e with v | v | p | b | _ | m
  · rfl
  · rfl
  · exact decide_eq_true (h.2 trivial)
  · rcases b with len | x | x
    · rw [eltCheck, h.2 len rfl]
      rfl
    · rfl
    · rfl
  · exact absurd trivial h.2
  · rw [eltCheck]
    exact hS m h.2.2

theorem singleCheck_of_ok (hS : ∀ m, S m → messageCheck D m = true) (h : EltOk S field (field.label = .required) e)
    (has : UInt32) : singleCheck D field has e = true := by
  rcases e with v | v | p | b | _ | m
  · rfl
  · rfl
  · rw [singleCheck, Bool.not_eq_true', Bool.and_eq_false_iff, decide_eq_false_iff_not, decide_eq_false_iff_not]
    by_cases hl : field.label = .required
    · exact .inr (h.2 hl)
    · exact .inl hl
  · rcases b with len | x | x
    · rw [singleCheck, h.2 len rfl]
      simp
    · rfl
    · rfl
  · rw [singleCheck]
    exact decide_eq_true h.2
  · rw [singleCheck]
    exact hS m h.2.2

theorem messageCheck_of_sound {n : Nat} (h : Sound D n m) : messageCheck D m = true := by
  induction n generalizing m with
  | zero => exact h.elim
  | succ n ih =>
    rcases m with ⟨desc, members, cases, unknown⟩
    have hmembers : ∀ {fields members}, List.Forall₂ (fun field member => MemberOk (Sound D n) field
        (field.label = .required) member) fields members → membersCheck D cases fields members = true := by
      intro fields members hall
      induction hall with
      | nil => exact rfl
      | @cons field member fields members hhead htail ihs =>
        rw [membersCheck, Bool.and_eq_true]
        refine ⟨?_, ihs⟩
        rcases member with ⟨has, e⟩ | elts
        · rw [memberCheck, singleCheck_of_ok (fun m => ih) hhead.2, Bool.or_true]
        · rw [memberCheck, Bool.or_eq_true]
          right
          obtain ⟨-, helts⟩ := hhead
          clear htail ihs
          induction elts with
          | nil => rw [eltsCheck]
          | cons e elts ihe =>
            rw [eltsCheck, Bool.and_eq_true]
            exact ⟨eltCheck_of_ok (fun m => ih) (helts e (List.mem_cons_self ..)),
              ihe fun e' he' => helts e' (List.mem_cons_of_mem _ he')⟩
    rw [messageCheck]
    exact hmembers (MessageOk.forall₂ h)

/-- Unpacking neither reads behind its input nor writes behind an array, and what it returns can be packed. -/
theorem unpack_safe (hD : ∀ desc, (D desc).WellFormed) (desc : DescId) {data : Bytes} (hlen : data.length < 2 ^ 32) :
    messageUnpack D desc data ≠ .error .undefined ∧ ∀ m, messageUnpack D desc data = .ok m →
      m.desc = desc ∧ wellTyped D m = true ∧ messageCheck D m = true := by
  have hsafe := unpackNested_safe hD (data.length + 1) desc data (by omega)
  refine ⟨fun h => ?_, fun m h => ?_⟩
  · exact absurd (hsafe.of_error h) (by decide)
  · obtain ⟨hsound, hmd⟩ := hsafe.of_eq h
    exact ⟨hmd, wellTyped_of_sound hD hsound, messageCheck_of_sound hsound⟩

theorem wellFormed_samples (desc : DescId) : (samples desc).WellFormed := by
  show (samples 0).WellFormed
  decide

/-- A message that ends in the middle of the one inside. -/
theorem unpack_safe_cut : messageUnpack samples 0 [130, 1, 9, 10, 2] ≠ .error .undefined :=
  (unpack_safe wellFormed_samples 0 (by decide)).1

end ProtobufC
end CmetricsRuby
