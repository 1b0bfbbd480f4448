import CmetricsRuby.Proofs.RoundTrip

/-!
# Packing what was unpacked

The normal form of a message has the records of the message, so it is packed to the same bytes.
-/

namespace CmetricsRuby
namespace ProtobufC

open Base128

/-- What a field without a label has at the start is not packed, and the case word of a oneof is there. -/
structure MessageDescriptor.Plain (desc : MessageDescriptor) : Prop where
  start : ∀ field ∈ desc.fields, field.label = .none → fieldIsZeroish field (initElt field) = true
  oneof : ∀ field ∈ desc.fields, ∀ c, field.oneof = some c → c < desc.nOneofs

variable {D : Descriptors} {t : FieldType} {e : Elt} {elts : List Elt} {x : Bytes} {field : FieldDescriptor}
  {member : Member} {fields : List FieldDescriptor} {members : List Member} {cases words : List UInt32} {c : Nat}

/-! ### Elements -/

theorem chars_heap (p : Pointer) : (Pointer.heap (p.chars ++ [0])).chars = p.chars := by
  obtain ⟨z, hz⟩ : ∃ z : CStr, p.chars = z.bytes := by
    rcases p with _ | z | z
    · exact ⟨CStr.ofPtr [], rfl⟩
    · exact ⟨_, rfl⟩
    · exact ⟨_, rfl⟩
  rw [hz]
  show (z.bytes ++ [0]).takeWhile (· != 0) = z.bytes
  have hself : z.bytes.takeWhile (· != 0) = z.bytes := congrArg CStr.bytes (CStr.ofPtr_bytes z)
  rw [List.takeWhile_append_of_pos]
  · simp
  · intro b hb
    rw [← hself] at hb
    have hne := List.mem_takeWhile_imp hb
    exact hne

theorem scalarPack_normalElt (h : scalarPack t e = some x) : scalarPack t (normalElt D t e) = some x := by
  rcases e with v | v | p | b | p
  · by_cases ht : t = .bool
    · subst ht
      rw [normalElt]
      cases h
      by_cases hv : v = 0 <;> simp [hv, scalarPack, booleanPack]
    · rw [normalElt, if_neg (by simp [ht])]
      exact h
  · rw [normalElt]
    exact h
  · cases h
  · cases h
  · cases h

theorem scalarsPack_normalElts (h : scalarsPack t elts = some x) : scalarsPack t (normalElts D t elts) = some x := by
  induction elts generalizing x with
  | nil => exact h
  | cons e elts ih =>
    obtain ⟨y, z, hy, hz, rfl⟩ := scalarsPack_cons h
    have hrest := ih hz
    unfold scalarsPack at hrest ⊢
    obtain ⟨zs, hzs, hflat⟩ := Option.bind_eq_some_iff.1 hrest
    cases hflat
    rw [normalElts, List.mapM_cons, scalarPack_normalElt hy, hzs]
    rfl

theorem data?_normal {b : BinaryData} {y : Bytes} (h : b.data? = some y) :
    (if b.len = 0 then BinaryData.null 0 else .heap (b.data?.getD [])).data? = some y := by
  have hlen := BinaryData.length_of_data? h
  by_cases h0 : b.len = 0
  · rw [if_pos h0, show y = [] from List.length_eq_zero_iff.1 (hlen.symm.trans h0)]
    rfl
  · rw [if_neg h0, h]
    rfl

/-! ### Which members there are -/

theorem pointerIsSet_normalElt (h : EltWhole D field e) (t : FieldType) : pointerIsSet field (normalElt D t e) = true := by
  rcases e with v | v | p | b | _ | m <;> first | exact h.elim | rw [normalElt]; rfl

theorem default_of_pointer (hf : field.WellFormed) (ht : field.type.isPointer = true) {d : Default}
    (hd : field.default = some d) : ∃ z, d = .string z := by
  have hfits := hf.default
  rw [hd, Option.all_some] at hfits
  have htype : field.type = .string ∨ field.type = .message := by
    rcases hft : field.type <;> rw [hft] at ht <;> simp [FieldType.isPointer] at ht ⊢
  rcases htype with h | h <;> rw [h] at hfits <;> rcases d with v | v | z | z
  all_goals first
    | exact ⟨z, rfl⟩
    | simp [defaultFits, scalarPack] at hfits

theorem pointerIsSet_initElt (hf : field.WellFormed) (ht : field.type.isPointer = true) :
    pointerIsSet field (initElt field) = false := by
  unfold initElt
  rcases hd : field.default with _ | d
  · rcases hft : field.type <;> rw [hft] at ht <;> first | rfl | cases ht
  · obtain ⟨z, rfl⟩ := default_of_pointer hf ht hd
    simp [pointerIsSet, hd]

theorem fieldIsZeroish_normalElt (hx : payload D field.type false e = some x) (h : EltWhole D field e) :
    fieldIsZeroish field (normalElt D field.type e) = fieldIsZeroish field e := by
  rcases e with v | v | p | b | _ | m
  · rw [normalElt]
    by_cases ht : field.type = .bool
    · by_cases hv : v = 0 <;> simp [fieldIsZeroish, ht, hv]
    · rw [if_neg (by simp [ht])]
  · rw [normalElt]
  · rw [normalElt, fieldIsZeroish, fieldIsZeroish, chars_heap]
  · simp only [payload] at hx
    split_ifs at hx with ht
    obtain ⟨y, hy, -⟩ := Option.map_eq_some_iff.1 hx
    have hlen := BinaryData.length_of_data? hy
    have hlen' := BinaryData.length_of_data? (data?_normal hy)
    rw [normalElt, fieldIsZeroish, fieldIsZeroish, hlen', hlen]
  · exact h.elim
  · rw [normalElt]
    rfl

/-- What the case word of a oneof is in the normal form. -/
structure WordOk (field : FieldDescriptor) (cases words : List UInt32) (member : Member) : Prop where
  set : ∀ has e c, member = .single has e → field.oneof = some c → fieldIsSet field cases has e = true →
    words.getD c 0 = field.id
  kept : ∀ c, words.getD c 0 ≠ 0 → cases.getD c 0 = words.getD c 0

theorem fieldIsSet_normalElt {has : UInt32} (hx : payload D field.type false e = some x) (he : EltWhole D field e)
    (hl : field.label ≠ .repeated) (hword : WordOk field cases words (.single has e))
    (hset : fieldIsSet field cases has e = true) :
    fieldIsSet field words (if field.label ≠ .required && field.oneof.isNone && field.quantifier then 1 else 0)
      (normalElt D field.type e) = true := by
  have hpointer := pointerIsSet_normalElt he field.type
  rcases hlab : field.label
  · rw [fieldIsSet, hlab]
  · rcases ho : field.oneof with _ | c
    · simp only [fieldIsSet, hlab, ho, optionalFieldIsSet, quantifierWord, hpointer]
      by_cases hq : field.quantifier = true
      · simp [hq]
      · simp [hq, descriptorWord]
    · simp only [fieldIsSet, hlab, ho, oneofFieldIsSet, hpointer, hword.set has e c rfl ho hset]
      simp
  · exact absurd hlab hl
  · rcases ho : field.oneof with _ | c
    · simp only [fieldIsSet, hlab, ho, unlabeledFieldIsSet] at hset ⊢
      rw [fieldIsZeroish_normalElt hx he]
      exact hset
    · simp only [fieldIsSet, hlab, ho, oneofFieldIsSet, hpointer, hword.set has e c rfl ho hset]
      simp

theorem fieldIsSet_initElt {has : UInt32} (hf : field.WellFormed)
    (hstart : field.label = .none → fieldIsZeroish field (initElt field) = true)
    (hl : field.label ≠ .repeated) (hword : WordOk field cases words (.single has e))
    (hset : ¬fieldIsSet field cases has e = true) : fieldIsSet field words 0 (initElt field) = false := by
  have hone : ∀ c, field.oneof = some c → oneofFieldIsSet field (cases.getD c 0) e = false →
      oneofFieldIsSet field (words.getD c 0) (initElt field) = false := by
    intro c ho hun
    by_cases hp : field.type.isPointer = true
    · rw [oneofFieldIsSet, hp, pointerIsSet_initElt hf hp]
      simp
    · simp only [oneofFieldIsSet, hp, Bool.not_false, Bool.true_or, Bool.and_true, decide_eq_false_iff_not] at hun ⊢
      intro hid
      exact hun ((hword.kept c (by rw [hid]; exact hf.id)).trans hid)
  rcases hlab : field.label
  · rw [fieldIsSet, hlab] at hset
    exact absurd rfl hset
  · rcases ho : field.oneof with _ | c
    · simp only [fieldIsSet, hlab, ho, optionalFieldIsSet, quantifierWord] at hset ⊢
      by_cases hp : field.type.isPointer = true
      · rw [if_pos hp, pointerIsSet_initElt hf hp]
      · rw [if_neg hp] at hset ⊢
        by_cases hq : field.quantifier = true
        · simp [hq]
        · simp [hq, descriptorWord] at hset
    · simp only [fieldIsSet, hlab, ho] at hset ⊢
      exact hone c ho (by simpa using hset)
  · exact absurd hlab hl
  · rcases ho : field.oneof with _ | c
    · simp only [fieldIsSet, hlab, ho, unlabeledFieldIsSet]
      rw [hstart hlab]
      rfl
    · simp only [fieldIsSet, hlab, ho] at hset ⊢
      exact hone c ho (by simpa using hset)

/-! ### Case words -/

theorem length_normalCase : (normalCase cases field member words).length = words.length := by
  rcases ho : field.oneof with _ | c
  · rw [normalCase_of_none ho]
  rcases member with ⟨has, e⟩ | elts
  · by_cases hset : fieldIsSet field cases has e = true
    · rw [normalCase_of_set ho hset, List.length_set]
    · rw [normalCase_of_unset hset]
  · rfl

/-- A word that is that of the message stays so. -/
theorem normalCase_keeps (hreq : field.oneof ≠ none → field.label ≠ .required) (hc : words.getD c 0 = cases.getD c 0) :
    (normalCase cases field member words).getD c 0 = cases.getD c 0 := by
  rcases ho : field.oneof with _ | c'
  · rwa [normalCase_of_none ho]
  rcases member with ⟨has, e⟩ | elts
  · by_cases hset : fieldIsSet field cases has e = true
    · rw [normalCase_of_set ho hset, getD_set_word]
      split_ifs with h
      · obtain ⟨rfl, -⟩ := h
        exact (oneofCase_of_set (hreq (ho ▸ Option.some_ne_none _)) ho hset).symm
      · exact hc
    · rwa [normalCase_of_unset hset]
  · exact hc

theorem normalCases_keeps (hreq : ∀ field ∈ fields, field.oneof ≠ none → field.label ≠ .required)
    (hc : words.getD c 0 = cases.getD c 0) : (normalCases cases fields members words).getD c 0 = cases.getD c 0 := by
  induction fields generalizing members words with
  | nil =>
    rw [normalCases.eq_2 _ _ _ _ (by simp)]
    exact hc
  | cons field fields ih =>
    rcases members with _ | ⟨member, members⟩
    · rw [normalCases.eq_2 _ _ _ _ (by simp)]
      exact hc
    · rw [normalCases]
      exact ih (fun field hf => hreq field (List.mem_cons_of_mem _ hf))
        (normalCase_keeps (hreq field (List.mem_cons_self ..)) hc)

/-- The words are those of the message, or 0. -/
theorem normalCases_from (hreq : ∀ field ∈ fields, field.oneof ≠ none → field.label ≠ .required) {ids : List UInt32}
    (h : WordsFrom cases ids words) : ∃ ids', WordsFrom cases ids' (normalCases cases fields members words) := by
  induction fields generalizing members words ids with
  | nil =>
    rw [normalCases.eq_2 _ _ _ _ (by simp)]
    exact ⟨ids, h⟩
  | cons field fields ih =>
    rcases members with _ | ⟨member, members⟩
    · rw [normalCases.eq_2 _ _ _ _ (by simp)]
      exact ⟨ids, h⟩
    · rw [normalCases]
      exact ih (fun field hf => hreq field (List.mem_cons_of_mem _ hf))
        (h.step field member (hreq field (List.mem_cons_self ..)))

/-! ### Records -/

theorem wordOk_of_kept (hreq : ∀ f ∈ field :: fields, f.oneof ≠ none → f.label ≠ .required)
    (hroom : ∀ c, field.oneof = some c → c < words.length) {final : List UInt32}
    (hfinal : final = normalCases cases (field :: fields) (member :: members) words)
    (hkept : ∀ c, final.getD c 0 ≠ 0 → cases.getD c 0 = final.getD c 0) : WordOk field cases final member := by
  refine ⟨?_, hkept⟩
  rintro has e c rfl ho hset
  have hid := oneofCase_of_set (hreq field (List.mem_cons_self ..) (ho ▸ Option.some_ne_none c)) ho hset
  rw [hfinal, normalCases, normalCases_keeps (fun f hf => hreq f (List.mem_cons_of_mem _ hf)), hid]
  rw [normalCase_of_set ho hset, getD_set_word, if_pos ⟨rfl, hroom c ho⟩, hid]

theorem isEmpty_normalElts (elts : List Elt) : (normalElts D t elts).isEmpty = elts.isEmpty := by
  rcases elts with _ | ⟨e, elts⟩
  · rw [normalElts]
  · rw [normalElts]
    rfl

theorem membersRecords_of_cons {r rs : List Record} (hr : memberRecords D cases field member = some r)
    (hrs : membersRecords D cases fields members = some rs) :
    membersRecords D cases (field :: fields) (member :: members) = some (r ++ rs) := by
  rw [membersRecords, hr, hrs]
  rfl

mutual

theorem records_normal (hD : ∀ desc, (D desc).WellFormed) (hplain : ∀ desc, (D desc).Plain) :
    ∀ (m : Message) (rs : List Record), Whole D m → records D m = some rs → records D (normal D m) = some rs
  | .mk desc members cases unknown, rs, hm, hrs => by
    obtain ⟨rs₁, hrs₁, rfl⟩ := records_mk hrs
    rw [Whole] at hm
    have hreq : ∀ field ∈ (D desc).fields, field.oneof ≠ none → field.label ≠ .required := fun field hf =>
      ((hD desc).fields field hf).not_required
    obtain ⟨ids, hids⟩ : ∃ ids, WordsFrom cases ids
        (normalCases cases (D desc).fields members (List.replicate (D desc).nOneofs 0)) :=
      normalCases_from hreq (wordsFrom_start cases _)
    have hmembers := membersRecords_normal hD hplain cases (D desc).fields members (List.replicate (D desc).nOneofs 0) _
      rs₁ (hD desc).fields (hplain desc).start (by simpa using (hplain desc).oneof) rfl (fun c hc => (hids c hc).1) hm.1
      hrs₁
    rw [normal, records, hmembers]
    rfl

theorem membersRecords_normal (hD : ∀ desc, (D desc).WellFormed) (hplain : ∀ desc, (D desc).Plain)
    (cases : List UInt32) : ∀ (fields : List FieldDescriptor) (members : List Member) (words final : List UInt32)
    (rs : List Record), (∀ field ∈ fields, field.WellFormed) →
    (∀ field ∈ fields, field.label = .none → fieldIsZeroish field (initElt field) = true) →
    (∀ field ∈ fields, ∀ c, field.oneof = some c → c < words.length) →
    final = normalCases cases fields members words →
    (∀ c, final.getD c 0 ≠ 0 → cases.getD c 0 = final.getD c 0) → MembersWhole D cases fields members →
    membersRecords D cases fields members = some rs →
    membersRecords D final fields (normalMembers D cases fields members) = some rs
  | [], members, words, final, rs, _, _, _, _, _, _, hrs => by
    rw [membersRecords] at hrs ⊢
    exact hrs
  | field :: fields, [], words, final, rs, _, _, _, _, _, _, hrs => by
    rw [membersRecords] at hrs
    cases hrs
  | field :: fields, member :: members, words, final, rs, hwf, hstart, hroom, hfinal, hkept, hw, hrs => by
    obtain ⟨rs₁, rs₂, h₁, h₂, rfl⟩ := membersRecords_cons hrs
    rw [MembersWhole] at hw
    have hreq : ∀ f ∈ field :: fields, f.oneof ≠ none → f.label ≠ .required := fun f hf => (hwf f hf).not_required
    have hword : WordOk field cases final member :=
      wordOk_of_kept hreq (hroom field (List.mem_cons_self ..)) hfinal hkept
    have hfirst := memberRecords_normal hD hplain cases final field (hwf field (List.mem_cons_self ..))
      (hstart field (List.mem_cons_self ..)) member rs₁ hword hw.1 h₁
    have hrest := membersRecords_normal hD hplain cases fields members (normalCase cases field member words) final rs₂
      (fun f hf => hwf f (List.mem_cons_of_mem _ hf)) (fun f hf => hstart f (List.mem_cons_of_mem _ hf))
      (fun f hf c ho => by rw [length_normalCase]; exact hroom f (List.mem_cons_of_mem _ hf) c ho)
      (hfinal.trans (by rw [normalCases])) hkept hw.2 h₂
    rw [normalMembers]
    exact membersRecords_of_cons hfirst hrest

theorem memberRecords_normal (hD : ∀ desc, (D desc).WellFormed) (hplain : ∀ desc, (D desc).Plain)
    (cases final : List UInt32) (field : FieldDescriptor) (hf : field.WellFormed)
    (hstart : field.label = .none → fieldIsZeroish field (initElt field) = true) : ∀ (member : Member) (rs : List Record),
    WordOk field cases final member → MemberWhole D cases field member →
    memberRecords D cases field member = some rs →
    memberRecords D final field (normalMember D cases field member) = some rs
  | .single has e, rs, hword, hw, hrs => by
    rw [memberRecords] at hrs
    rw [MemberWhole] at hw
    split_ifs at hrs with hl hset
    · obtain ⟨x, hx, hrs⟩ := Option.bind_eq_some_iff.1 hrs
      cases hrs
      have he := hw hset
      rw [normalMember, if_pos hset, memberRecords, if_neg hl, if_pos (fieldIsSet_normalElt hx he hl hword hset),
        payload_normal hD hplain field false e x he hx]
      rfl
    · cases hrs
      rw [normalMember, if_neg hset, initMember, if_neg hl, memberRecords, if_neg hl,
        if_neg (by rw [fieldIsSet_initElt hf hstart hl hword hset]; decide)]
  | .repeated elts, rs, _, hw, hrs => by
    rw [memberRecords] at hrs
    rw [MemberWhole] at hw
    rw [normalMember, memberRecords, isEmpty_normalElts]
    split_ifs at hrs ⊢ with hl hp hempty
    · exact hrs
    · obtain ⟨x, hx, hrs⟩ := Option.bind_eq_some_iff.1 hrs
      rw [scalarsPack_normalElts hx]
      exact hrs
    · exact eltsRecords_normal hD hplain field elts rs hw hrs

theorem payload_normal (hD : ∀ desc, (D desc).WellFormed) (hplain : ∀ desc, (D desc).Plain) (field : FieldDescriptor)
    (repeated : Bool) : ∀ (e : Elt) (x : Bytes), EltWhole D field e → payload D field.type repeated e = some x →
    payload D field.type repeated (normalElt D field.type e) = some x
  | .word32 v, x, _, hx => by
    rw [payload] at hx
    have h := scalarPack_normalElt (D := D) hx
    rw [normalElt] at h ⊢
    rw [payload]
    exact h
  | .word64 v, x, _, hx => by
    rw [normalElt]
    exact hx
  | .string p, x, _, hx => by
    rw [payload] at hx
    split_ifs at hx with ht hnull
    rw [normalElt, payload, if_pos ht, if_neg (by simp), chars_heap]
    exact hx
  | .bytes b, x, _, hx => by
    rw [payload] at hx
    split_ifs at hx with ht
    obtain ⟨y, hy, rfl⟩ := Option.map_eq_some_iff.1 hx
    rw [normalElt, payload, if_pos ht, data?_normal hy]
    rfl
  | .message none, x, he, _ => he.elim
  | .message (some m), x, he, hx => by
    rw [EltWhole] at he
    rw [payload] at hx
    split_ifs at hx with ht
    obtain ⟨rs, hrs, rfl⟩ := Option.map_eq_some_iff.1 hx
    rw [normalElt, payload, if_pos ht, records_normal hD hplain m rs he.2 hrs]
    rfl

theorem eltsRecords_normal (hD : ∀ desc, (D desc).WellFormed) (hplain : ∀ desc, (D desc).Plain)
    (field : FieldDescriptor) : ∀ (elts : List Elt) (rs : List Record), EltsWhole D field elts →
    eltsRecords D field elts = some rs → eltsRecords D field (normalElts D field.type elts) = some rs
  | [], rs, _, hrs => by
    rw [normalElts]
    exact hrs
  | e :: elts, rs, hw, hrs => by
    rw [EltsWhole] at hw
    obtain ⟨x, rs', hx, hrs', rfl⟩ := eltsRecords_cons hrs
    rw [normalElts, eltsRecords, payload_normal hD hplain field true e x hw.1 hx,
      eltsRecords_normal hD hplain field elts rs' hw.2 hrs']
    rfl

end

/-- What was packed and unpacked is packed to the bytes of the first time. -/
theorem repacked (hD : ∀ desc, (D desc).WellFormed) (hplain : ∀ desc, (D desc).Plain) {m : Message} (hm : Whole D m)
    {rs : List Record} (hrs : records D m = some rs) (hlen : (bytesOf rs).length ≤ maxBytes) (out : Nat)
    (mem : Memory UInt8) :
    ∃ n mem' m', messagePack D m out mem = some (n, mem') ∧ messageUnpack D m.desc (mem'.read out n) = .ok m' ∧
      messageGetPackedSize D m' = some n ∧ ∀ out mem, messagePack D m' out mem = messagePack D m out mem := by
  have hmax : maxBytes < 2 ^ 28 := by decide
  obtain ⟨-, hwrites⟩ := packs_records hrs (by omega)
  obtain ⟨hsize, hagain⟩ := packs_records (records_normal hD hplain m rs hm hrs) (by omega)
  refine ⟨_, _, normal D m, hwrites out mem, ?_, hsize, fun out mem => ?_⟩
  · rw [Memory.read_store]
    exact messageUnpack_packed hD hm hrs hlen
  · rw [hagain, hwrites]

theorem plain_samples (desc : DescId) : (samples desc).Plain := by
  refine ⟨?_, ?_⟩
  · show ∀ field ∈ sampleFields, _
    decide
  · intro field hf c ho
    rcases hf with _ | ⟨_, _ | ⟨_, _ | ⟨_, hf⟩⟩⟩
    · cases ho
    · cases ho
    · cases ho
    · cases hf

theorem repacked_secondSample : ∃ n mem' m', messagePack samples secondSample 7 (fun _ => 255) = some (n, mem') ∧
    messageUnpack samples 0 (mem'.read 7 n) = .ok m' ∧ messageGetPackedSize samples m' = some n ∧
      ∀ out mem, messagePack samples m' out mem = messagePack samples secondSample out mem :=
  repacked wellFormed_samples plain_samples whole_secondSample records_secondSample
    (by rw [length_secondRecords]; decide) 7 fun _ => 255

end ProtobufC
end CmetricsRuby
