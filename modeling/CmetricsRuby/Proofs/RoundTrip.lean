import CmetricsRuby.Proofs.Unpacking
import CmetricsRuby.Proofs.Reading
import Mathlib.Data.List.Nodup

/-!
# Packed and unpacked

What is unpacked from a packed message is its normal form. The members are
parsed field by field: each field finds its member as it is at the start, and leaves it in normal form.
-/

namespace CmetricsRuby
namespace ProtobufC

open Base128

variable {S : Message → Prop} {D : Descriptors} {desc : DescId} {limit nUnknown : Nat} {caps : List Nat}
  {unpack : DescId → Bytes → Except Stop Message} {merge : Message → Message → Except Stop (Message × Message)}
  {m m' m'' : Message} {rs rs' : List Record} {r : Record}

/-! ### Records that are parsed -/

theorem Record.Cut.fits {desc : MessageDescriptor} (hd : desc.Indexed) (hr : r.Cut desc) : (r.scanned desc).Fits desc := by
  refine ⟨?_, fun i hi => ?_⟩
  · have hdata := scanData_payload hr.payload hr.length []
    rw [List.append_nil] at hdata
    obtain ⟨-, -, hok⟩ := scanData_some hdata r.tag (intRangeLookup desc.fieldRanges (toInt r.tag))
    rwa [List.take_length] at hok
  · obtain ⟨field, hfield, hid⟩ := lookupField_some hd ((lookupField_eq hd 0 r.tag).trans hi)
    exact ⟨field, hfield, hid, hr.count i field hi hfield⟩

/-- Parsing the records comes from one message to another, whatever is behind them. -/
def Takes (S : Message → Prop) (D : Descriptors) (desc : DescId) (unpack : DescId → Bytes → Except Stop Message)
    (merge : Message → Message → Except Stop (Message × Message)) (nUnknown : Nat) (caps : List Nat)
    (rs : List Record) (m m' : Message) : Prop :=
  ∀ done rest, Between S D desc nUnknown caps done (rs.map (Record.scanned (D desc)) ++ rest) m → ∃ done',
    parseMembers unpack merge D nUnknown caps (rs.map (Record.scanned (D desc)) ++ rest) m =
      parseMembers unpack merge D nUnknown caps rest m' ∧ Between S D desc nUnknown caps done' rest m'

theorem Takes.nothing : Takes S D desc unpack merge nUnknown caps [] m m :=
  fun done _ h => ⟨done, rfl, h⟩

theorem Takes.append (h : Takes S D desc unpack merge nUnknown caps rs m m')
    (h' : Takes S D desc unpack merge nUnknown caps rs' m' m'') :
    Takes S D desc unpack merge nUnknown caps (rs ++ rs') m m'' := by
  intro done rest hbetween
  rw [List.map_append, List.append_assoc] at hbetween ⊢
  obtain ⟨done', hparse, hbetween'⟩ := h done _ hbetween
  obtain ⟨done'', hparse', hbetween''⟩ := h' done' rest hbetween'
  exact ⟨done'', hparse.trans hparse', hbetween''⟩

theorem Takes.single (hd : (D desc).WellFormed) (hunpack : Unpacks S limit unpack) (hmerge : Merges (Known S) merge)
    (hr : r.Cut (D desc)) (hlimit : r.payload.length < limit)
    (h : ∀ done rest, Between S D desc nUnknown caps done (r.scanned (D desc) :: rest) m →
      parseMember unpack merge D nUnknown caps (r.scanned (D desc)) m = .ok m') :
    Takes S D desc unpack merge nUnknown caps [r] m m' := by
  intro done rest hbetween
  have hparse := h done rest hbetween
  have hsafe := parseMember_safe hd hunpack hmerge (hr.fits hd.indexed) hlimit hbetween
  refine ⟨_, ?_, hsafe.of_eq hparse⟩
  rw [List.map_singleton, List.singleton_append, parseMembers, hparse]
  rfl

/-! ### One member of a message -/

theorem modify_length {α : Type} (l : List α) (a : α) (l' : List α) (f : α → α) :
    (l ++ a :: l').modify l.length f = l ++ f a :: l' := by
  induction l with
  | nil => rfl
  | cons b l ih => exact congrArg (b :: ·) ih

theorem getElem?_length {α : Type} (l : List α) (a : α) (l' : List α) : (l ++ a :: l')[l.length]? = some a := by
  simp

section
variable {front later : List Member} {member : Member} {words : List UInt32} {us : List UnknownField}

theorem setMember_mk (f : Member → Member) :
    (Message.mk desc (front ++ member :: later) words us).setMember front.length f =
      .mk desc (front ++ f member :: later) words us :=
  congrArg (fun members => Message.mk desc members words us) (modify_length front member later f)

theorem elt?_mk : (Message.mk desc (front ++ member :: later) words us).elt? front.length = member.elt? := by
  show (front ++ member :: later)[front.length]?.bind _ = _
  rw [getElem?_length]
  rfl

theorem elts?_mk : (Message.mk desc (front ++ member :: later) words us).elts? front.length = member.elts? := by
  show (front ++ member :: later)[front.length]?.bind _ = _
  rw [getElem?_length]
  rfl

variable {i : Nat} {field : FieldDescriptor} {e : Elt} {elts acc : List Elt} {cases : List UInt32} {s : ScannedMember}

theorem scanned_field (hd : (D desc).WellFormed) (hi : (D desc).fields[i]? = some field) (htag : r.tag = field.id) :
    (r.scanned (D desc)).field = some i := by
  refine hd.indexed.lookup_eq_some_iff.2 ?_
  rw [List.getElem?_map, hi, htag]
  rfl

theorem cut_of_field (hd : (D desc).WellFormed) (hi : (D desc).fields[i]? = some field) (htag : r.tag = field.id)
    (hpayload : IsPayload r.wireType r.payload) (hlength : r.payload.length < 2 ^ 31)
    (hcount : field.label = .repeated → ∃ n, memberCount field (r.scanned (D desc)) = some n) : r.Cut (D desc) := by
  refine ⟨htag ▸ (hd.fields field (List.mem_of_getElem? hi)).id, hpayload, hlength, fun j field' hj hfield' hl => ?_⟩
  cases (scanned_field hd hi htag).symm.trans hj
  cases hi.symm.trans hfield'
  exact hcount hl

theorem not_comesPacked (hp : field.packed = false) : comesPacked field field.type.wireType = false := by
  unfold comesPacked
  rw [hp]
  rcases field.type <;> rfl

theorem parseMember_repeated (hs : s.field = some i) (hi : (D m.desc).fields[i]? = some field)
    (hl : field.label = .repeated) :
    parseMember unpack merge D nUnknown caps s m = parseRepeatedMember unpack merge (caps.getD i 0) i field s m := by
  unfold parseMember
  rw [hs]
  dsimp only
  rw [orUndefined_bind hi, hl]

theorem parseMember_required (hs : s.field = some i) (hi : (D m.desc).fields[i]? = some field)
    (hl : field.label = .required) {old e' : Elt} (hold : m.elt? i = some old)
    (hparse : parseRequiredMember unpack merge field s (some old) = .ok e') :
    parseMember unpack merge D nUnknown caps s m = .ok (m.setElt i e') := by
  unfold parseMember
  rw [hs]
  dsimp only
  rw [orUndefined_bind hi, hl]
  dsimp only
  rw [orUndefined_bind hold, hparse]
  rfl

theorem parseMember_optional (hs : s.field = some i) (hi : (D m.desc).fields[i]? = some field)
    (hreq : field.label ≠ .required) (hrep : field.label ≠ .repeated) (ho : field.oneof = none) {old e' : Elt}
    (hold : m.elt? i = some old) (hparse : parseRequiredMember unpack merge field s (some old) = .ok e') :
    parseMember unpack merge D nUnknown caps s m =
      .ok (if field.quantifier then (m.setElt i e').setHas i 1 else m.setElt i e') := by
  have hoptional : parseOptionalMember unpack merge i field s m =
      .ok (if field.quantifier then (m.setElt i e').setHas i 1 else m.setElt i e') := by
    rw [parseOptionalMember, orUndefined_bind hold, hparse]
    rfl
  unfold parseMember
  rw [hs]
  dsimp only
  rw [orUndefined_bind hi, ho]
  rcases hl : field.label
  · exact absurd hl hreq
  · exact hoptional
  · exact absurd hl hrep
  · exact hoptional

/-- When the oneof has no member yet. -/
theorem parseMember_oneof (hs : s.field = some i) (hi : (D m.desc).fields[i]? = some field)
    (hreq : field.label ≠ .required) (hrep : field.label ≠ .repeated) {c : Nat} (ho : field.oneof = some c)
    (hfree : m.cases.getD c 0 = 0) {old e' : Elt} (hold : m.elt? i = some old)
    (hparse : parseRequiredMember unpack merge field s (some old) = .ok e') :
    parseMember unpack merge D nUnknown caps s m = .ok ((m.setElt i e').setCase c s.tag) := by
  have hclear : clearOneof D i c field m = .ok m := if_neg (not_not.2 hfree)
  have honeof : parseOneofMember unpack merge D i c field s m = .ok ((m.setElt i e').setCase c s.tag) := by
    rw [parseOneofMember, hclear]
    simp only [bind, Except.bind]
    rw [hold, orUndefined]
    dsimp only
    rw [hparse]
    rfl
  unfold parseMember
  rw [hs]
  dsimp only
  rw [orUndefined_bind hi, ho]
  rcases hl : field.label
  · exact absurd hl hreq
  · exact honeof
  · exact absurd hl hrep
  · exact honeof

/-- There is room for what the member at the front adds. -/
theorem Between.room {done : List Nat} {ss : List ScannedMember} {n : Nat}
    (h : Between S D desc nUnknown caps done (s :: ss) m) (hs : s.field = some i)
    (hi : (D desc).fields[i]? = some field) (hl : field.label = .repeated) (hn : memberCount field s = some n)
    (hacc : m.elts? i = some acc) : acc.length + n ≤ caps.getD i 0 := by
  have hroom := h.elts i acc hacc
  rw [wanted_cons, s.need_of_some hs hi, if_pos ⟨rfl, hl⟩, hn, Option.getD_some] at hroom
  omega

theorem memberCount_unpacked {x : Bytes} (hp : field.packed = false) (hr : r = ⟨field.id, field.type.wireType, x⟩)
    (desc : MessageDescriptor) : memberCount field (r.scanned desc) = some 1 := by
  subst hr
  exact if_neg (by rw [Record.scanned, not_comesPacked hp]; decide)

theorem comesPacked_packed {x : Bytes} (hp : field.packed = true) (hr : r = ⟨field.id, 2, delimited x⟩)
    (desc : MessageDescriptor) : comesPacked field (r.scanned desc).wireType = true ∧ (r.scanned desc).payload = x := by
  subst hr
  exact ⟨by simp [comesPacked, Record.scanned, hp], payload_delimited rfl rfl⟩

theorem memberCount_packed {x : Bytes} (ht : isPackableType field.type = true) (hp : field.packed = true)
    (hr : r = ⟨field.id, 2, delimited x⟩) (hx : scalarsPack field.type elts = some x) (desc : MessageDescriptor) :
    memberCount field (r.scanned desc) = some elts.length := by
  obtain ⟨hcomes, hpayload⟩ := comesPacked_packed hp hr desc
  have hroom : ([] : List Elt).length + elts.length ≤ elts.length := by simp
  rw [memberCount, if_pos hcomes]
  exact (parsePacked_scalars (fun _ => desc) ht (hpayload.symm ▸ hx) hroom).1

/-! ### What is written can be cut -/

theorem elts_cut (hd : (D desc).WellFormed) (hi : (D desc).fields[i]? = some field) (hp : field.packed = false)
    (hrs : eltsRecords D field elts = some rs) (hlength : ∀ r ∈ rs, r.payload.length < 2 ^ 31) :
    ∀ r ∈ rs, r.Cut (D desc) := by
  induction elts generalizing rs with
  | nil =>
    rw [eltsRecords] at hrs
    cases hrs
    exact fun r hr => absurd hr List.not_mem_nil
  | cons e elts ih =>
    obtain ⟨x, rs', hx, hrs', rfl⟩ := eltsRecords_cons hrs
    intro r hr
    rcases List.mem_cons.1 hr with rfl | hr
    · exact cut_of_field hd hi rfl (isPayload_of_payload hx) (hlength _ (List.mem_cons_self ..)) fun _ =>
        ⟨1, memberCount_unpacked hp rfl _⟩
    · exact ih hrs' (fun r hr => hlength r (List.mem_cons_of_mem _ hr)) r hr

theorem member_cut (hd : (D desc).WellFormed) (hi : (D desc).fields[i]? = some field)
    (hrs : memberRecords D cases field member = some rs) (hlength : ∀ r ∈ rs, r.payload.length < 2 ^ 31) :
    ∀ r ∈ rs, r.Cut (D desc) := by
  rcases member with ⟨has, e⟩ | elts
  · rw [memberRecords] at hrs
    split_ifs at hrs with hl hset
    · obtain ⟨x, hx, hrs⟩ := Option.bind_eq_some_iff.1 hrs
      cases hrs
      intro r hr
      have hlt := hlength r hr
      cases List.mem_singleton.1 hr
      exact cut_of_field hd hi rfl (isPayload_of_payload hx) hlt fun h => absurd h hl
    · cases hrs
      exact fun r hr => absurd hr List.not_mem_nil
  · rw [memberRecords] at hrs
    split_ifs at hrs with hl hp hempty
    · cases hrs
      exact fun r hr => absurd hr List.not_mem_nil
    · obtain ⟨x, hx, hrs⟩ := Option.bind_eq_some_iff.1 hrs
      cases hrs
      intro r hr
      have hlt := hlength r hr
      have ht := (hd.fields field (List.mem_of_getElem? hi)).packed hp
      cases List.mem_singleton.1 hr
      exact cut_of_field hd hi rfl (.delimited x rfl rfl) hlt fun _ => ⟨_, memberCount_packed ht hp rfl hx _⟩
    · exact elts_cut hd hi (by simpa using hp) hrs hlength

/-! ### What is cut is parsed -/

theorem initElt_ne_message (field : FieldDescriptor) (m : Message) : initElt field ≠ .message (some m) := by
  unfold initElt
  rcases field.default with _ | v | v | x | x
  · rcases field.type <;> intro h <;> cases h
  all_goals
    intro h
    cases h

theorem elts_take (hd : (D desc).WellFormed) (hunpack : Unpacks S limit unpack) (hmerge : Merges (Known S) merge)
    (hreads : Reads D limit unpack) (hi : (D desc).fields[front.length]? = some field) (hl : field.label = .repeated)
    (hp : field.packed = false) (he : EltsWhole D field elts) (hrs : eltsRecords D field elts = some rs)
    (hcut : ∀ r ∈ rs, r.Cut (D desc)) (hlimit : ∀ r ∈ rs, r.payload.length < limit) :
    Takes S D desc unpack merge nUnknown caps rs (.mk desc (front ++ .repeated acc :: later) words us)
      (.mk desc (front ++ .repeated (acc ++ normalElts D field.type elts) :: later) words us) := by
  induction elts generalizing rs acc with
  | nil =>
    rw [eltsRecords] at hrs
    cases hrs
    rw [normalElts, List.append_nil]
    exact .nothing
  | cons e elts ih =>
    obtain ⟨x, rs', hx, hrs', rfl⟩ := eltsRecords_cons hrs
    rw [EltsWhole] at he
    have hx' := hlimit _ (List.mem_cons_self ..)
    have hcut' := hcut _ (List.mem_cons_self ..)
    generalize hr : (⟨field.id, field.type.wireType, x⟩ : Record) = r at hlimit hcut hx' hcut'
    have hfield : (r.scanned (D desc)).field = some front.length := scanned_field hd hi (by rw [← hr])
    have hparse : parseRequiredMember unpack merge field (r.scanned (D desc)) none = .ok (normalElt D field.type e) := by
      subst hr
      exact parseRequiredMember_payload hreads he.1 hx rfl rfl hx'.le fun _ h => by cases h
    have hfirst : Takes S D desc unpack merge nUnknown caps [r] (.mk desc (front ++ .repeated acc :: later) words us)
        (.mk desc (front ++ .repeated (acc ++ [normalElt D field.type e]) :: later) words us) := by
      refine .single hd hunpack hmerge hcut' hx' fun done rest hbetween => ?_
      have hacc : (Message.mk desc (front ++ .repeated acc :: later) words us).elts? front.length = some acc := elts?_mk
      have hroom := hbetween.room hfield hi hl (memberCount_unpacked hp hr.symm _) hacc
      rw [parseMember_repeated hfield hi hl, parseRepeatedMember, orUndefined_bind hacc,
        if_neg (by rw [← hr, Record.scanned, not_comesPacked hp]; decide), hparse]
      simp only [bind, Except.bind, pushElt_of_room (show acc.length < caps.getD front.length 0 by omega)]
      exact congrArg Except.ok (setMember_mk _)
    have hrest : Takes S D desc unpack merge nUnknown caps rs'
        (.mk desc (front ++ .repeated (acc ++ [normalElt D field.type e]) :: later) words us) _ :=
      ih he.2 hrs' (fun r hr => hcut r (List.mem_cons_of_mem _ hr)) fun r hr => hlimit r (List.mem_cons_of_mem _ hr)
    rw [append_normalElts] at hrest
    exact hfirst.append hrest

theorem packed_take (hd : (D desc).WellFormed) (hunpack : Unpacks S limit unpack) (hmerge : Merges (Known S) merge)
    (hi : (D desc).fields[front.length]? = some field) (hl : field.label = .repeated) (hp : field.packed = true)
    {x : Bytes} (hx : scalarsPack field.type elts = some x) (hr : r = ⟨field.id, 2, delimited x⟩)
    (hcut : r.Cut (D desc)) (hlimit : r.payload.length < limit) :
    Takes S D desc unpack merge nUnknown caps [r] (.mk desc (front ++ .repeated [] :: later) words us)
      (.mk desc (front ++ .repeated (normalElts D field.type elts) :: later) words us) := by
  have ht := (hd.fields field (List.mem_of_getElem? hi)).packed hp
  obtain ⟨hcomes, hpayload⟩ := comesPacked_packed hp hr (D desc)
  have hfield : (r.scanned (D desc)).field = some front.length := scanned_field hd hi (by rw [hr])
  refine .single hd hunpack hmerge hcut hlimit fun done rest hbetween => ?_
  have hacc : (Message.mk desc (front ++ .repeated [] :: later) words us).elts? front.length = some [] := elts?_mk
  have hroom := hbetween.room hfield hi hl (memberCount_packed ht hp hr hx _) hacc
  have hparse := (parsePacked_scalars D ht (hpayload.symm ▸ hx) hroom).2
  rw [parseMember_repeated hfield hi hl, parseRepeatedMember, orUndefined_bind hacc, if_pos hcomes, hparse]
  exact congrArg Except.ok (setMember_mk _)

theorem oneofCase_of_set {has : UInt32} {c : Nat} (hreq : field.label ≠ .required) (ho : field.oneof = some c)
    (h : fieldIsSet field cases has e = true) : cases.getD c 0 = field.id := by
  rcases hl : field.label
  · exact absurd hl hreq
  all_goals
    simp only [fieldIsSet, hl, ho, oneofFieldIsSet, Bool.and_eq_true, decide_eq_true_eq] at h
    exact h.1

theorem normalCase_of_none (ho : field.oneof = none) (member : Member) (words : List UInt32) :
    normalCase cases field member words = words := by
  unfold normalCase
  rw [ho]
  rcases member <;> rfl

theorem normalCase_of_set {has : UInt32} {c : Nat} (ho : field.oneof = some c)
    (hset : fieldIsSet field cases has e = true) (words : List UInt32) :
    normalCase cases field (.single has e) words = words.set c field.id := by
  simp only [normalCase, ho, if_pos hset]

theorem normalCase_of_unset {has : UInt32} (hset : ¬fieldIsSet field cases has e = true) (words : List UInt32) :
    normalCase cases field (.single has e) words = words := by
  unfold normalCase
  rcases field.oneof with _ | c
  · rfl
  · exact if_neg hset

theorem single_take (hd : (D desc).WellFormed) (hunpack : Unpacks S limit unpack) (hmerge : Merges (Known S) merge)
    (hreads : Reads D limit unpack) (hi : (D desc).fields[front.length]? = some field) (hl : field.label ≠ .repeated)
    {has : UInt32} (hset : fieldIsSet field cases has e = true) (he : EltWhole D field e) {x : Bytes}
    (hx : payload D field.type false e = some x) (hr : r = ⟨field.id, field.type.wireType, x⟩) (hcut : r.Cut (D desc))
    (hlimit : r.payload.length < limit)
    (hword : ∀ c, field.oneof = some c → cases.getD c 0 = field.id → words.getD c 0 = 0) :
    Takes S D desc unpack merge nUnknown caps [r]
      (.mk desc (front ++ .single 0 (initElt field) :: later) words us)
      (.mk desc (front ++ normalMember D cases field (.single has e) :: later) (normalCase cases field (.single has e) words)
        us) := by
  have hwf := hd.fields field (List.mem_of_getElem? hi)
  have hfield : (r.scanned (D desc)).field = some front.length := scanned_field hd hi (by rw [hr])
  have hparse : parseRequiredMember unpack merge field (r.scanned (D desc)) (some (initElt field)) =
      .ok (normalElt D field.type e) := by
    subst hr
    exact parseRequiredMember_payload hreads he hx rfl rfl hlimit.le fun m h =>
      initElt_ne_message field m (Option.some.inj h)
  refine .single hd hunpack hmerge hcut hlimit fun done rest hbetween => ?_
  have hold : (Message.mk desc (front ++ .single 0 (initElt field) :: later) words us).elt? front.length =
      some (initElt field) := elt?_mk
  have hsetElt : ∀ words', (Message.mk desc (front ++ .single 0 (initElt field) :: later) words' us).setElt front.length
      (normalElt D field.type e) = .mk desc (front ++ .single 0 (normalElt D field.type e) :: later) words' us :=
    fun words' => setMember_mk _
  rw [normalMember, if_pos hset]
  by_cases hreq : field.label = .required
  · -- a required field is in no oneof, and nothing says that it is there
    have ho : field.oneof = none := by
      by_contra ho
      exact hwf.not_required ho hreq
    rw [parseMember_required hfield hi hreq hold hparse, hsetElt, normalCase_of_none ho, if_neg (by simp [hreq])]
  rcases ho : field.oneof with _ | c
  · rw [parseMember_optional hfield hi hreq hl ho hold hparse, hsetElt, normalCase_of_none ho]
    by_cases hq : field.quantifier = true
    · rw [if_pos hq, if_pos (by simp [hreq, hq])]
      exact congrArg Except.ok (setMember_mk _)
    · rw [if_neg hq, if_neg (by simp [hq])]
  · have hfree : (Message.mk desc (front ++ .single 0 (initElt field) :: later) words us).cases.getD c 0 = 0 :=
      hword c ho (oneofCase_of_set hreq ho hset)
    rw [parseMember_oneof hfield hi hreq hl ho hfree hold hparse, hsetElt, normalCase_of_set ho hset, if_neg (by simp)]
    subst hr
    rfl

theorem member_take (hd : (D desc).WellFormed) (hunpack : Unpacks S limit unpack) (hmerge : Merges (Known S) merge)
    (hreads : Reads D limit unpack) (hi : (D desc).fields[front.length]? = some field)
    (hw : MemberWhole D cases field member) (hrs : memberRecords D cases field member = some rs)
    (hcut : ∀ r ∈ rs, r.Cut (D desc)) (hlimit : ∀ r ∈ rs, r.payload.length < limit)
    (hword : ∀ c, field.oneof = some c → cases.getD c 0 = field.id → words.getD c 0 = 0) :
    Takes S D desc unpack merge nUnknown caps rs (.mk desc (front ++ initMember field :: later) words us)
      (.mk desc (front ++ normalMember D cases field member :: later) (normalCase cases field member words) us) := by
  rcases member with ⟨has, e⟩ | elts
  · rw [memberRecords] at hrs
    rw [MemberWhole] at hw
    split_ifs at hrs with hl hset
    · obtain ⟨x, hx, hrs⟩ := Option.bind_eq_some_iff.1 hrs
      cases hrs
      rw [initMember, if_neg hl]
      exact single_take hd hunpack hmerge hreads hi hl hset (hw hset) hx rfl (hcut _ (List.mem_singleton_self _))
        (hlimit _ (List.mem_singleton_self _)) hword
    · cases hrs
      rw [normalMember, if_neg hset, normalCase_of_unset hset]
      exact .nothing
  · rw [memberRecords] at hrs
    rw [MemberWhole] at hw
    split_ifs at hrs with hl hp hempty
    · cases hrs
      rw [initMember, if_pos (not_not.1 hl), normalMember, List.isEmpty_iff.1 hempty, normalElts]
      exact .nothing
    · obtain ⟨x, hx, hrs⟩ := Option.bind_eq_some_iff.1 hrs
      cases hrs
      rw [initMember, if_pos (not_not.1 hl), normalMember]
      exact packed_take hd hunpack hmerge hi (not_not.1 hl) hp hx rfl (hcut _ (List.mem_singleton_self _))
        (hlimit _ (List.mem_singleton_self _))
    · rw [initMember, if_pos (not_not.1 hl), normalMember]
      exact elts_take hd hunpack hmerge hreads hi (not_not.1 hl) (by simpa using hp) hw hrs hcut hlimit

end

/-! ### All members -/

section
variable {fields : List FieldDescriptor} {front members : List Member} {cases words : List UInt32}
  {us : List UnknownField}

theorem ids_nodup (hd : (D desc).WellFormed) : ((D desc).fields.map FieldDescriptor.id).Nodup := by
  refine List.nodup_iff_injective_get.2 fun a b hab => Fin.ext ?_
  have hfind : ∀ k : Fin ((D desc).fields.map FieldDescriptor.id).length, intRangeLookup (D desc).fieldRanges
      (toInt (((D desc).fields.map FieldDescriptor.id).get k)) = some k.val := fun k => by
    refine hd.indexed.lookup_eq_some_iff.2 ?_
    have hk : k.val < (D desc).fields.length := by simpa using k.isLt
    simp [List.getElem?_eq_getElem hk]
  exact Option.some.inj ((hfind a).symm.trans (hab ▸ hfind b))

/-- The case words so far are 0 or those of the message, of members before. -/
def WordsFrom (cases : List UInt32) (ids : List UInt32) (words : List UInt32) : Prop :=
  ∀ c, words.getD c 0 ≠ 0 → cases.getD c 0 = words.getD c 0 ∧ words.getD c 0 ∈ ids

theorem WordsFrom.step {ids : List UInt32} (h : WordsFrom cases ids words) (field : FieldDescriptor) (member : Member)
    (hreq : field.oneof ≠ none → field.label ≠ .required) :
    WordsFrom cases (ids ++ [field.id]) (normalCase cases field member words) := by
  have hold : WordsFrom cases (ids ++ [field.id]) words := fun c hc => ⟨(h c hc).1, List.mem_append_left _ (h c hc).2⟩
  rcases ho : field.oneof with _ | c
  · rwa [normalCase_of_none ho]
  rcases member with ⟨has, e⟩ | elts
  · by_cases hset : fieldIsSet field cases has e = true
    · rw [normalCase_of_set ho hset]
      intro c' hc'
      rw [getD_set_word] at hc' ⊢
      split_ifs at hc' ⊢ with hboth
      · obtain ⟨rfl, -⟩ := hboth
        exact ⟨oneofCase_of_set (hreq (ho ▸ Option.some_ne_none c)) ho hset, List.mem_append_right _ (List.mem_singleton_self _)⟩
      · exact hold c' hc'
    · rwa [normalCase_of_unset hset]
  · have hkeep : normalCase cases field (.repeated elts) words = words := rfl
    rwa [hkeep]

theorem members_cut (hd : (D desc).WellFormed) {before : List FieldDescriptor} (hfields : (D desc).fields = before ++ fields)
    (hrs : membersRecords D cases fields members = some rs) (hlength : ∀ r ∈ rs, r.payload.length < 2 ^ 31) :
    ∀ r ∈ rs, r.Cut (D desc) := by
  induction fields generalizing before members rs with
  | nil =>
    rw [membersRecords] at hrs
    cases hrs
    exact fun r hr => absurd hr List.not_mem_nil
  | cons field fields ih =>
    rcases members with _ | ⟨member, members⟩
    · rw [membersRecords] at hrs
      cases hrs
    obtain ⟨rs₁, rs₂, h₁, h₂, rfl⟩ := membersRecords_cons hrs
    have hi : (D desc).fields[before.length]? = some field := by
      rw [hfields, getElem?_length]
    have hfields' : (D desc).fields = (before ++ [field]) ++ fields := by
      rw [hfields, List.append_assoc]
      rfl
    intro r hr
    rcases List.mem_append.1 hr with hr | hr
    · exact member_cut hd hi h₁ (fun r hr => hlength r (List.mem_append_left _ hr)) r hr
    · exact ih hfields' h₂ (fun r hr => hlength r (List.mem_append_right _ hr)) r hr

theorem members_take (hd : (D desc).WellFormed) (hunpack : Unpacks S limit unpack) (hmerge : Merges (Known S) merge)
    (hreads : Reads D limit unpack) {before : List FieldDescriptor} (hfields : (D desc).fields = before ++ fields)
    (hfront : front.length = before.length) (hw : MembersWhole D cases fields members)
    (hrs : membersRecords D cases fields members = some rs) (hcut : ∀ r ∈ rs, r.Cut (D desc))
    (hlimit : ∀ r ∈ rs, r.payload.length < limit) (hwords : WordsFrom cases (before.map FieldDescriptor.id) words) :
    Takes S D desc unpack merge nUnknown caps rs (.mk desc (front ++ fields.map initMember) words us)
      (.mk desc (front ++ normalMembers D cases fields members) (normalCases cases fields members words) us) := by
  induction fields generalizing before front members words rs with
  | nil =>
    rcases members with _ | ⟨member, members⟩
    · rw [membersRecords] at hrs
      cases hrs
      rw [normalMembers.eq_2 _ _ _ _ (by simp), normalCases.eq_2 _ _ _ _ (by simp)]
      exact .nothing
    · rw [MembersWhole] at hw
      · exact hw.elim
      all_goals simp
  | cons field fields ih =>
    rcases members with _ | ⟨member, members⟩
    · rw [membersRecords] at hrs
      cases hrs
    obtain ⟨rs₁, rs₂, h₁, h₂, rfl⟩ := membersRecords_cons hrs
    rw [MembersWhole] at hw
    have hwf := hd.fields field (by rw [hfields]; simp)
    have hi : (D desc).fields[front.length]? = some field := by
      rw [hfields, hfront, getElem?_length]
    have hnodup := ids_nodup hd
    have hfields' : (D desc).fields = (before ++ [field]) ++ fields := by
      rw [hfields, List.append_assoc]
      rfl
    have hword : ∀ c, field.oneof = some c → cases.getD c 0 = field.id → words.getD c 0 = 0 := by
      rintro c - hc
      by_contra hne
      obtain ⟨heq, hmem⟩ := hwords c hne
      rw [← heq, hc] at hmem
      rw [hfields, List.map_append, List.map_cons] at hnodup
      exact (List.nodup_append.1 hnodup).2.2 _ hmem _ (List.mem_cons_self ..) rfl
    have hfirst : Takes S D desc unpack merge nUnknown caps rs₁
        (.mk desc (front ++ initMember field :: fields.map initMember) words us) _ :=
      member_take hd hunpack hmerge hreads hi hw.1 h₁ (fun r hr => hcut r (List.mem_append_left _ hr))
        (fun r hr => hlimit r (List.mem_append_left _ hr)) hword
    have hrest : Takes S D desc unpack merge nUnknown caps rs₂ (.mk desc
        ((front ++ [normalMember D cases field member]) ++ fields.map initMember) (normalCase cases field member words) us) _ :=
      ih hfields' (by simp [hfront]) hw.2 h₂ (fun r hr => hcut r (List.mem_append_right _ hr))
        (fun r hr => hlimit r (List.mem_append_right _ hr)) (by simpa using hwords.step field member hwf.not_required)
    rw [List.append_assoc, List.append_assoc] at hrest
    rw [normalMembers, normalCases]
    exact hfirst.append hrest

theorem unknowns_take (hd : (D desc).WellFormed) (hunpack : Unpacks S limit unpack) (hmerge : Merges (Known S) merge)
    {us' : List UnknownField} (hcut : ∀ u ∈ us', u.record.Cut (D desc))
    (hnone : ∀ u ∈ us', (u.record.scanned (D desc)).field = none) (hlimit : ∀ u ∈ us', u.data.length < limit) :
    Takes S D desc unpack merge nUnknown caps (us'.map UnknownField.record) (.mk desc members words us)
      (.mk desc members words (us ++ us')) := by
  induction us' generalizing us with
  | nil =>
    rw [List.append_nil]
    exact .nothing
  | cons u us' ih =>
    have hfirst : Takes S D desc unpack merge nUnknown caps [u.record] (.mk desc members words us)
        (.mk desc members words (us ++ [u])) := by
      refine .single hd hunpack hmerge (hcut u (List.mem_cons_self ..)) (hlimit u (List.mem_cons_self ..)) ?_
      intro done rest hbetween
      have hnone' := hnone u (List.mem_cons_self ..)
      have hroom := hbetween.unknown
      rw [unknowns_cons, hnone'] at hroom
      have hlt : us.length < nUnknown := by
        have : us.length + (unknowns rest + 1) ≤ nUnknown := hroom
        omega
      unfold parseMember
      rw [hnone']
      exact if_pos hlt
    have hrest : Takes S D desc unpack merge nUnknown caps (us'.map UnknownField.record)
        (.mk desc members words (us ++ [u])) _ :=
      ih (fun u' hu' => hcut u' (List.mem_cons_of_mem _ hu')) (fun u' hu' => hnone u' (List.mem_cons_of_mem _ hu'))
        fun u' hu' => hlimit u' (List.mem_cons_of_mem _ hu')
    rw [List.append_assoc] at hrest
    exact hfirst.append hrest

theorem UnknownField.Foreign.cut (hd : (D desc).WellFormed) {u : UnknownField} (hu : u.Foreign (D desc))
    (hlength : u.data.length < 2 ^ 31) : (u.record.scanned (D desc)).field = none ∧ u.record.Cut (D desc) := by
  have hnone : (u.record.scanned (D desc)).field = none := by
    rcases hf : (u.record.scanned (D desc)).field with _ | i
    · rfl
    · obtain ⟨field, hfield, hid⟩ := lookupField_some hd.indexed ((lookupField_eq hd.indexed 0 u.tag).trans hf)
      exact absurd hid (hu.field field (List.mem_of_getElem? hfield))
  refine ⟨hnone, hu.tag, hu.payload, hlength, fun i field hi => ?_⟩
  rw [hnone] at hi
  cases hi

theorem required_recorded (hrs : membersRecords D cases fields members = some rs) {field : FieldDescriptor}
    (hfield : field ∈ fields) (hl : field.label = .required) : ∃ r ∈ rs, r.tag = field.id := by
  induction fields generalizing members rs with
  | nil => exact absurd hfield List.not_mem_nil
  | cons field' fields ih =>
    rcases members with _ | ⟨member, members⟩
    · rw [membersRecords] at hrs
      cases hrs
    obtain ⟨rs₁, rs₂, h₁, h₂, rfl⟩ := membersRecords_cons hrs
    rcases List.mem_cons.1 hfield with rfl | hfield
    · rcases member with ⟨has, e⟩ | elts
      · have hset : fieldIsSet field cases has e = true := by
          rw [fieldIsSet, hl]
        rw [memberRecords, if_neg (by rw [hl]; decide), if_pos hset] at h₁
        obtain ⟨x, -, h₁⟩ := Option.bind_eq_some_iff.1 h₁
        cases h₁
        exact ⟨_, List.mem_append_left _ (List.mem_singleton_self _), rfl⟩
      · rw [memberRecords, if_pos (by rw [hl]; decide)] at h₁
        cases h₁
    · obtain ⟨r, hr, htag⟩ := ih h₂ hfield
      exact ⟨r, List.mem_append_right _ hr, htag⟩

end

/-! ### Whole messages -/

theorem length_header_pos (id : UInt32) (wireType : UInt8) : 0 < (header id wireType).length := by
  rw [length_header, getTagSize_eq]
  exact length_encode_pos _

theorem length_payload_lt (hr : r ∈ rs) : r.payload.length < (bytesOf rs).length := by
  have hhead := length_header_pos r.tag r.wireType
  have hle : r.bytes.length ≤ (bytesOf rs).length := by
    rw [bytesOf, List.length_flatMap]
    exact List.single_le_sum (fun _ _ => Nat.zero_le _) _ (List.mem_map.2 ⟨r, hr, rfl⟩)
  rw [Record.bytes, List.length_append] at hle
  omega

theorem two_mul_length_le {desc : MessageDescriptor} (hcut : ∀ r ∈ rs, r.Cut desc) : 2 * rs.length ≤ (bytesOf rs).length := by
  induction rs with
  | nil => exact Nat.zero_le _
  | cons r rs ih =>
    have hhead := length_header_pos r.tag r.wireType
    have hpos := (hcut r (List.mem_cons_self ..)).payload.length_pos
    have hrest := ih fun r' hr' => hcut r' (List.mem_cons_of_mem _ hr')
    rw [show bytesOf (r :: rs) = r.bytes ++ bytesOf rs from List.flatMap_cons, List.length_append, Record.bytes,
      List.length_append, List.length_cons]
    omega

theorem slots_start (desc : MessageDescriptor) : (Scan.start desc).Slots := ⟨rfl, Nat.zero_le _, Nat.zero_le _⟩

/-- Two bytes a record, and the slabs full. -/
def maxBytes : Nat := 2 * maxMembers

/-- No required field is missed. -/
theorem not_missing (hd : (D desc).WellFormed) {members : List Member} {cases : List UInt32} {required : List Nat}
    (hrs : membersRecords D cases (D desc).fields members = some rs)
    (hrequired : ∀ i, (∃ r ∈ rs, r.Requires (D desc) i) → i ∈ required) :
    ¬((D desc).fields.zipIdx.any fun (field, f) => isMissing required f field) = true := by
  intro hany
  obtain ⟨⟨field, f⟩, hmem, hmiss⟩ := List.any_eq_true.1 hany
  simp only [isMissing, Bool.and_eq_true, decide_eq_true_eq] at hmiss
  obtain ⟨⟨hl, -⟩, hnot⟩ := hmiss
  have hfield := List.mk_mem_zipIdx_iff_getElem?.1 hmem
  obtain ⟨r, hr, htag⟩ := required_recorded hrs (List.mem_of_getElem? hfield) hl
  exact hnot (hrequired f ⟨r, hr, field, scanned_field hd hfield htag, hfield, hl⟩)

theorem wordsFrom_start (cases : List UInt32) (n : Nat) : WordsFrom cases [] (List.replicate n 0) := by
  intro c hc
  refine absurd ?_ hc
  rw [List.getD_eq_getElem?_getD, List.getElem?_replicate]
  split_ifs <;> rfl

theorem records_cut (hd : (D desc).WellFormed) {members : List Member} {cases : List UInt32} {us : List UnknownField}
    (hrs : membersRecords D cases (D desc).fields members = some rs) (hus : ∀ u ∈ us, u.Foreign (D desc))
    (hlength : ∀ r ∈ rs ++ us.map UnknownField.record, r.payload.length < 2 ^ 31) :
    ∀ r ∈ rs ++ us.map UnknownField.record, r.Cut (D desc) := by
  have hall : (D desc).fields = [] ++ (D desc).fields := rfl
  intro r hr
  rcases List.mem_append.1 hr with hmem | hmem
  · exact members_cut hd hall hrs (fun r hr => hlength r (List.mem_append_left _ hr)) r hmem
  · obtain ⟨u, hu, rfl⟩ := List.mem_map.1 hmem
    exact ((hus u hu).cut hd (hlength _ hr)).2

/-- The first pass over what was packed. -/
theorem scan_records (hd : (D desc).WellFormed) {members : List Member} {cases : List UInt32}
    (hrs : membersRecords D cases (D desc).fields members = some rs) (hcut : ∀ r ∈ rs ++ rs', r.Cut (D desc))
    (hlen : (bytesOf (rs ++ rs')).length ≤ maxBytes) :
    ∃ scan, Scan.loop (D desc) (bytesOf (rs ++ rs')).length (.start (D desc)) (bytesOf (rs ++ rs')) = .ok scan ∧
      scan.members = (rs ++ rs').map (Record.scanned (D desc)) ∧
      ScanOk (D desc) scan (bytesOf (rs ++ rs')).length ∧
      ¬((D desc).fields.zipIdx.any fun (field, f) => isMissing scan.required f field) = true := by
  have hfew := two_mul_length_le hcut
  have hmax : maxBytes = 2 * maxMembers := rfl
  have hslots : (Scan.start (D desc)).members.length + (rs ++ rs').length ≤ maxMembers := by
    show 0 + _ ≤ _
    omega
  obtain ⟨scan, hloop, hmembers, hrequired⟩ := loop_records hd.indexed hcut (slots_start (D desc)) hslots le_rfl
  have hscan := (loop_safe hd.indexed (scanOk_start (D desc)) le_rfl).of_eq hloop
  rw [Nat.zero_add] at hscan
  exact ⟨scan, hloop, hmembers, hscan, not_missing hd hrs fun i hi =>
    hrequired i (.inr (hi.imp fun r hr => ⟨List.mem_append_left _ hr.1, hr.2⟩))⟩

theorem unpackNested_packed (hD : ∀ desc, (D desc).WellFormed) (fuel : Nat) :
    Reads D (min fuel (maxBytes + 1)) (unpackNested D fuel) := by
  induction fuel with
  | zero => exact fun m rs _ _ h => absurd h (by omega)
  | succ fuel ih =>
    rintro ⟨desc, members, cases, unknown⟩ rs hm hrs hlt
    have hd := hD desc
    have hall : (D desc).fields = [] ++ (D desc).fields := rfl
    obtain ⟨rs₁, hrs₁, rfl⟩ := records_mk hrs
    rw [Whole] at hm
    obtain ⟨hmembers, hforeign⟩ := hm
    have hmax : maxBytes < 2 ^ 28 := by decide
    have hlimit : ∀ r ∈ rs₁ ++ unknown.map UnknownField.record, r.payload.length < min fuel (maxBytes + 1) := by
      intro r hr
      have := length_payload_lt hr
      omega
    have hlength : ∀ r ∈ rs₁ ++ unknown.map UnknownField.record, r.payload.length < 2 ^ 31 := by
      intro r hr
      have := hlimit r hr
      omega
    have hcut := records_cut hd hrs₁ hforeign hlength
    obtain ⟨scan, hloop, hscanned, hscan, hmissing⟩ := scan_records hd hrs₁ hcut (by omega)
    -- the second pass, over the members: first those of the fields, then the unknown ones
    have hunpack : Unpacks (Sound D fuel) (min fuel (maxBytes + 1)) (unpackNested D fuel) := fun desc data h =>
      unpackNested_safe hD fuel desc data (by omega)
    have hmerge := mergeMessages_safe hD fuel
    have hknown : Takes (Sound D fuel) D desc (unpackNested D fuel) (mergeMessages D fuel) scan.nUnknown
        (scan.counts.map (· % 2 ^ 32)) rs₁
        (.mk desc ([] ++ (D desc).fields.map initMember) (List.replicate (D desc).nOneofs 0) []) _ :=
      members_take hd hunpack hmerge ih hall rfl hmembers hrs₁ (fun r hr => hcut r (List.mem_append_left _ hr))
        (fun r hr => hlimit r (List.mem_append_left _ hr)) (wordsFrom_start cases _)
    have hright : ∀ {u}, u ∈ unknown → u.record ∈ rs₁ ++ unknown.map UnknownField.record := fun hu =>
      List.mem_append_right _ (List.mem_map_of_mem hu)
    have htakes := hknown.append (unknowns_take hd hunpack hmerge (fun u hu => hcut _ (hright hu))
      (fun u hu => ((hforeign u hu).cut hd (hlength _ (hright hu))).1) fun u hu => hlimit _ (hright hu))
    have hbetween := between_start (S := Sound D fuel) hd hscan (by omega)
    rw [← List.append_nil ((rs₁ ++ _).map _)] at hscanned
    rw [hscanned] at hbetween
    obtain ⟨done, hparse, -⟩ := htakes [] [] hbetween
    show unpackNested D (fuel + 1) desc _ = _
    rw [unpackNested, hloop]
    simp only [bind, Except.bind]
    rw [if_neg hmissing, hscanned, normal]
    exact hparse

theorem messageUnpack_packed (hD : ∀ desc, (D desc).WellFormed) (hm : Whole D m) (hrs : records D m = some rs)
    (hlen : (bytesOf rs).length ≤ maxBytes) : messageUnpack D m.desc (bytesOf rs) = .ok (normal D m) :=
  unpackNested_packed hD _ m rs hm hrs (by omega)

/-- What is packed to an address is unpacked from there to the normal form of the message. -/
theorem unpack_packed (hD : ∀ desc, (D desc).WellFormed) (hm : Whole D m) (hrs : records D m = some rs)
    (hlen : (bytesOf rs).length ≤ maxBytes) (out : Nat) (mem : Memory UInt8) :
    ∃ n mem', messageGetPackedSize D m = some n ∧ messagePack D m out mem = some (n, mem') ∧
      messageUnpack D m.desc (mem'.read out n) = .ok (normal D m) := by
  have hmax : maxBytes < 2 ^ 28 := by decide
  obtain ⟨hsize, hwrites⟩ := packs_records hrs (by omega)
  refine ⟨_, _, hsize, hwrites out mem, ?_⟩
  rw [Memory.read_store]
  exact messageUnpack_packed hD hm hrs hlen

theorem whole_firstSample : Whole samples firstSample := by
  rw [firstSample, Whole]
  refine ⟨?_, fun u hu => absurd hu List.not_mem_nil⟩
  simp [samples, sampleFields, MembersWhole, MemberWhole, EltWhole, EltsWhole, fieldIsSet, optionalFieldIsSet,
    FieldType.isPointer, pointerIsSet]

theorem whole_secondSample : Whole samples secondSample := by
  rw [secondSample, Whole]
  refine ⟨?_, fun u hu => ?_⟩
  · simp [samples, sampleFields, MembersWhole, MemberWhole, EltWhole, EltsWhole, whole_firstSample]
    exact fun _ => rfl
  · cases List.mem_singleton.1 hu
    exact ⟨by decide, by decide, .varint rfl (show (1 : UInt8).toNat < 128 by decide) (by decide)⟩

theorem unpack_packed_secondSample : ∃ n mem', messageGetPackedSize samples secondSample = some n ∧
    messagePack samples secondSample 7 (fun _ => 255) = some (n, mem') ∧
      messageUnpack samples 0 (mem'.read 7 n) = .ok (normal samples secondSample) :=
  unpack_packed wellFormed_samples whole_secondSample records_secondSample
    (by rw [length_secondRecords]; decide) 7 fun _ => 255

end ProtobufC
end CmetricsRuby
