import CmetricsRuby.Proofs.Parsing

/-!
# Merging messages

Two messages of one descriptor, with members of the right types, are such messages after each step of merging the
one into the other, and so they are in the end. Merging can fail, but it meets nothing it does not expect.
-/

namespace CmetricsRuby
namespace ProtobufC

variable {S : Message → Prop} {D : Descriptors} {m : Message} {there there' : Nat → FieldDescriptor → Prop} {i j : Nat}
  {field : FieldDescriptor} {e : Elt} {elts : List Elt}

/-! ### Reading and writing members -/

namespace Message

theorem getElem?_setMember {f : Member → Member} {member : Member} (h : (m.setMember i f).members[j]? = some member) :
    ∃ old, m.members[j]? = some old ∧ member = if i = j then f old else old := by
  have hget := (List.getElem?_modify f i m.members j).symm.trans h
  obtain ⟨old, hold, rfl⟩ := Option.map_eq_some_iff.1 hget
  exact ⟨old, hold, rfl⟩

theorem bind_setMember {β : Type} {f : Member → Member} {g : Member → Option β} (h : i = j → ∀ member, g (f member) = g member) :
    (m.setMember i f).members[j]?.bind g = m.members[j]?.bind g := by
  show (m.members.modify i f)[j]?.bind g = _
  rw [List.getElem?_modify]
  rcases m.members[j]? with _ | member
  · rfl
  · by_cases hij : i = j
    · simpa [hij] using h hij member
    · simp [hij]

@[simp] theorem elts?_setElt : (m.setElt i e).elts? j = m.elts? j :=
  bind_setMember fun _ member => by cases member <;> rfl

@[simp] theorem elts?_setHas {has : UInt32} : (m.setHas i has).elts? j = m.elts? j :=
  bind_setMember fun _ member => by cases member <;> rfl

theorem elts?_setElts_of_ne (h : i ≠ j) : (m.setElts i elts).elts? j = m.elts? j :=
  bind_setMember fun hij => absurd hij h

theorem elts?_setElts {old elts' : List Elt} (h : m.elts? i = some old) (h' : (m.setElts i elts).elts? i = some elts') :
    elts' = elts := by
  obtain ⟨member, hmember, helts⟩ := Option.bind_eq_some_iff.1 h'
  obtain ⟨before, hbefore, rfl⟩ := getElem?_setMember hmember
  rw [elts?, hbefore, Option.bind_some] at h
  rw [if_pos rfl] at helts
  rcases before with ⟨has, e⟩ | before
  · cases h
  · cases helts
    rfl

end Message

theorem getD_set_word (words : List UInt32) (c c' : Nat) (v : UInt32) :
    (words.set c v).getD c' 0 = if c = c' ∧ c' < words.length then v else words.getD c' 0 := by
  rw [List.getD_eq_getElem?_getD, List.getElem?_set, List.getD_eq_getElem?_getD]
  split_ifs with hc hlt hboth hboth
  · rfl
  · omega
  · omega
  · rw [List.getElem?_eq_none (by omega)]
  · omega
  · rfl

/-! ### Steps -/

namespace MessageOk

theorem single (h : MessageOk S D there m) (hf : (D m.desc).fields[i]? = some field) (hl : field.label ≠ .repeated) :
    ∃ has e, m.members[i]? = some (.single has e) ∧ EltOk S field (there i field) e := by
  have hlt : i < m.members.length := h.length ▸ (List.getElem?_eq_some_iff.1 hf).1
  have hmember := h.members i field _ hf (List.getElem?_eq_getElem hlt)
  rcases hm : m.members[i] with ⟨has, e⟩ | elts
  · rw [hm] at hmember
    exact ⟨has, e, by rw [List.getElem?_eq_getElem hlt, hm], hmember.2⟩
  · rw [hm] at hmember
    exact absurd hmember.1 hl

theorem repeated (h : MessageOk S D there m) (hf : (D m.desc).fields[i]? = some field) (hl : field.label = .repeated) :
    ∃ elts, m.elts? i = some elts ∧ ∀ e ∈ elts, EltOk S field True e := by
  have hlt : i < m.members.length := h.length ▸ (List.getElem?_eq_some_iff.1 hf).1
  have hmember := h.members i field _ hf (List.getElem?_eq_getElem hlt)
  rcases hm : m.members[i] with ⟨has, e⟩ | elts
  · rw [hm] at hmember
    exact absurd hl hmember.1
  · rw [hm] at hmember
    exact ⟨elts, by rw [Message.elts?, List.getElem?_eq_getElem hlt, hm]; rfl, hmember.2⟩

theorem setMember (h : MessageOk S D there m) {f : Member → Member}
    (hi : ∀ field member, (D m.desc).fields[i]? = some field → MemberOk S field (there i field) member →
      MemberOk S field (there' i field) (f member))
    (hthere : ∀ j field, j ≠ i → there' j field → there j field) : MessageOk S D there' (m.setMember i f) := by
  refine ⟨(List.length_modify ..).trans h.length, ?_, h.cases⟩
  intro j field member hf hmember
  obtain ⟨old, hold, rfl⟩ := Message.getElem?_setMember hmember
  have hok := h.members j field old hf hold
  by_cases hij : i = j
  · subst hij
    rw [if_pos rfl]
    exact hi field old hf hok
  · rw [if_neg hij]
    exact hok.weaken (hthere j field (Ne.symm hij))

theorem setElt (h : MessageOk S D there m) (hf : (D m.desc).fields[i]? = some field)
    (he : EltOk S field (there' i field) e) (hthere : ∀ j field, j ≠ i → there' j field → there j field) :
    MessageOk S D there' (m.setElt i e) := by
  refine h.setMember ?_ hthere
  intro field' member hf' hmember
  cases hf.symm.trans hf'
  rcases member with ⟨has, old⟩ | elts
  · exact ⟨hmember.1, he⟩
  · exact hmember

theorem setHas (h : MessageOk S D there m) (has : UInt32) : MessageOk S D there (m.setHas i has) := by
  refine h.setMember ?_ fun _ _ _ hj => hj
  intro field member hf hmember
  rcases member with ⟨old, e⟩ | elts
  · exact hmember
  · exact hmember

theorem setElts (h : MessageOk S D there m) (hf : (D m.desc).fields[i]? = some field)
    (helts : ∀ e ∈ elts, EltOk S field True e) (hthere : ∀ j field, j ≠ i → there' j field → there j field)
    (hl : field.label = .repeated) : MessageOk S D there' (m.setElts i elts) := by
  refine h.setMember ?_ hthere
  intro field' member hf' hmember
  cases hf.symm.trans hf'
  rcases member with ⟨has, e⟩ | old
  · exact absurd hl hmember.1
  · exact ⟨hl, helts⟩

theorem setCase (h : MessageOk S D there m) {c : Nat} {v : UInt32} (hv : v ≠ 0 →
    ∃ (j : Nat) (field : FieldDescriptor), (D m.desc).fields[j]? = some field ∧ field.id = v ∧ field.oneof = some c) :
    MessageOk S D there (m.setCase c v) := by
  refine ⟨h.length, h.members, ?_⟩
  intro c' hne
  have hget : (m.setCase c v).cases.getD c' 0 = if c = c' ∧ c' < m.cases.length then v else m.cases.getD c' 0 :=
    getD_set_word m.cases c c' v
  rw [hget] at hne ⊢
  split_ifs at hne ⊢ with hc
  · obtain ⟨rfl, -⟩ := hc
    exact hv hne
  · exact h.cases c' hne

theorem addUnknown (h : MessageOk S D there m) (u : UnknownField) : MessageOk S D there (m.addUnknown u) :=
  ⟨h.length, h.members, h.cases⟩

theorem weaken (h : MessageOk S D there m) (hthere : ∀ j field, there' j field → there j field) :
    MessageOk S D there' m :=
  ⟨h.length, fun i field member hf hm => (h.members i field member hf hm).weaken (hthere i field), h.cases⟩

end MessageOk

/-! ### Merging -/

/-- What is known of both messages while they are merged. -/
structure BothOk (S : Message → Prop) (D : Descriptors) (desc : DescId) (r : Message × Message) : Prop where
  earlier : MessageOk S D isRequired r.1
  latter : MessageOk S D isRequired r.2
  desc_earlier : r.1.desc = desc
  desc_latter : r.2.desc = desc

/-- What merging has to keep. -/
def Merges (P : DescId → Message → Prop) (merge : Message → Message → Except Stop (Message × Message)) : Prop :=
  ∀ desc e l, P desc e → P desc l → Safe (fun r => P desc r.1 ∧ P desc r.2) (merge e l)

theorem orUndefined_bind {α β : Type} {o : Option α} {a : α} (h : o = some a) (f : α → Except Stop β) :
    (orUndefined o >>= f) = f a := by
  subst h
  rfl

inductive SameKind : Elt → Elt → Prop
  | word32 (v w : UInt32) : SameKind (.word32 v) (.word32 w)
  | word64 (v w : UInt64) : SameKind (.word64 v) (.word64 w)
  | string (p q : Pointer) : SameKind (.string p) (.string q)
  | bytes (b b' : BinaryData) : SameKind (.bytes b) (.bytes b')
  | message (p q : Option Message) : SameKind (.message p) (.message q)

theorem EltOk.sameKind {p : Prop} (h : EltOk S field p e) : SameKind e (zeroElt field.type) := by
  rcases e with v | v | p | b | _ | m
  · obtain ⟨x, hx⟩ := h
    rcases ht : field.type <;> rw [ht] at hx <;> first | exact .word32 .. | cases hx
  · obtain ⟨x, hx⟩ := h
    rcases ht : field.type <;> rw [ht] at hx <;> first | exact .word64 .. | cases hx
  · rw [h.1]
    exact .string ..
  · rw [h.1]
    exact .bytes ..
  · rw [h.1]
    exact .message ..
  · rw [h.1]
    exact .message ..

theorem SameKind.of_both {e' z : Elt} (h : SameKind e z) (h' : SameKind e' z) : SameKind e e' := by
  rcases h <;> rcases h' <;> constructor

theorem needToMerge_some (field : FieldDescriptor) {e' : Elt} (h : SameKind e e') (earlierCase latterCase : UInt32) :
    ∃ need, needToMerge field earlierCase latterCase e e' = some need := by
  rcases h with ⟨v, w⟩ | ⟨v, w⟩ | ⟨p, q⟩ | ⟨b, b'⟩ | ⟨_ | em, q⟩ <;> exact ⟨_, rfl⟩

theorem Message.elt?_of_single {has : UInt32} (h : m.members[i]? = some (.single has e)) : m.elt? i = some e := by
  rw [Message.elt?, h]
  rfl

theorem Message.quantifier?_of_single {has : UInt32} (h : m.members[i]? = some (.single has e)) :
    m.quantifier? i field = some (quantifierWord field m.cases has) := by
  rw [Message.quantifier?, Message.has?, h]
  rfl

/-- A case word is 0 or the id of a member of its oneof. -/
def IsCase (D : Descriptors) (desc : DescId) (c : Nat) (v : UInt32) : Prop :=
  v ≠ 0 → ∃ (j : Nat) (field : FieldDescriptor), (D desc).fields[j]? = some field ∧ field.id = v ∧ field.oneof = some c

theorem MessageOk.setQuantifier (h : MessageOk S D there m) {v : UInt32}
    (hv : ∀ c, field.oneof = some c → IsCase D m.desc c v) : MessageOk S D there (m.setQuantifier i field v) := by
  unfold Message.setQuantifier
  rcases ho : field.oneof with _ | c
  · by_cases hq : field.quantifier = true
    · simp only [hq, if_true]
      exact h.setHas v
    · simp only [hq, Bool.false_eq_true, if_false]
      exact h
  · exact h.setCase (hv c ho)

theorem Message.desc_setQuantifier {v : UInt32} : (m.setQuantifier i field v).desc = m.desc := by
  unfold Message.setQuantifier
  rcases field.oneof with _ | c
  · by_cases hq : field.quantifier = true
    · simp only [hq, if_true]
      rfl
    · simp only [hq, Bool.false_eq_true, if_false]
  · rfl

variable {desc : DescId} {earlier latter : Message}

theorem moveElt_ok (h : BothOk S D desc (earlier, latter)) {loopField : FieldDescriptor}
    (hj : (D desc).fields[j]? = some field) (hreq : field.label ≠ .required) (he : EltOk S field False e) {v : UInt32}
    (hv : ∀ c, loopField.oneof = some c → IsCase D desc c v) :
    BothOk S D desc (moveElt i j loopField field v e earlier latter) := by
  obtain ⟨hearlier, hlatter, hed, hld⟩ := h
  dsimp only at hearlier hlatter hed hld
  have hkeep : ∀ j' field', j' ≠ j → isRequired j' field' → isRequired j' field' := fun _ _ _ hr => hr
  have hzero := hearlier.setElt (e := zeroElt field.type) (hed ▸ hj) (eltOk_zero.weaken fun hr => hreq hr) hkeep
  have hmoved := hlatter.setElt (hld ▸ hj) (he.weaken fun hr => hreq hr) hkeep
  unfold moveElt
  dsimp only
  split_ifs
  · refine ⟨hzero.setQuantifier fun _ _ h0 => absurd rfl h0, hmoved.setQuantifier ?_, ?_, ?_⟩
    · intro c hc
      exact hld.symm ▸ hv c hc
    · exact Message.desc_setQuantifier.trans hed
    · exact Message.desc_setQuantifier.trans hld
  · exact ⟨hzero, hmoved, hed, hld⟩

/-- What is known of a message of a descriptor. -/
def Known (S : Message → Prop) (desc : DescId) (m : Message) : Prop := S m ∧ m.desc = desc

variable {merge : Message → Message → Except Stop (Message × Message)}

theorem mergeElt_safe (hmerge : Merges (Known S) merge) (h : BothOk S D desc (earlier, latter))
    {loopField : FieldDescriptor} (hi : (D desc).fields[i]? = some loopField) (hil : loopField.label ≠ .repeated)
    (hj : (D desc).fields[j]? = some field) (hjl : field.label ≠ .repeated) (hreq : field.label ≠ .required) :
    Safe (BothOk S D desc) (mergeElt merge D i j earlier latter) := by
  have hboth := h
  obtain ⟨hearlier, hlatter, hed, hld⟩ := h
  dsimp only at hearlier hlatter hed hld
  obtain ⟨has, e₀, hhas, -⟩ := hearlier.single (hed ▸ hi) hil
  obtain ⟨has', e₀', hhas', -⟩ := hlatter.single (hld ▸ hi) hil
  obtain ⟨_, e, he, heok⟩ := hearlier.single (hed ▸ hj) hjl
  obtain ⟨_, l, hl, hlok⟩ := hlatter.single (hld ▸ hj) hjl
  have hkind := heok.sameKind.of_both hlok.sameKind
  unfold mergeElt
  rw [orUndefined_bind (hld ▸ hi), orUndefined_bind (hld ▸ hj), orUndefined_bind (Message.quantifier?_of_single hhas),
    orUndefined_bind (Message.quantifier?_of_single hhas'),
    orUndefined_bind (Message.elt?_of_single he), orUndefined_bind (Message.elt?_of_single hl)]
  have hv : ∀ c, loopField.oneof = some c → IsCase D desc c (quantifierWord loopField earlier.cases has) := by
    intro c hc hne
    rw [quantifierWord, hc] at hne ⊢
    exact hed ▸ hearlier.cases c hne
  have hmove : ∀ b : Bool, BothOk S D desc (if b then moveElt i j loopField field
      (quantifierWord loopField earlier.cases has) e earlier latter else (earlier, latter)) := by
    intro b
    rcases b
    · exact hboth
    · exact moveElt_ok hboth hj hreq (heok.weaken False.elim) hv
  have hplain : Safe (BothOk S D desc) (do
      let need ← orUndefined (needToMerge field (quantifierWord loopField earlier.cases has)
        (quantifierWord loopField latter.cases has') e l)
      return if need then moveElt i j loopField field (quantifierWord loopField earlier.cases has) e earlier latter
        else (earlier, latter)) := by
    obtain ⟨need, hneed⟩ := needToMerge_some field hkind (quantifierWord loopField earlier.cases has)
      (quantifierWord loopField latter.cases has')
    rw [orUndefined_bind hneed]
    exact .pure (hmove need)
  rcases hkind with ⟨v, w⟩ | ⟨v, w⟩ | ⟨p, q⟩ | ⟨b, b'⟩ | ⟨_ | em, _ | lm⟩
  · exact hplain
  · exact hplain
  · exact hplain
  · exact hplain
  · exact hplain
  · exact hplain
  · exact hplain
  · obtain ⟨ht, hem, hS⟩ := heok
    obtain ⟨-, hlm, hS'⟩ := hlok
    refine (hmerge _ em lm ⟨hS, hem⟩ ⟨hS', hlm⟩).bind ?_
    rintro ⟨em', lm'⟩ ⟨⟨hS₁, hd₁⟩, hS₂, hd₂⟩
    have hkeep : ∀ j' field', j' ≠ j → isRequired j' field' → isRequired j' field' := fun _ _ _ hr => hr
    exact .pure ⟨hearlier.setElt (hed ▸ hj) ⟨ht, hd₁, hS₁⟩ hkeep, hlatter.setElt (hld ▸ hj) ⟨ht, hd₂, hS₂⟩ hkeep, hed,
      hld⟩

/-- The field that a case word stands for is in the oneof. -/
theorem IsCase.exists_field (hd : (D desc).WellFormed) {c : Nat} {v : UInt32} (h : IsCase D desc c v)
    (hj : intRangeLookup (D desc).fieldRanges (toInt v) = some j) :
    ∃ field, (D desc).fields[j]? = some field ∧ field.oneof = some c ∧ field.label ≠ .repeated ∧
      field.label ≠ .required := by
  have hid := hd.indexed.lookup_eq_some_iff.1 hj
  rw [List.getElem?_map] at hid
  obtain ⟨field, hfield, hid⟩ := Option.map_eq_some_iff.1 hid
  have hmem := hd.fields field (List.mem_of_getElem? hfield)
  have hid' := toInt_inj hid
  obtain ⟨j', field', hfield', hv, ho⟩ := h (hid' ▸ hmem.id)
  have hj' : intRangeLookup (D desc).fieldRanges (toInt v) = some j' := by
    rw [hd.indexed.lookup_eq_some_iff, List.getElem?_map, hfield', Option.map_some, hv]
  cases hj.symm.trans hj'
  cases hfield.symm.trans hfield'
  have hlabel := hmem.oneof (ho ▸ Option.some_ne_none c)
  refine ⟨field, hfield, ho, ?_, ?_⟩
  · rcases hlabel with hl | hl <;> rw [hl] <;> decide
  · rcases hlabel with hl | hl <;> rw [hl] <;> decide

theorem mergeSingle_safe (hd : (D desc).WellFormed) (hmerge : Merges (Known S) merge)
    (h : BothOk S D desc (earlier, latter)) (hfield : (D desc).fields[i]? = some field) (hreq : field.label ≠ .required)
    (hrep : field.label ≠ .repeated) : Safe (BothOk S D desc) (mergeSingle merge D i field earlier latter) := by
  unfold mergeSingle
  rcases ho : field.oneof with _ | c
  · exact mergeElt_safe hmerge h hfield hrep hfield hrep hreq
  · dsimp only
    split_ifs
    · exact .ok h
    · refine safe_orFail.bind fun j hj => ?_
      have hcase : IsCase D desc c (earlier.cases.getD c 0) := fun hne => h.desc_earlier ▸ h.earlier.cases c hne
      obtain ⟨field', hfield', -, hrep', hreq'⟩ := hcase.exists_field hd (h.desc_latter ▸ hj)
      exact mergeElt_safe hmerge h hfield hrep hfield' hrep' hreq'

theorem mergeRepeated_safe (h : BothOk S D desc (earlier, latter)) (hfield : (D desc).fields[i]? = some field)
    (hl : field.label = .repeated) : Safe (BothOk S D desc) (mergeRepeated i earlier latter) := by
  obtain ⟨hearlier, hlatter, hed, hld⟩ := h
  dsimp only at hearlier hlatter hed hld
  obtain ⟨elts, helts, hok⟩ := hearlier.repeated (hed ▸ hfield) hl
  obtain ⟨elts', helts', hok'⟩ := hlatter.repeated (hld ▸ hfield) hl
  have hkeep : ∀ j' field', j' ≠ i → isRequired j' field' → isRequired j' field' := fun _ _ _ hr => hr
  unfold mergeRepeated
  rw [orUndefined_bind helts, orUndefined_bind helts']
  refine .pure ⟨hearlier.setElts (hed ▸ hfield) ?_ hkeep hl, hlatter.setElts (hld ▸ hfield) ?_ hkeep hl, hed, hld⟩
  · exact fun e he => absurd he List.not_mem_nil
  · intro e he
    rcases List.mem_append.1 he with he | he
    · exact hok e he
    · exact hok' e he

theorem mergeField_safe (hd : (D desc).WellFormed) (hmerge : Merges (Known S) merge)
    (h : BothOk S D desc (earlier, latter)) (hi : i < (D desc).fields.length) :
    Safe (BothOk S D desc) (mergeField merge D i earlier latter) := by
  have hfield : (D latter.desc).fields[i]? = some (D desc).fields[i] := by
    rw [h.desc_latter]
    exact List.getElem?_eq_getElem hi
  unfold mergeField
  rw [orUndefined_bind hfield]
  rw [h.desc_latter] at hfield
  split
  · exact .ok h
  · rename_i hl
    exact mergeRepeated_safe h hfield hl
  · rename_i hreq hrep
    exact mergeSingle_safe hd hmerge h hfield hreq hrep

theorem mergeFields_safe (hd : (D desc).WellFormed) (hmerge : Merges (Known S) merge) {is : List Nat}
    (h : BothOk S D desc (earlier, latter)) (his : ∀ i ∈ is, i < (D desc).fields.length) :
    Safe (BothOk S D desc) (mergeFields merge D is earlier latter) := by
  induction is generalizing earlier latter with
  | nil => exact .ok h
  | cons i is ih =>
    refine (mergeField_safe hd hmerge h (his i (List.mem_cons_self ..))).bind ?_
    rintro ⟨earlier', latter'⟩ h'
    exact ih h' fun j hj => his j (List.mem_cons_of_mem _ hj)

theorem mergeMessages_safe (hD : ∀ desc, (D desc).WellFormed) (fuel : Nat) :
    Merges (Known (Sound D fuel)) (mergeMessages D fuel) := by
  induction fuel with
  | zero => exact fun _ _ _ he => he.1.elim
  | succ fuel ih =>
    rintro desc earlier latter ⟨hearlier, hed⟩ ⟨hlatter, hld⟩
    rw [mergeMessages]
    refine (mergeFields_safe (hD desc) ih ⟨hearlier, hlatter, hed, hld⟩ ?_).mono ?_
    · intro i hi
      rw [hld] at hi
      exact List.mem_range.1 hi
    · exact fun r hr => ⟨⟨hr.earlier, hr.desc_earlier⟩, hr.latter, hr.desc_latter⟩

end ProtobufC
end CmetricsRuby
