import CmetricsRuby.ProtobufC.Unpack
import CmetricsRuby.Base.Outcome

/-!
# What the scan finds

Whatever the input is, the scan reads nothing behind it, and what it counts is what the members it cut out have:
so much unknown, so many elements for each repeated field.
-/

namespace CmetricsRuby
namespace ProtobufC

/-- A result, NULL or FALSE, but no undefined behaviour. -/
abbrev Safe {α : Type} (P : α → Prop) (x : Except Stop α) : Prop := Ends (· = Stop.failed) P x

theorem safe_orFail {α : Type} {o : Option α} : Safe (fun a => o = some a) (orFail o) := by
  rcases o with _ | a
  · exact .error rfl
  · exact .ok rfl

/-! ### Cutting -/

theorem tagLoop_safe (tag shift : UInt32) (rv : Nat) (l : Bytes) :
    Safe (fun r => rv < r.1 ∧ r.1 ≤ rv + l.length) (tagLoop tag shift rv l) := by
  induction l generalizing tag shift rv with
  | nil => exact .error rfl
  | cons b l ih =>
    rw [tagLoop]
    split_ifs
    · refine (ih _ _ (rv + 1)).mono fun r hr => ?_
      rw [List.length_cons]
      omega
    · refine .ok ⟨Nat.lt_succ_self rv, ?_⟩
      rw [List.length_cons]
      omega

theorem parseTagAndWiretype_safe {data : Bytes} (h : data ≠ []) :
    Safe (fun r => 0 < r.1 ∧ r.1 ≤ data.length) (parseTagAndWiretype data) := by
  rcases data with _ | ⟨b, l⟩
  · exact absurd rfl h
  rw [parseTagAndWiretype]
  simp only []
  split_ifs
  · exact .error rfl
  · exact .ok ⟨Nat.one_pos, Nat.succ_pos _⟩
  · refine (tagLoop_safe (low7 b >>> 3) 4 1 (l.take 4)).bind ?_
    rintro ⟨rv, tag⟩ hrv
    rw [List.length_take] at hrv
    refine .pure ⟨by omega, ?_⟩
    rw [List.length_cons]
    omega

theorem findIdx?_take {p : UInt8 → Bool} {n i : Nat} {data : Bytes} (h : (data.take n).findIdx? p = some i) :
    i < n ∧ i < data.length ∧ data.countP p = (data.drop (i + 1)).countP p + 1 := by
  induction data generalizing n i with
  | nil => simp at h
  | cons b data ih =>
    rcases n with _ | n
    · simp at h
    rw [List.take_succ_cons, List.findIdx?_cons] at h
    by_cases hb : p b = true
    · rw [if_pos hb] at h
      cases h
      exact ⟨by omega, by simp, by simp [hb]⟩
    · rw [if_neg hb] at h
      obtain ⟨j, hj, rfl⟩ := Option.map_eq_some_iff.1 h
      obtain ⟨hn, hlen, hcount⟩ := ih hj
      refine ⟨by omega, by rw [List.length_cons]; omega, ?_⟩
      rw [List.countP_cons_of_neg hb, hcount, List.drop_succ_cons]

theorem scanVarint_some {data : Bytes} {s : Nat} (h : scanVarint data = some s) :
    0 < s ∧ s ≤ 10 ∧ s ≤ data.length ∧ maxB128Numbers data = maxB128Numbers (data.drop s) + 1 := by
  obtain ⟨i, hi, rfl⟩ := Option.map_eq_some_iff.1 h
  obtain ⟨hn, hlen, hcount⟩ := findIdx?_take hi
  exact ⟨by omega, by omega, by omega, hcount⟩

theorem prefixLoop_some {val shift hdrLen : Nat} {l : Bytes} {r : Nat × Nat}
    (h : prefixLoop val shift hdrLen l = some r) : hdrLen < r.1 ∧ r.1 ≤ hdrLen + l.length := by
  induction l generalizing val shift hdrLen with
  | nil => cases h
  | cons b l ih =>
    rw [prefixLoop] at h
    rw [List.length_cons]
    split_ifs at h
    · cases h
      exact ⟨by omega, by omega⟩
    · have := ih h
      omega

theorem scanLengthPrefixedData_some {data : Bytes} {r : Nat × Nat} (h : scanLengthPrefixedData data = some r) :
    0 < r.2 ∧ r.2 ≤ r.1 ∧ r.1 ≤ data.length := by
  obtain ⟨⟨hdrLen, val⟩, hloop, h⟩ := Option.bind_eq_some_iff.1 h
  have hhdr := prefixLoop_some hloop
  dsimp only at h hhdr
  split_ifs at h with hbig hshort
  cases h
  exact ⟨by omega, by omega, by omega⟩

/-! ### A member -/

namespace ScannedMember

/-- As the wire type says. -/
structure Ok (s : ScannedMember) : Prop where
  nonempty : s.data ≠ []
  within : s.lengthPrefixLen ≤ s.data.length
  varint : s.wireType = 0 → s.data.length ≤ 10
  word64 : s.wireType = 1 → s.data.length = 8
  word32 : s.wireType = 5 → s.data.length = 4

end ScannedMember

theorem scanData_some {wireType : UInt8} {rest : Bytes} {len p : Nat} (h : scanData wireType rest = some (len, p))
    (tag : UInt32) (field : Option Nat) :
    0 < len ∧ len ≤ rest.length ∧ (⟨tag, wireType, p, field, rest.take len⟩ : ScannedMember).Ok := by
  have key : 0 < len ∧ len ≤ rest.length ∧ p ≤ len ∧ (wireType = 0 → len ≤ 10) ∧ (wireType = 1 → len = 8) ∧
      (wireType = 5 → len = 4) := by
    have hne : ∀ {a b : UInt8} {q : Prop}, a ≠ b → a = b → q := fun hab he => absurd he hab
    unfold scanData at h
    split at h
    · obtain ⟨s, hs, heq⟩ := Option.map_eq_some_iff.1 h
      cases heq
      obtain ⟨hpos, hten, hlen, -⟩ := scanVarint_some hs
      exact ⟨hpos, hlen, Nat.zero_le _, fun _ => hten, hne (by decide), hne (by decide)⟩
    · split_ifs at h
      cases h
      exact ⟨by omega, by omega, by omega, hne (by decide), fun _ => rfl, hne (by decide)⟩
    · obtain ⟨hpos, hp, hlen⟩ := scanLengthPrefixedData_some h
      exact ⟨by omega, hlen, hp, hne (by decide), hne (by decide), hne (by decide)⟩
    · split_ifs at h
      cases h
      exact ⟨by omega, by omega, by omega, hne (by decide), hne (by decide), fun _ => rfl⟩
    · cases h
  obtain ⟨hpos, hlen, hp, h0, h1, h5⟩ := key
  have htake : (rest.take len).length = len := List.length_take_of_le hlen
  refine ⟨hpos, hlen, ?_, ?_, ?_, ?_, ?_⟩
  · intro hnil
    rw [show rest.take len = [] from hnil, List.length_nil] at htake
    omega
  · exact htake.symm ▸ hp
  · exact fun hw => htake.symm ▸ h0 hw
  · exact fun hw => htake.symm ▸ h1 hw
  · exact fun hw => htake.symm ▸ h5 hw

/-! ### What is counted -/

/-- The ranges are those of the ids. -/
def MessageDescriptor.Indexed (desc : MessageDescriptor) : Prop :=
  RangesOf desc.fieldRanges (desc.fields.map fun field => toInt field.id)

namespace ScannedMember

/-- The member stands for its field, and its elements can be counted. -/
structure Fits (desc : MessageDescriptor) (s : ScannedMember) : Prop where
  ok : s.Ok
  field : ∀ i, s.field = some i → ∃ field, desc.fields[i]? = some field ∧ field.id = s.tag ∧
    (field.label = .repeated → ∃ n, memberCount field s = some n)

/-- How many elements the array of field `i` gets from a member. -/
def need (desc : MessageDescriptor) (i : Nat) (s : ScannedMember) : Nat :=
  if s.field = some i then
    match desc.fields[i]? with
    | some field => if field.label = .repeated then (memberCount field s).getD 0 else 0
    | none => 0
  else 0

end ScannedMember

def wanted (desc : MessageDescriptor) (ss : List ScannedMember) (i : Nat) : Nat := (ss.map (·.need desc i)).sum

def unknowns (ss : List ScannedMember) : Nat := ss.countP (·.field.isNone)

theorem countPackedElements_le {t : FieldType} {data : Bytes} {n : Nat} (h : countPackedElements t data = some n) :
    n ≤ data.length := by
  unfold countPackedElements at h
  split at h
  all_goals first
    | (split_ifs at h; cases h; exact Nat.div_le_self ..)
    | (cases h; exact le_rfl)
    | (cases h; exact List.countP_le_length)
    | cases h

namespace ScannedMember

variable {desc : MessageDescriptor} {s : ScannedMember} {i : Nat}

theorem need_of_none (h : s.field = none) (i : Nat) : s.need desc i = 0 := by
  rw [need, h, if_neg (Option.some_ne_none i).symm]

theorem need_of_some {field : FieldDescriptor} (h : s.field = some i) (hfield : desc.fields[i]? = some field) (j : Nat) :
    s.need desc j = if i = j ∧ field.label = .repeated then (memberCount field s).getD 0 else 0 := by
  unfold need
  by_cases hij : i = j
  · subst hij
    rw [if_pos h, hfield]
    simp only [true_and]
  · rw [if_neg (fun hj => hij (Option.some.inj (h.symm.trans hj))), if_neg fun hc => hij hc.1]

end ScannedMember

theorem need_le (desc : MessageDescriptor) {s : ScannedMember} (h : s.Ok) (i : Nat) : s.need desc i ≤ s.data.length := by
  have hpos := List.length_pos_iff.2 h.nonempty
  rcases hf : s.field with _ | j
  · rw [s.need_of_none hf]
    exact Nat.zero_le _
  rcases hfield : desc.fields[j]? with _ | field
  · simp only [ScannedMember.need, hf, Option.some_inj]
    split_ifs with hj
    · rw [← hj, hfield]
      exact Nat.zero_le _
    · exact Nat.zero_le _
  rw [s.need_of_some hf hfield]
  split_ifs
  · rcases hn : memberCount field s with _ | n
    · exact Nat.zero_le _
    · unfold memberCount at hn
      split_ifs at hn
      · have hle := countPackedElements_le hn
        rw [ScannedMember.payload, List.length_drop] at hle
        rw [Option.getD_some]
        omega
      · cases hn
        exact hpos
  · exact Nat.zero_le _

/-- So much is true of the scan when it is through with `used` bytes. -/
structure ScanOk (desc : MessageDescriptor) (scan : Scan) (used : Nat) : Prop where
  fits : ∀ s ∈ scan.members, s.Fits desc
  unknown : scan.nUnknown = unknowns scan.members
  length : scan.counts.length = desc.fields.length
  counts : ∀ i < desc.fields.length, scan.counts.getD i 0 = wanted desc scan.members i
  required : ∀ i ∈ scan.required, ∃ s ∈ scan.members, s.field = some i
  used : (scan.members.map fun s => s.data.length + 1).sum ≤ used

theorem scanOk_start (desc : MessageDescriptor) : ScanOk desc (.start desc) 0 := by
  refine ⟨fun s hs => absurd hs List.not_mem_nil, rfl, List.length_map .., ?_, fun i hi => absurd hi List.not_mem_nil,
    le_rfl⟩
  intro i hi
  simp [Scan.start, wanted, List.getD_eq_getElem?_getD, hi]

theorem lookupField_some {desc : MessageDescriptor} (hd : desc.Indexed) {last i : Nat} {tag : UInt32}
    (h : lookupField desc last tag = some i) : ∃ field, desc.fields[i]? = some field ∧ field.id = tag := by
  unfold lookupField at h
  split_ifs at h with hlast
  · cases h
    obtain ⟨field, hfield, hid⟩ := (Option.any_eq_true _ _).1 hlast
    exact ⟨field, hfield, of_decide_eq_true hid⟩
  · have hid := hd.lookup_eq_some_iff.1 h
    rw [List.getElem?_map] at hid
    obtain ⟨field, hfield, hid⟩ := Option.map_eq_some_iff.1 hid
    exact ⟨field, hfield, toInt_inj hid⟩

theorem wanted_append (desc : MessageDescriptor) (ss : List ScannedMember) (s : ScannedMember) (i : Nat) :
    wanted desc (ss ++ [s]) i = wanted desc ss i + s.need desc i := by
  simp [wanted]

theorem wanted_cons (desc : MessageDescriptor) (ss : List ScannedMember) (s : ScannedMember) (i : Nat) :
    wanted desc (s :: ss) i = s.need desc i + wanted desc ss i := by
  simp [wanted]

theorem unknowns_append (ss : List ScannedMember) (s : ScannedMember) :
    unknowns (ss ++ [s]) = unknowns ss + if s.field.isNone then 1 else 0 := by
  simp [unknowns, List.countP_append, List.countP_singleton]

theorem getD_modify (l : List Nat) (i j n : Nat) (hi : i < l.length) :
    (l.modify i (· + n)).getD j 0 = l.getD j 0 + if i = j then n else 0 := by
  rw [List.getD_eq_getElem?_getD, List.getD_eq_getElem?_getD, List.getElem?_modify]
  split_ifs with h
  · subst h
    rw [List.getElem?_eq_getElem hi]
    rfl
  · rcases l[j]? with _ | a <;> rfl

/-- The members and slabs aside, what the tally of one more member adds. -/
theorem tally_safe {desc : MessageDescriptor} {scan : Scan} {used k : Nat} {s : ScannedMember} (h : ScanOk desc scan used)
    (hok : s.Ok) (hs : ∀ i, s.field = some i → ∃ field, desc.fields[i]? = some field ∧ field.id = s.tag)
    (hk : s.data.length + 1 ≤ k) (whichSlab inSlabIndex : Nat) :
    Safe (fun scan' : Scan => ScanOk desc
      { scan' with members := scan'.members ++ [s], whichSlab := whichSlab, inSlabIndex := inSlabIndex } (used + k))
      (scan.tally desc s) := by
  have hused : ((scan.members ++ [s]).map fun s => s.data.length + 1).sum ≤ used + k := by
    have := h.used
    rw [List.map_append, List.sum_append, List.map_singleton, List.sum_singleton]
    omega
  have hfits : s.Fits desc → ∀ s' ∈ scan.members ++ [s], s'.Fits desc := by
    intro hs s' hs'
    rcases List.mem_append.1 hs' with hs' | hs'
    · exact h.fits s' hs'
    · rwa [List.mem_singleton.1 hs']
  have hold : ∀ {i}, (∃ s' ∈ scan.members, s'.field = some i) → ∃ s' ∈ scan.members ++ [s], s'.field = some i :=
    fun ⟨s', hs', hf⟩ => ⟨s', List.mem_append_left _ hs', hf⟩
  unfold Scan.tally
  rcases hf : s.field with _ | i
  · refine .ok ⟨hfits ⟨hok, fun i hi => absurd (hf.symm.trans hi) (Option.some_ne_none i).symm⟩, ?_, h.length, ?_, ?_,
      hused⟩
    · rw [unknowns_append, hf, ← h.unknown]
      rfl
    · intro i hi
      rw [wanted_append, s.need_of_none hf, ← h.counts i hi]
      rfl
    · exact fun i hi => hold (h.required i hi)
  · obtain ⟨field, hfield, hid⟩ := hs i hf
    have hlt : i < desc.fields.length := (List.getElem?_eq_some_iff.1 hfield).1
    have hunknown : scan.nUnknown = unknowns (scan.members ++ [s]) := by
      rw [unknowns_append, hf, ← h.unknown]
      rfl
    have hneed := s.need_of_some hf hfield
    have hcounts : field.label ≠ .repeated → ∀ j < desc.fields.length,
        scan.counts.getD j 0 = wanted desc (scan.members ++ [s]) j := by
      intro hl j hj
      rw [wanted_append, hneed, if_neg fun hc => hl hc.2, h.counts j hj]
      rfl
    have hplain : field.label ≠ .repeated → s.Fits desc := by
      refine fun hl => ⟨hok, fun j hj => ⟨field, ?_, hid, fun hr => absurd hr hl⟩⟩
      cases hf.symm.trans hj
      exact hfield
    simp only [hfield]
    split
    · rename_i hl
      have hne : field.label ≠ .repeated := by rw [hl]; decide
      refine .ok ⟨hfits (hplain hne), hunknown, h.length, hcounts hne, ?_, hused⟩
      intro j hj
      rcases List.mem_cons.1 hj with rfl | hj
      · exact ⟨s, List.mem_append_right _ (List.mem_singleton_self s), hf⟩
      · exact hold (h.required j hj)
    · rename_i hl
      rcases hn : memberCount field s with _ | n
      · exact .error rfl
      · refine .ok ⟨hfits ⟨hok, fun j hj => ⟨field, ?_, hid, fun _ => ⟨n, hn⟩⟩⟩, hunknown, ?_, ?_,
          fun j hj => hold (h.required j hj), hused⟩
        · cases hf.symm.trans hj
          exact hfield
        · exact (List.length_modify ..).trans h.length
        · intro j hj
          show (scan.counts.modify i (· + n)).getD j 0 = _
          rw [getD_modify _ _ _ _ (h.length.symm ▸ hlt), wanted_append, hneed, hn, h.counts j hj, Option.getD_some]
          simp only [hl, and_true]
    · rename_i hreq hrep
      exact .ok ⟨hfits (hplain hrep), hunknown, h.length, hcounts hrep, fun j hj => hold (h.required j hj), hused⟩

theorem turn_safe {desc : MessageDescriptor} (hd : desc.Indexed) {scan : Scan} {used : Nat} {rest : Bytes}
    (h : ScanOk desc scan used) (hne : rest ≠ []) :
    Safe (fun r => r.2.length < rest.length ∧ ∃ used', ScanOk desc r.1 used' ∧ used' + r.2.length = used + rest.length)
      (scan.turn desc rest) := by
  unfold Scan.turn
  refine (parseTagAndWiretype_safe hne).bind ?_
  rintro ⟨n, tag, wireType⟩ ⟨hpos, hn⟩
  dsimp only at hpos hn ⊢
  refine safe_orFail.bind ?_
  rintro ⟨len, p⟩ hcut
  obtain ⟨hlenpos, hlen, hok⟩ := scanData_some hcut tag (lookupField desc scan.lastField tag)
  dsimp only
  refine safe_orFail.bind ?_
  rintro ⟨whichSlab, inSlabIndex⟩ -
  dsimp only
  rw [List.length_drop] at hlen
  have htake : ((rest.drop n).take len).length = len := List.length_take_of_le (by rw [List.length_drop]; omega)
  have hk : ((rest.drop n).take len).length + 1 ≤ n + len := by omega
  refine (tally_safe h hok (fun i hi => lookupField_some hd hi) hk whichSlab (inSlabIndex + 1)).bind ?_
  intro scan' hscan'
  refine .pure ⟨?_, used + (n + len), hscan', ?_⟩
  · simp only [List.length_drop]
    omega
  · simp only [List.length_drop]
    omega

theorem loop_safe {desc : MessageDescriptor} (hd : desc.Indexed) {fuel used : Nat} {scan : Scan} {rest : Bytes}
    (h : ScanOk desc scan used) (hfuel : rest.length ≤ fuel) :
    Safe (fun scan' => ScanOk desc scan' (used + rest.length)) (Scan.loop desc fuel scan rest) := by
  induction fuel generalizing scan used rest with
  | zero =>
    rw [List.length_eq_zero_iff.1 (Nat.le_zero.1 hfuel), Scan.loop]
    exact .ok h
  | succ fuel ih =>
    rcases rest with _ | ⟨b, rest⟩
    · rw [Scan.loop]
      exact .ok h
    · rw [Scan.loop]
      refine (turn_safe hd h (List.cons_ne_nil b rest)).bind ?_
      rintro ⟨scan', rest'⟩ ⟨hlt, used', hscan', hused'⟩
      dsimp only at hlt hused' ⊢
      rw [← hused']
      exact ih hscan' (by omega)

end ProtobufC
end CmetricsRuby
