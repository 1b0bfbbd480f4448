import CmetricsRuby.ProtobufC.Message
import CmetricsRuby.Base.Bisect

/-!
# Looking things up in a descriptor

By number a field or an enum value is found in ranges of numbers that follow each other; by name it is found in a
table in the order of `strcmp`. Both are binary searches, and in a descriptor as `protoc` writes it they find what
is there. Where a pointer is returned it is here the index.
-/

namespace CmetricsRuby
namespace ProtobufC

open Bisect (bisect Ordered bisect_sound bisect_eq_some_iff)

/-- The `int` of the same bits. -/
def toInt (v : UInt32) : Int := if negative32 v then v.toNat - 2 ^ 32 else v.toNat

def rangeAt (ranges : List IntRange) (i : Nat) : IntRange := ranges.getD i ⟨0, 0⟩

def rangeSize (ranges : List IntRange) (i : Nat) : Int :=
  (rangeAt ranges (i + 1)).origIndex - (rangeAt ranges i).origIndex

/-- Where the numbers of a range end, as an `int`. The sum wraps at the last comparison of the search; in the loop
before it, it would be a signed overflow. -/
def rangeEnd (ranges : List IntRange) (i : Nat) : Int :=
  ((rangeAt ranges i).startValue + rangeSize ranges i).bmod (2 ^ 32)

def rangeCmp (ranges : List IntRange) (value : Int) (i : Nat) : Ordering :=
  if value < (rangeAt ranges i).startValue then .gt
  else if value ≥ rangeEnd ranges i then .lt
  else .eq

/-- `none` is -1. -/
def intRangeLookup (ranges : List IntRange) (value : Int) : Option Nat :=
  (bisect (rangeCmp ranges value) ranges.length 0 (ranges.length - 1)).map fun i =>
    (value - (rangeAt ranges i).startValue).toNat + (rangeAt ranges i).origIndex

/-- A range that ends at `2 ^ 31` has wrapped, so the largest `int` is not found in it. -/
theorem intRangeLookup_max (ranges : List IntRange) : intRangeLookup ranges (2 ^ 31 - 1) = none := by
  cases h : intRangeLookup ranges (2 ^ 31 - 1) with
  | none => rfl
  | some n =>
    obtain ⟨i, hi, -⟩ := Option.map_eq_some_iff.1 h
    obtain ⟨-, -, hcmp⟩ := bisect_sound hi
    have hlt : rangeEnd ranges i < (2 ^ 32 + 1) / 2 := Int.bmod_lt (by decide)
    unfold rangeCmp at hcmp
    split_ifs at hcmp with hlo hhi
    omega

def strcmp (a b : CStr) : Ordering := compare a.bytes b.bytes

/-- The search that the three tables of names share. -/
def searchByName (names : List CStr) (name : CStr) : Option Nat :=
  bisect (fun i => strcmp (names.getD i (CStr.ofPtr [])) name) (names.length + 1) 0 names.length

structure EnumValue where
  name : CStr
  value : Int

structure EnumValueIndex where
  name : CStr
  index : Nat
deriving DecidableEq

structure EnumDescriptor where
  values : List EnumValue
  valuesByName : Option (List EnumValueIndex)
  valueRanges : List IntRange

structure ServiceDescriptor where
  /-- The names of the methods. -/
  methods : List CStr
  methodIndicesByName : Option (List Nat)

def enumDescriptorGetValueByName (desc : Option EnumDescriptor) (name : CStr) : Option Nat := do
  let desc ← desc
  let valuesByName ← desc.valuesByName
  let i ← searchByName (valuesByName.map EnumValueIndex.name) name
  return (← valuesByName[i]?).index

def enumDescriptorGetValue (desc : EnumDescriptor) (value : Int) : Option Nat := intRangeLookup desc.valueRanges value

/-- The names of the entries of a table of indices. -/
def namesAt (names : List CStr) (indices : List Nat) : List CStr := indices.map fun i => names.getD i (CStr.ofPtr [])

def messageDescriptorGetFieldByName (desc : Option MessageDescriptor) (name : CStr) : Option Nat := do
  let desc ← desc
  let sorted ← desc.fieldsSortedByName
  let i ← searchByName (namesAt (desc.fields.map FieldDescriptor.name) sorted) name
  sorted[i]?

def messageDescriptorGetField (desc : MessageDescriptor) (value : UInt32) : Option Nat :=
  intRangeLookup desc.fieldRanges (toInt value)

def serviceDescriptorGetMethodByName (desc : Option ServiceDescriptor) (name : CStr) : Option Nat := do
  let desc ← desc
  let indices ← desc.methodIndicesByName
  let i ← searchByName (namesAt desc.methods indices) name
  indices[i]?

/-! ### Ranges -/

/-- The ranges say what `ids` are: each has the ones from its `origIndex` on, and the numbers go up. They end
below `2 ^ 31`. -/
structure RangesOf (ranges : List IntRange) (ids : List Int) : Prop where
  sentinel : ranges ≠ []
  first : (rangeAt ranges 0).origIndex = 0
  last : (rangeAt ranges (ranges.length - 1)).origIndex = ids.length
  bounded : ∀ r < ranges.length - 1, -2 ^ 31 ≤ (rangeAt ranges r).startValue ∧
    (rangeAt ranges r).startValue + rangeSize ranges r < 2 ^ 31
  ids : ∀ r < ranges.length - 1, ∀ k < (rangeAt ranges (r + 1)).origIndex - (rangeAt ranges r).origIndex,
    ids[(rangeAt ranges r).origIndex + k]? = some ((rangeAt ranges r).startValue + k)
  grows : ∀ r < ranges.length - 1, (rangeAt ranges r).origIndex ≤ (rangeAt ranges (r + 1)).origIndex
  apart : ∀ r < ranges.length - 2, rangeEnd ranges r ≤ (rangeAt ranges (r + 1)).startValue

instance (ranges : List IntRange) (ids : List Int) : Decidable (RangesOf ranges ids) :=
  decidable_of_iff (ranges ≠ [] ∧ (rangeAt ranges 0).origIndex = 0 ∧
      (rangeAt ranges (ranges.length - 1)).origIndex = ids.length ∧
      (∀ r < ranges.length - 1, -2 ^ 31 ≤ (rangeAt ranges r).startValue ∧
        (rangeAt ranges r).startValue + rangeSize ranges r < 2 ^ 31) ∧
      (∀ r < ranges.length - 1, ∀ k < (rangeAt ranges (r + 1)).origIndex - (rangeAt ranges r).origIndex,
        ids[(rangeAt ranges r).origIndex + k]? = some ((rangeAt ranges r).startValue + k)) ∧
      (∀ r < ranges.length - 1, (rangeAt ranges r).origIndex ≤ (rangeAt ranges (r + 1)).origIndex) ∧
      ∀ r < ranges.length - 2, rangeEnd ranges r ≤ (rangeAt ranges (r + 1)).startValue)
    ⟨fun ⟨h₁, h₂, h₃, h₄, h₅, h₆, h₇⟩ => ⟨h₁, h₂, h₃, h₄, h₅, h₆, h₇⟩,
      fun ⟨h₁, h₂, h₃, h₄, h₅, h₆, h₇⟩ => ⟨h₁, h₂, h₃, h₄, h₅, h₆, h₇⟩⟩

namespace RangesOf

variable {ranges : List IntRange} {ids : List Int} {value : Int} {i j r : Nat}

/-- Nothing wraps. -/
theorem rangeEnd_eq (h : RangesOf ranges ids) (hr : r < ranges.length - 1) : rangeEnd ranges r =
    (rangeAt ranges r).startValue + ((rangeAt ranges (r + 1)).origIndex - (rangeAt ranges r).origIndex) := by
  obtain ⟨hlo, hhi⟩ := h.bounded r hr
  have hgrows := h.grows r hr
  unfold rangeSize at hhi
  exact Int.bmod_eq_of_le (by unfold rangeSize; omega) (by unfold rangeSize; omega)

theorem start_le_end (h : RangesOf ranges ids) (hr : r < ranges.length - 1) :
    (rangeAt ranges r).startValue ≤ rangeEnd ranges r := by
  have := h.grows r hr
  rw [h.rangeEnd_eq hr]
  omega

theorem end_le (h : RangesOf ranges ids) (hij : i < j) (hj : j < ranges.length - 1) :
    rangeEnd ranges i ≤ (rangeAt ranges j).startValue := by
  induction j with
  | zero => omega
  | succ j ih =>
    have hstep := h.apart j (by omega)
    rcases Nat.lt_or_eq_of_le (Nat.le_of_lt_succ hij) with hlt | rfl
    · have := ih hlt (by omega)
      have := h.start_le_end (r := j) (by omega)
      omega
    · exact hstep

theorem ordered (h : RangesOf ranges ids) (value : Int) : Ordered (rangeCmp ranges value) (ranges.length - 1) := by
  intro i j hij hj
  have hend := h.end_le hij hj
  have hstart := h.start_le_end (r := i) (by omega)
  by_cases hlt : value < (rangeAt ranges j).startValue
  · exact .inr (if_pos hlt)
  · left
    rw [rangeCmp, if_neg (by omega), if_pos (by omega)]

theorem exists_range (h : RangesOf ranges ids) {m : Nat} (hm : m ≤ ranges.length - 1)
    (hi : i < (rangeAt ranges m).origIndex) :
    ∃ r < m, (rangeAt ranges r).origIndex ≤ i ∧ i < (rangeAt ranges (r + 1)).origIndex := by
  induction m with
  | zero =>
    rw [h.first] at hi
    omega
  | succ m ih =>
    by_cases hlt : i < (rangeAt ranges m).origIndex
    · obtain ⟨r, hr, hin⟩ := ih (by omega) hlt
      exact ⟨r, by omega, hin⟩
    · exact ⟨m, by omega, by omega, hi⟩

/-- The search finds the place of every number that is there, and no other. -/
theorem lookup_eq_some_iff (h : RangesOf ranges ids) : intRangeLookup ranges value = some i ↔ ids[i]? = some value := by
  have hlen := List.length_pos_iff.2 h.sentinel
  have hbisect := fun {r} => bisect_eq_some_iff (i := r) (h.ordered value) (show ranges.length - 1 < ranges.length by omega)
  unfold intRangeLookup
  rw [Option.map_eq_some_iff]
  constructor
  · rintro ⟨r, hr, rfl⟩
    obtain ⟨hr, hcmp⟩ := hbisect.1 hr
    unfold rangeCmp at hcmp
    split_ifs at hcmp with hlo hhi
    rw [h.rangeEnd_eq hr] at hhi
    have hid := h.ids r hr (value - (rangeAt ranges r).startValue).toNat (by omega)
    rw [Nat.add_comm, hid]
    congr 1
    omega
  · intro hi
    have hlt : i < ids.length := (List.getElem?_eq_some_iff.1 hi).1
    obtain ⟨r, hr, hlo, hhi⟩ := h.exists_range le_rfl (h.last ▸ hlt)
    have hid := h.ids r hr (i - (rangeAt ranges r).origIndex) (by omega)
    rw [Nat.add_sub_cancel' hlo, hi] at hid
    have hvalue := Option.some.inj hid
    refine ⟨r, hbisect.2 ⟨hr, ?_⟩, by omega⟩
    rw [rangeCmp, if_neg (by omega), if_neg (by rw [h.rangeEnd_eq hr]; omega)]

end RangesOf

theorem toInt_inj {v w : UInt32} (h : toInt v = toInt w) : v = w := by
  have hv := v.toNat_lt
  have hw := w.toNat_lt
  refine UInt32.toNat_inj.1 ?_
  unfold toInt negative32 at h
  split_ifs at h <;> simp only [decide_eq_true_eq] at * <;> omega

/-! ### Names -/

theorem strcmp_eq_iff {a b : CStr} : strcmp a b = .eq ↔ a = b := by
  rw [strcmp, Std.LawfulEqOrd.compare_eq_iff_eq]
  constructor
  · intro h
    rcases a with ⟨x, hx⟩
    rcases b with ⟨y, hy⟩
    cases h
    rfl
  · rintro rfl
    rfl

def SortedNames (names : List CStr) : Prop := names.Pairwise fun a b => strcmp a b = .lt

instance (names : List CStr) : Decidable (SortedNames names) := inferInstanceAs (Decidable (List.Pairwise _ _))

theorem SortedNames.ordered {names : List CStr} (h : SortedNames names) (name : CStr) :
    Ordered (fun i => strcmp (names.getD i (CStr.ofPtr [])) name) names.length := by
  intro i j hij hj
  have hlt : compare names[i].bytes names[j].bytes = .lt := List.pairwise_iff_getElem.1 h i j (hij.trans hj) hj hij
  simp only [List.getD_eq_getElem _ _ hj, List.getD_eq_getElem _ _ (hij.trans hj)]
  rcases hi : compare names[i].bytes name.bytes with _ | _ | _
  · exact .inl hi
  · rw [strcmp_eq_iff.1 hi] at hlt
    have hgt : compare names[j].bytes name.bytes = .gt := Std.OrientedCmp.gt_of_lt hlt
    exact .inr hgt
  · have hname : compare name.bytes names[j].bytes = .lt := Std.TransCmp.lt_trans (Std.OrientedCmp.lt_of_gt hi) hlt
    have hgt : compare names[j].bytes name.bytes = .gt := Std.OrientedCmp.gt_of_lt hname
    exact .inr hgt

theorem searchByName_eq_some_iff {names : List CStr} (h : SortedNames names) {name : CStr} {i : Nat} :
    searchByName names name = some i ↔ names[i]? = some name := by
  rw [searchByName, bisect_eq_some_iff (h.ordered name) (Nat.lt_succ_self _), strcmp_eq_iff,
    List.getElem?_eq_some_iff]
  constructor
  · rintro ⟨hi, hname⟩
    exact ⟨hi, by rw [← hname, List.getD_eq_getElem _ _ hi]⟩
  · rintro ⟨hi, hname⟩
    exact ⟨hi, by rw [List.getD_eq_getElem _ _ hi, hname]⟩

/-- A table has each index once, in the order of the names. -/
structure TableOf (names : List CStr) (indices : List Nat) : Prop where
  perm : indices.Perm (List.range names.length)
  sorted : SortedNames (namesAt names indices)

theorem TableOf.search {names : List CStr} {indices : List Nat} (h : TableOf names indices) {name : CStr} {k : Nat} :
    (do let i ← searchByName (namesAt names indices) name; indices[i]?) = some k ↔ names[k]? = some name := by
  have hmem : ∀ {j}, j ∈ indices ↔ j < names.length := fun {j} => by
    rw [h.perm.mem_iff, List.mem_range]
  have hname : ∀ {j}, j < names.length → names.getD j (CStr.ofPtr []) = name → names[j]? = some name := by
    intro j hj hn
    rw [List.getElem?_eq_getElem hj, ← hn, List.getD_eq_getElem _ _ hj]
  show (searchByName (namesAt names indices) name).bind _ = _ ↔ _
  rw [Option.bind_eq_some_iff]
  constructor
  · rintro ⟨i, hi, hk⟩
    rw [searchByName_eq_some_iff h.sorted, namesAt, List.getElem?_map, hk, Option.map_some, Option.some_inj] at hi
    exact hname (hmem.1 (List.mem_of_getElem? hk)) hi
  · intro hk
    obtain ⟨hlt, hget⟩ := List.getElem?_eq_some_iff.1 hk
    obtain ⟨i, hi⟩ := List.getElem?_of_mem (hmem.2 hlt)
    refine ⟨i, ?_, hi⟩
    rw [searchByName_eq_some_iff h.sorted, namesAt, List.getElem?_map, hi, Option.map_some,
      List.getD_eq_getElem _ _ hlt, hget]

/-! ### The five lookups -/

/-- What `protoc` writes of the names and numbers of a message, an enum and a service. -/
structure Tables (message : MessageDescriptor) (enum : EnumDescriptor) (service : ServiceDescriptor) (sorted : List Nat)
    (byName : List EnumValueIndex) (indices : List Nat) : Prop where
  fields : RangesOf message.fieldRanges (message.fields.map fun field => toInt field.id)
  fieldTable : message.fieldsSortedByName = some sorted
  fieldNames : TableOf (message.fields.map FieldDescriptor.name) sorted
  values : RangesOf enum.valueRanges (enum.values.map EnumValue.value)
  valueTable : enum.valuesByName = some byName
  valueNames : SortedNames (byName.map EnumValueIndex.name)
  methodTable : service.methodIndicesByName = some indices
  methodNames : TableOf service.methods indices

theorem enumByName_eq_some_iff {enum : EnumDescriptor} {byName : List EnumValueIndex} (h : enum.valuesByName = some byName)
    (hsorted : SortedNames (byName.map EnumValueIndex.name)) {name : CStr} {i : Nat} :
    enumDescriptorGetValueByName (some enum) name = some i ↔ ⟨name, i⟩ ∈ byName := by
  have hsearch : ∀ {k}, searchByName (byName.map EnumValueIndex.name) name = some k ↔
      (byName.map EnumValueIndex.name)[k]? = some name := searchByName_eq_some_iff hsorted
  show (enum.valuesByName.bind _) = _ ↔ _
  rw [h]
  show (searchByName _ _).bind _ = _ ↔ _
  rw [Option.bind_eq_some_iff]
  constructor
  · rintro ⟨k, hk, hi⟩
    obtain ⟨entry, hentry, heq⟩ := Option.bind_eq_some_iff.1 hi
    rw [hsearch, List.getElem?_map, hentry, Option.map_some, Option.some_inj] at hk
    cases heq
    cases hk
    exact List.mem_of_getElem? hentry
  · intro hmem
    obtain ⟨k, hk⟩ := List.getElem?_of_mem hmem
    refine ⟨k, ?_, ?_⟩
    · rw [hsearch, List.getElem?_map, hk]
      rfl
    · rw [hk]
      rfl

theorem lookups_find {message : MessageDescriptor} {enum : EnumDescriptor} {service : ServiceDescriptor}
    {sorted : List Nat} {byName : List EnumValueIndex} {indices : List Nat}
    (h : Tables message enum service sorted byName indices) :
    (∀ tag i, messageDescriptorGetField message tag = some i ↔ message.fields[i]?.map FieldDescriptor.id = some tag) ∧
    (∀ name i, messageDescriptorGetFieldByName (some message) name = some i ↔
      message.fields[i]?.map FieldDescriptor.name = some name) ∧
    (∀ value i, enumDescriptorGetValue enum value = some i ↔ enum.values[i]?.map EnumValue.value = some value) ∧
    (∀ name i, enumDescriptorGetValueByName (some enum) name = some i ↔ ⟨name, i⟩ ∈ byName) ∧
    ∀ name i, serviceDescriptorGetMethodByName (some service) name = some i ↔ service.methods[i]? = some name := by
  refine ⟨?_, ?_, ?_, ?_, ?_⟩
  · intro tag i
    rw [messageDescriptorGetField, h.fields.lookup_eq_some_iff, List.getElem?_map]
    rcases message.fields[i]? with _ | field
    · simp
    · exact ⟨fun hid => congrArg some (toInt_inj (Option.some.inj hid)), fun hid => congrArg (Option.map toInt) hid⟩
  · intro name i
    rw [← List.getElem?_map, ← h.fieldNames.search]
    show (message.fieldsSortedByName.bind _) = _ ↔ _
    rw [h.fieldTable]
    exact Iff.rfl
  · intro value i
    rw [enumDescriptorGetValue, h.values.lookup_eq_some_iff, List.getElem?_map]
  · intro name i
    exact enumByName_eq_some_iff h.valueTable h.valueNames
  · intro name i
    rw [← h.methodNames.search]
    show (service.methodIndicesByName.bind _) = _ ↔ _
    rw [h.methodTable]
    exact Iff.rfl

def pointMessage : MessageDescriptor where
  fields := [⟨CStr.ofPtr [121], 1, .none, .double, false, none, false, 0, none⟩,
    ⟨CStr.ofPtr [120], 3, .none, .double, false, none, false, 0, none⟩]
  fieldsSortedByName := some [1, 0]
  fieldRanges := [⟨1, 0⟩, ⟨3, 1⟩, ⟨0, 2⟩]
  nOneofs := 0

/-- The first value has two names. -/
def signEnum : EnumDescriptor where
  values := [⟨CStr.ofPtr [109], -1⟩, ⟨CStr.ofPtr [122], 0⟩, ⟨CStr.ofPtr [112], 1⟩]
  valuesByName := some [⟨CStr.ofPtr [109], 0⟩, ⟨CStr.ofPtr [110], 0⟩, ⟨CStr.ofPtr [112], 2⟩, ⟨CStr.ofPtr [122], 1⟩]
  valueRanges := [⟨-1, 0⟩, ⟨0, 3⟩]

def pairService : ServiceDescriptor where
  methods := [CStr.ofPtr [98], CStr.ofPtr [97]]
  methodIndicesByName := some [1, 0]

theorem tables_sign : Tables pointMessage signEnum pairService [1, 0]
    [⟨CStr.ofPtr [109], 0⟩, ⟨CStr.ofPtr [110], 0⟩, ⟨CStr.ofPtr [112], 2⟩, ⟨CStr.ofPtr [122], 1⟩] [1, 0] :=
  ⟨by decide, rfl, ⟨by decide, by decide⟩, by decide, rfl, by decide, rfl, ⟨by decide, by decide⟩⟩

theorem lookups_find_sign : enumDescriptorGetValueByName (some signEnum) (CStr.ofPtr [110]) = some 0 :=
  ((lookups_find tables_sign).2.2.2.1 _ _).2 (by decide)

end ProtobufC
end CmetricsRuby
