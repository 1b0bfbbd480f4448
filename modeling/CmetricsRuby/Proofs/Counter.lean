import CmetricsRuby.Effects
import CmetricsRuby.Reference
import CmetricsRuby.Base.Machine

/-!
# A counter only goes up

The calls on a `Counter` after `create`. `inc` adds one, and the library refuses to `set` less than what
is stored; `add` takes a negative number, which the library adds. As long as it does not, no value goes
down, and a call that is refused changes nothing. The sums are exact ones.
-/

namespace CmetricsRuby

/-- The value stored for the labels `L`; a sample that is not there yet counts as zero. -/
def Library.stored (lib : Library) (c : lib.Metric) (L : List CStr) (mem : lib.Mem) : Double :=
  let r := lib.cmtGetVal .counter (some c) L.length L mem
  if r.1 = 0 then r.2 else 0

/-- What is assumed of counters: an update that succeeds stores what it is to store and no more, one
that fails stores nothing, less than what is stored is not set, and nothing else changes a value. -/
structure Library.Counts (lib : Library) : Prop where
  stores : ∀ {u : Update} {c : lib.Metric} {ts : Nat} {L : List CStr} {mem : lib.Mem}, u.kind = .counter →
    let r := lib.cmtUpdate u (some c) ts L.length L mem
    r.1 = 0 → lib.stored c L r.2 = u.target .exact (lib.stored c L mem) ∧
      ∀ L', L ≠ L' → lib.stored c L' r.2 = lib.stored c L' mem
  fails : ∀ {u : Update} {c : lib.Metric} {ts : Nat} {L : List CStr} {mem : lib.Mem}, u.kind = .counter →
    let r := lib.cmtUpdate u (some c) ts L.length L mem
    r.1 ≠ 0 → ∀ L', lib.stored c L' r.2 = lib.stored c L' mem
  refuses : ∀ {v : Double} {c : lib.Metric} {ts : Nat} {L : List CStr} {mem : lib.Mem},
    v < lib.stored c L mem → (lib.cmtUpdate (.counterSet v) (some c) ts L.length L mem).1 ≠ 0
  labelAdd : ∀ cmt key val mem c L,
    lib.stored c L (lib.cmtLabelAdd cmt key val mem).2 = lib.stored c L mem
  encode : ∀ e cmt mem c L, lib.stored c L (lib.cmtEncode e cmt mem).2 = lib.stored c L mem
  encodeDestroy : ∀ e buf mem c L, lib.stored c L (lib.cmtEncodeDestroy e buf mem) = lib.stored c L mem
  encodeMsgpack : ∀ cmt mem c L,
    lib.stored c L (lib.cmtEncodeMsgpackCreate cmt mem).2 = lib.stored c L mem

namespace Counter

variable {lib : Library} {E : Type} {self : ObjId} {c : lib.Metric} {m : MetricMethod}
  {w w' : World lib E} {s : CMetricsMetric lib}

def call (self : ObjId) (m : MetricMethod) (w : World lib E) : World lib E :=
  stateOf ((Counter.send self m).run w)

def Later : MetricMethod → Prop
  | .init | .create _ => False
  | _ => True

def Refused (self : ObjId) (m : MetricMethod) (w : World lib E) : Prop :=
  (∃ e w', (Counter.send self m).run w = .error e w') ∨
    ∃ w', (Counter.send self m).run w = .ok .false w'

/-- The call asks for an update that makes a stored value smaller. -/
def WouldLower (self : ObjId) (c : lib.Metric) (m : MetricMethod) (w : World lib E) : Prop :=
  ∃ s u, ∃ L : List CStr, w.heap self = .metric .counter s ∧
    Metric.plan .counter s m = .ok (.update u L.length L) ∧
    u.target .exact (lib.stored c L w.mem) < lib.stored c L w.mem

def Same (c : lib.Metric) (w w' : World lib E) : Prop :=
  w'.heap = w.heap ∧ ∀ L, lib.stored c L w'.mem = lib.stored c L w.mem

/-- No stored value goes down in the call, one that would lower a value is refused, and a refused call
changes nothing. -/
structure GoesUp (id : ObjId) (c : lib.Metric) (m : MetricMethod) (w : World lib E) : Prop where
  up : ∀ L, ¬ lib.stored c L (call id m w).mem < lib.stored c L w.mem
  lower : WouldLower id c m w → Refused id m w
  refused : Refused id m w → Same c w (call id m w)

/-- `add` of a negative number to a finite one, which the library accepts. -/
def NegativeAdd (self : ObjId) (c : lib.Metric) (m : MetricMethod) (w : World lib E) : Prop :=
  ∃ s v, ∃ L : List CStr, w.heap self = .metric .counter s ∧
    Metric.plan .counter s m = .ok (.update (.counterAdd v) L.length L) ∧
    (v < 0 ∧ (lib.stored c L w.mem).isFinite = true) ∧
    (lib.cmtUpdate (.counterAdd v) s.metric (lib.cflTimeNow w.mem) L.length L w.mem).1 = 0

/-! ### One call -/

theorem Same.refl (c : lib.Metric) (w : World lib E) : Same c w w := ⟨rfl, fun _ => rfl⟩

theorem Same.not_lt (h : Same c w w') (L : List CStr) : ¬ lib.stored c L w'.mem < lib.stored c L w.mem := by
  rw [h.2 L]
  exact Double.lt_irrefl _

theorem same_exported (hlib : lib.Counts) (e : SdsEncoder) (inst : Option lib.Ctx) :
    Same c w (w.exported e inst) := by
  unfold World.exported
  cases h : (lib.cmtEncode e inst w.mem).1 with
  | none =>
    simp only [h]
    exact ⟨rfl, fun L => hlib.encode ..⟩
  | some x =>
    simp only [h]
    exact ⟨rfl, fun L => (hlib.encodeDestroy ..).trans (hlib.encode ..)⟩

theorem same_exportMsgpack (hlib : lib.Counts) (inst : Option lib.Ctx) :
    Same c w (stateOf ((exportMsgpack inst : M lib E Value).run w)) := by
  rw [run_exportMsgpack]
  exact ⟨rfl, fun L => hlib.encodeMsgpack ..⟩

theorem run_send (hself : w.heap self = .metric .counter s) {r : Request}
    (hp : Metric.plan .counter s m = .ok r) :
    (Counter.send self m).run w = (Metric.perform .counter s self r : M lib E Value).run w :=
  Metric.run_send_ok hself hp

theorem same_call (hlib : lib.Counts) (hself : w.heap self = .metric .counter s) (hm : Later m)
    (hno : ∀ u n L, Metric.plan .counter s m ≠ .ok (.update u n L)) : Same c w (call self m w) := by
  unfold call
  cases hp : Metric.plan .counter s m with
  | error e =>
    have hrun : (Counter.send self m).run w = .error e w := Metric.run_send_error hself hp
    rw [hrun]
    exact .refl c w
  | ok r =>
    rw [run_send hself hp]
    cases Metric.plan_cases hp with
    | init => exact hm.elim
    | create => exact hm.elim
    | update m u v L => exact absurd hp (hno u L.length L)
    | getVal => exact .refl c w
    | addLabel => exact ⟨rfl, fun L => hlib.labelAdd ..⟩
    | toPrometheus =>
      show Same c w (stateOf ((exportSds .prometheus s.inst : M lib E Value).run w))
      rw [stateOf_exportSds]
      exact same_exported hlib .prometheus s.inst
    | toInflux =>
      show Same c w (stateOf ((exportSds .influx s.inst : M lib E Value).run w))
      rw [stateOf_exportSds]
      exact same_exported hlib .influx s.inst
    | toMsgpack => exact same_exportMsgpack hlib s.inst
    | toText =>
      show Same c w (stateOf ((exportText s.inst : M lib E Value).run w))
      rw [stateOf_exportText]
      exact same_exported hlib .text s.inst

theorem goesUp_of_no_update (hlib : lib.Counts) (hself : w.heap self = .metric .counter s) (hm : Later m)
    (hno : ∀ u n L, Metric.plan .counter s m ≠ .ok (.update u n L)) :
    GoesUp self c m w ↔ ¬ NegativeAdd self c m w := by
  have hsame : Same c w (call self m w) := same_call hlib hself hm hno
  refine iff_of_true ⟨hsame.not_lt, ?_, fun _ => hsame⟩ ?_
  · rintro ⟨s', u, L, hs', hp, -⟩
    obtain rfl := metric_inj hself hs'
    exact absurd hp (hno u L.length L)
  · rintro ⟨s', v, L, hs', hp, -⟩
    obtain rfl := metric_inj hself hs'
    exact absurd hp (hno (.counterAdd v) L.length L)

section
variable {u : Update} {L : List CStr}

theorem update_inj {u' : Update} {L' : List CStr}
    (h : (Except.ok (.update u L.length L) : Except Exit Request) = .ok (.update u' L'.length L')) :
    u = u' ∧ L = L' := by
  injection h with h
  injection h with hu _ hL
  exact ⟨hu, hL⟩

theorem negativeAdd_iff (hself : w.heap self = .metric .counter s)
    (hp : Metric.plan .counter s m = .ok (.update u L.length L)) :
    NegativeAdd self c m w ↔
      (∃ v, u = .counterAdd v ∧ v < 0 ∧ (lib.stored c L w.mem).isFinite = true) ∧
      (lib.cmtUpdate u s.metric (lib.cflTimeNow w.mem) L.length L w.mem).1 = 0 := by
  constructor
  · rintro ⟨s', v, L', hs', hp', hv, hret⟩
    obtain rfl := metric_inj hself hs'
    obtain ⟨rfl, rfl⟩ := update_inj (hp.symm.trans hp')
    exact ⟨⟨v, rfl, hv⟩, hret⟩
  · rintro ⟨⟨v, rfl, hv⟩, hret⟩
    exact ⟨s, v, L, hself, hp, hv, hret⟩

theorem goesUp_refused (hlib : lib.Counts) (hself : w.heap self = .metric .counter s)
    (hc : s.metric = some c) (hp : Metric.plan .counter s m = .ok (.update u L.length L))
    (hk : u.kind = .counter)
    (hret : (lib.cmtUpdate u (some c) (lib.cflTimeNow w.mem) L.length L w.mem).1 ≠ 0) :
    GoesUp self c m w := by
  have hrun := run_send hself hp
  rw [Metric.run_perform_update, hc] at hrun
  have hsame : Same c w (call self m w) := by
    unfold call
    rw [hrun]
    exact ⟨rfl, hlib.fails hk hret⟩
  have hrefused : Refused self m w := by
    simp only [Metric.retBool_of_ne hret] at hrun
    exact .inr ⟨_, hrun⟩
  exact ⟨hsame.not_lt, fun _ => hrefused, fun _ => hsame⟩

theorem goesUp_accepted (hlib : lib.Counts) (hself : w.heap self = .metric .counter s)
    (hc : s.metric = some c) (hp : Metric.plan .counter s m = .ok (.update u L.length L))
    (hk : u.kind = .counter)
    (hret : (lib.cmtUpdate u (some c) (lib.cflTimeNow w.mem) L.length L w.mem).1 = 0) :
    GoesUp self c m w ↔ ¬ u.target .exact (lib.stored c L w.mem) < lib.stored c L w.mem := by
  obtain ⟨hL, hothers⟩ := hlib.stores hk hret
  have hrun := run_send hself hp
  rw [Metric.run_perform_update, hc] at hrun
  have hmem : (call self m w).mem =
      (lib.cmtUpdate u (some c) (lib.cflTimeNow w.mem) L.length L w.mem).2 := by
    unfold call
    rw [hrun]
    rfl
  constructor
  · intro h
    have hup := h.up L
    rwa [hmem, hL] at hup
  · intro hnot
    refine ⟨fun L' => ?_, ?_, ?_⟩
    · rw [hmem]
      by_cases hne : L = L'
      · subst hne
        rwa [hL]
      · rw [hothers L' hne]
        exact Double.lt_irrefl _
    · rintro ⟨s', u', L', hs', hp', hlt⟩
      obtain rfl := metric_inj hself hs'
      obtain ⟨rfl, rfl⟩ := update_inj (hp.symm.trans hp')
      exact absurd hlt hnot
    · rintro (⟨e, w', h⟩ | ⟨w', h⟩)
      · rw [hrun] at h
        cases h
      · simp only [hrun, Metric.retBool_of_eq hret] at h
        cases h

theorem goesUp_update (hlib : lib.Counts) (hself : w.heap self = .metric .counter s)
    (hc : s.metric = some c) (hp : Metric.plan .counter s m = .ok (.update u L.length L))
    (hk : u.kind = .counter) : GoesUp self c m w ↔ ¬ NegativeAdd self c m w := by
  rw [negativeAdd_iff hself hp, hc]
  by_cases hret : (lib.cmtUpdate u (some c) (lib.cflTimeNow w.mem) L.length L w.mem).1 = 0
  · rw [goesUp_accepted hlib hself hc hp hk hret, and_iff_left hret]
    cases u with
    | counterInc => exact iff_of_true (Double.not_add_one_lt _) nofun
    | counterAdd v =>
      refine not_congr (Double.add_lt_self_iff.trans ⟨fun h => ⟨v, rfl, h⟩, ?_⟩)
      rintro ⟨v', hv', h⟩
      obtain rfl := Update.counterAdd.inj hv'
      exact h
    | counterSet v => exact iff_of_true (fun hlt => hlib.refuses hlt hret) nofun
    | _ => cases hk
  · exact iff_of_true (goesUp_refused hlib hself hc hp hk hret) fun h => hret h.2

end

theorem goesUp_iff (hlib : lib.Counts) (hself : w.heap self = .metric .counter s)
    (hc : s.metric = some c) (hm : Later m) : GoesUp self c m w ↔ ¬ NegativeAdd self c m w := by
  by_cases hno : ∀ u n L, Metric.plan .counter s m ≠ .ok (.update u n L)
  · exact goesUp_of_no_update hlib hself hm hno
  · simp only [not_forall, not_not] at hno
    obtain ⟨u, n, L, hp⟩ := hno
    cases Metric.plan_cases hp with
    | update m u v L _ hk => exact goesUp_update hlib hself hc hp hk

theorem heap_call (hself : w.heap self = .metric .counter s) (hm : Later m) :
    (call self m w).heap self = .metric .counter s := by
  rcases Metric.send_does hself m with ⟨e, -, hr⟩ | ⟨r, calls, s', hp, hasks, hdoes⟩
  · have hr : (Counter.send self m).run w = .error e w := hr
    unfold call
    rwa [hr]
  · have hheap : (call self m w).heap self = .metric .counter s' := hdoes.heap_self
    rw [hheap]
    cases hasks with
    | init => cases Metric.plan_cases hp; exact hm.elim
    | create => cases Metric.plan_cases hp; exact hm.elim
    | _ => rfl

/-! ### Whole runs -/

/-- No value of a counter goes down along a run exactly when no negative number is added to a finite one
along it. -/
theorem along_goesUp_iff (hlib : lib.Counts) (hself : w.heap self = .metric .counter s)
    (hc : s.metric = some c) {ms : List MetricMethod} (hms : ∀ m ∈ ms, Later m) :
    Machine.Along (call self) (GoesUp self c) ms w ↔
      Machine.Along (call self) (fun m w => ¬ NegativeAdd self c m w) ms w :=
  Machine.along_iff_along (I := fun w => w.heap self = .metric .counter s) hself
    (fun m hm _ hw => goesUp_iff hlib hw hc (hms m hm)) fun m hm _ hw _ => heap_call hw (hms m hm)

end Counter

/-! ### The reference library -/

namespace Reference

variable {x : Bytes} {c : Handle} {u : Update} {ts : Nat} {L : List CStr} {mem : Mem}

def stored (c : Handle) (L : List CStr) (mem : Mem) : Double :=
  ((getMap mem .counter c).bind fun map => sample map L).getD 0

theorem stored_reference : (reference x).stored c L mem = stored c L mem := by
  show (if (getVal .counter (some c) L mem).1 = 0 then (getVal .counter (some c) L mem).2 else 0) = _
  unfold getVal stored
  rw [Option.bind_some]
  cases (getMap mem .counter c).bind fun map => sample map L with
  | none => rfl
  | some v => rfl

theorem target_of_result {y v : Double} (h : result y u = some v) : v = u.target .exact y := by
  unfold result at h
  split at h
  · exact (Option.some.inj h).symm
  · cases h

theorem stored_update (hk : u.kind = .counter) (hret : (update u (some c) ts L mem).1 = 0) :
    stored c L (update u (some c) ts L mem).2 = u.target .exact (stored c L mem) ∧
      ∀ L', L ≠ L' → stored c L' (update u (some c) ts L mem).2 = stored c L' mem := by
  rcases update_cases u c ts L mem with ⟨map, v, hmap, hv, hu⟩ | hu
  · rw [hk] at hmap hu
    have hmap' := getMap_setMap hmap (put map L v ts)
    rw [hu]
    unfold stored
    refine ⟨?_, fun L' hne => ?_⟩
    · rw [hmap', hmap, Option.bind_some, Option.bind_some, sample_put_self]
      exact target_of_result hv
    · rw [hmap', hmap, Option.bind_some, Option.bind_some, sample_put_of_ne hne]
  · rw [hu] at hret
    cases hret

theorem counterSet_below {v : Double} (h : v < stored c L mem) :
    (update (.counterSet v) (some c) ts L mem).1 ≠ 0 := by
  rcases update_cases (.counterSet v) c ts L mem with ⟨map, v', hmap, hv, -⟩ | hu
  · have hmap : getMap mem .counter c = some map := hmap
    unfold stored at h
    rw [hmap, Option.bind_some] at h
    have hfits : ¬ Update.fits ((sample map L).getD 0) (.counterSet v) = true := by
      rw [Update.fits, decide_eq_true h]
      exact Bool.false_ne_true
    rw [result, if_neg hfits] at hv
    cases hv
  · rw [hu]
    show (-1 : Int) ≠ 0
    decide

theorem counts (x : Bytes) : (reference x).Counts where
  stores hk hret := by
    obtain ⟨h, hothers⟩ := stored_update hk hret
    refine ⟨stored_reference.trans (h.trans ?_), fun L' hne => ?_⟩
    · exact congrArg (fun y => Update.target .exact y _) stored_reference.symm
    · exact stored_reference.trans ((hothers L' hne).trans stored_reference.symm)
  fails _ hret L' := congrArg ((reference x).stored _ L') (update_failed hret)
  refuses h := counterSet_below (stored_reference.symm.trans_gt h)
  labelAdd cmt key val mem c L := by
    have h := getMap_labelAdd cmt key val mem .counter c
    refine stored_reference.trans (.trans ?_ stored_reference.symm)
    unfold stored
    exact congrArg (fun o => (Option.bind o fun map => sample map L).getD 0) h
  encode _ _ _ _ _ := rfl
  encodeDestroy _ _ _ _ _ := rfl
  encodeMsgpack _ _ _ _ := rfl

end Reference

namespace Counter

open Reference (newMetric metric counts)

/-- Counting up, and then a `set` below what is stored. -/
theorem along_goesUp_set : Machine.Along (call 0) (GoesUp 0 metric)
    [.increment [], .set [.rational (1/2)]] (newMetric .counter [0x61]) := by
  have hlater : ∀ m ∈ [MetricMethod.increment [], .set [.rational (1/2)]], Later m := by
    simp [Later]
  have hself : (newMetric .counter [0x61]).heap 0 = .metric .counter ⟨some (Reference.ctx 0), some metric⟩ :=
    rfl
  refine (along_goesUp_iff (counts []) hself rfl hlater).2 ⟨?_, ?_, trivial⟩
  · rintro ⟨s, v, L, hs, hp, -⟩
    cases hs
    cases hp
  · rintro ⟨s, v, L, hs, hp, -⟩
    cases hs
    cases hp

/-- `inc` and then `add(-1)`. -/
theorem negativeAdd_lowers : ¬ Machine.Along (call 0) (GoesUp 0 metric)
    [.increment [], .add [.fixnum ⟨-1, by decide, by decide⟩]] (newMetric .counter [0x61]) := by
  rintro ⟨-, h, -⟩
  have hself : (call 0 (.increment []) (newMetric .counter [0x61])).heap 0 =
      .metric .counter ⟨some (Reference.ctx 0), some metric⟩ := rfl
  have hadd : Later (.add [.fixnum ⟨-1, by decide, by decide⟩]) := trivial
  exact (goesUp_iff (counts []) hself rfl hadd).1 h
    ⟨_, .finite (-1), [], hself, rfl, ⟨by decide, rfl⟩, rfl⟩

end Counter
end CmetricsRuby
