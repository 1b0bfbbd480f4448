import CmetricsRuby.Request
import CmetricsRuby.Reference

/-!
# Label tuples and series

The labels of a sample reach the library as C strings, and as many of them as fit an `int` count. Two
tuples that differ there address two series, and an update of one does not show in the other. What C does
not see, the bytes behind a NUL and the labels behind the count, does not keep two series apart.
-/

namespace CmetricsRuby

variable {lib : Library} {E : Type} {w : World lib E} {self : ObjId} {k : Kind}
  {s : CMetricsMetric lib}

/-- Distinct tuples of C strings address distinct series. -/
def Library.SeriesIndependent (lib : Library) : Prop :=
  ∀ (u : Update) (c : lib.Metric) (ts : Nat) (L L' : List CStr) (mem : lib.Mem), L ≠ L' →
    lib.cmtGetVal u.kind (some c) L'.length L' (lib.cmtUpdate u (some c) ts L.length L mem).2 =
      lib.cmtGetVal u.kind (some c) L'.length L' mem

/-! ### Tuples -/

def labelBytes : Value → Option Bytes
  | .string b => some b
  | .symbol b => some b
  | _ => none

inductive Stands : Value → List Bytes → Prop
  | nil : Stands .nil []
  | string (b : Bytes) : Stands (.string b) [b]
  | symbol (b : Bytes) : Stands (.symbol b) [b]
  | array {items : List Value} {t : List Bytes} : items.map labelBytes = t.map some →
      Stands (.array items) t

/-- How many labels of a tuple the library is given. -/
def labelsSeen (t : List Bytes) : Nat := (toCInt t.length).toNat

/-- The tuple as the library sees it. -/
def seen (t : List Bytes) : List CStr := (t.take (labelsSeen t)).map CStr.ofPtr

theorem labelItem_of_labelBytes {item : Value} {b : Bytes} (h : labelBytes item = some b) :
    labelItem item = .ok (CStr.ofPtr b) := by
  cases item with
  | string b' => cases h; rfl
  | symbol b' => cases h; rfl
  | _ => cases h

theorem fillLabels_of_labelBytes {items : List Value} {t : List Bytes}
    (h : items.map labelBytes = t.map some) : fillLabels items = .ok (t.map CStr.ofPtr) := by
  induction items generalizing t with
  | nil =>
    have ht : t = [] := by simpa using h.symm
    rw [ht]
    rfl
  | cons item items ih =>
    cases t with
    | nil => cases h
    | cons b t =>
      obtain ⟨hb, h⟩ := List.cons.inj h
      unfold fillLabels
      rw [labelItem_of_labelBytes hb, ok_bind, ih h]
      rfl

theorem length_seen (t : List Bytes) : (seen t).length = labelsSeen t := by
  have hle := toCInt_le t.length
  unfold seen labelsSeen
  rw [List.length_map, List.length_take]
  omega

theorem labelArgs_of_stands {v : Value} {t : List Bytes} (h : Stands v t) (hpos : 0 < labelsSeen t) :
    labelArgs v = .ok ((seen t).length, seen t) := by
  cases h with
  | nil => rfl
  | string b => rfl
  | symbol b => rfl
  | @array items t hitems =>
    have hlen : items.length = t.length := by simpa using congrArg List.length hitems
    have hcount : toCInt items.length = (labelsSeen t : Int) := by
      unfold labelsSeen at *
      rw [hlen]
      omega
    have hfill : fillLabels (items.take (labelsSeen t)) = .ok (seen t) := by
      refine fillLabels_of_labelBytes ?_
      rw [List.map_take, List.map_take, hitems]
    have halloc : allocvN (labelsSeen t) = .ok () := if_neg (by omega)
    simp only [labelArgs, hcount, halloc, ok_bind, Int.toNat_natCast, hfill, length_seen]
    rfl

theorem seen_ne {t t' : List Bytes} {i : Nat} (hlen : t.length = t'.length) (hi : i < labelsSeen t)
    (hne : (t.map CStr.ofPtr)[i]? ≠ (t'.map CStr.ofPtr)[i]?) : seen t ≠ seen t' := by
  intro heq
  have hsame : labelsSeen t = labelsSeen t' := congrArg (fun n => (toCInt n).toNat) hlen
  have h := congrArg (·[i]?) heq
  unfold seen at h
  simp only [List.map_take, List.getElem?_take_of_lt hi] at h
  rw [hsame] at hi
  rw [List.getElem?_take_of_lt hi] at h
  exact hne h

/-! ### Series -/

namespace Metric

theorem plan_getValue (hc : s.metric ≠ none) {v : Value} {L : List CStr}
    (hL : labelArgs v = .ok (L.length, L)) : plan k s (.getValue [v]) = .ok (.getVal L.length L) := by
  have hplan : planGetValue k s [v] = .ok (.getVal L.length L) := by
    unfold planGetValue
    rw [checkCreated_of_ne hc, ok_bind]
    show (labelArgs v >>= _) = _
    rw [hL, ok_bind]
    rfl
  cases k <;> exact hplan

theorem run_getValue (hself : w.heap self = .metric k s) (hc : s.metric ≠ none) {v : Value}
    {L : List CStr} (hL : labelArgs v = .ok (L.length, L)) :
    (send k self (.getValue [v])).run w =
      let r := lib.cmtGetVal k s.metric L.length L w.mem
      .ok (if r.1 = 0 then .float r.2 else .nil) (w.called (.getVal k s.metric L.length L r.1) w.mem) := by
  rw [run_send_ok hself (plan_getValue hc hL), run_perform_getVal]

theorem update_keeps (hlib : lib.SeriesIndependent) (hself : w.heap self = .metric k s) {m : MetricMethod}
    {v : Value} {L L' : List CStr} (hm : m.labelArg = some v) (hL : labelArgs v = .ok (L.length, L))
    (hne : L ≠ L') :
    let w' := stateOf ((send k self m).run w)
    w'.heap self = .metric k s ∧ lib.cmtGetVal k s.metric L'.length L' w'.mem =
      lib.cmtGetVal k s.metric L'.length L' w.mem := by
  intro w'
  cases hp : plan k s m with
  | error e =>
    have hw : w' = w := by
      show stateOf _ = w
      rw [run_send_error hself hp]
      rfl
    rw [hw]
    exact ⟨hself, rfl⟩
  | ok r =>
    have hrun := run_send_ok (E := E) hself hp
    cases plan_cases hp with
    | update m u v' L₁ hc hk hm' hL₁ =>
      rw [hm] at hm'
      cases hm'
      rw [hL] at hL₁
      obtain rfl : L = L₁ := by injection hL₁ with h; exact congrArg Prod.snd h
      obtain ⟨c, hc⟩ := Option.ne_none_iff_exists'.1 hc
      rw [run_perform_update] at hrun
      have hw : w' = w.called _ (lib.cmtUpdate u s.metric (lib.cflTimeNow w.mem) L.length L w.mem).2 :=
        congrArg stateOf hrun
      rw [hw]
      refine ⟨hself, ?_⟩
      rw [World.called_mem, hc, ← hk]
      exact hlib u c _ L L' w.mem hne
    | _ => cases hm

/-- An update of the tuple `t` does not show in a tuple `t'` that C tells apart from it. -/
theorem val_update (hlib : lib.SeriesIndependent) (hself : w.heap self = .metric k s)
    (hc : s.metric ≠ none) {m : MetricMethod} {v v' : Value} {t t' : List Bytes}
    (hm : m.labelArg = some v) (ht : Stands v t) (ht' : Stands v' t') (hlen : t.length = t'.length)
    {i : Nat} (hi : i < labelsSeen t) (hne : (t.map CStr.ofPtr)[i]? ≠ (t'.map CStr.ofPtr)[i]?) :
    ∃ x w₁ w₂, (send k self (.getValue [v'])).run w = .ok x w₁ ∧
      (send k self (.getValue [v'])).run (stateOf ((send k self m).run w)) = .ok x w₂ := by
  have hpos : 0 < labelsSeen t := by omega
  have hpos' : 0 < labelsSeen t' := by
    unfold labelsSeen at *
    rwa [← hlen]
  have hL' := labelArgs_of_stands ht' hpos'
  obtain ⟨hself', hval⟩ :=
    update_keeps hlib hself hm (labelArgs_of_stands ht hpos) (seen_ne hlen hi hne)
  have hbefore := run_getValue hself hc hL'
  have hafter := run_getValue hself' hc hL'
  rw [hval] at hafter
  exact ⟨_, _, _, hbefore, hafter⟩

end Metric

/-! ### The reference library -/

namespace Metric

open Reference (newMetric metric)

theorem seriesIndependent (x : Bytes) : (reference x).SeriesIndependent :=
  fun u c ts _ _ mem hne => Reference.getVal_update_of_ne u c ts mem hne

/-- `set` of the label `a` of a gauge, and `val` of the label `b`. -/
theorem val_update_gauge : ∃ x w₁ w₂,
    (send .gauge 0 (.getValue [.symbol [0x62]])).run (newMetric .gauge [0x61]) = .ok x w₁ ∧
    (send .gauge 0 (.getValue [.symbol [0x62]])).run (stateOf
      ((send .gauge 0 (.set [.float 2, .array [.string [0x61]]])).run (newMetric .gauge [0x61]))) =
        .ok x w₂ := by
  have hself : (newMetric .gauge [0x61]).heap 0 = .metric .gauge ⟨some (Reference.ctx 0), some metric⟩ :=
    rfl
  have hset : (MetricMethod.set [.float 2, .array [.string [0x61]]]).labelArg =
      some (.array [.string [0x61]]) := rfl
  have hstands : Stands (.array [.string [0x61]]) [[0x61]] := .array rfl
  exact val_update (seriesIndependent []) hself nofun hset hstands (.symbol [0x62]) rfl
    (show 0 < _ by decide) (by decide)

/-- The labels `"a\0x"` and `"a\0y"` are one series. -/
theorem nul_merges_series :
    let v : Value := .string [0x61, 0x00, 0x78]
    let v' : Value := .string [0x61, 0x00, 0x79]
    ¬ ∃ x w₁ w₂, (send .counter 0 (.getValue [v'])).run (newMetric .counter [0x61]) = .ok x w₁ ∧
      (send .counter 0 (.getValue [v'])).run (stateOf
        ((send .counter 0 (.increment [v])).run (newMetric .counter [0x61]))) = .ok x w₂ := by
  intro v v'
  rintro ⟨x, w₁, w₂, h₁, h₂⟩
  obtain ⟨w₃, hbefore⟩ : ∃ w, (send .counter 0 (.getValue [v'])).run (newMetric .counter [0x61]) =
      .ok .nil w := ⟨_, rfl⟩
  obtain ⟨y, w₄, hafter⟩ : ∃ y w, (send .counter 0 (.getValue [v'])).run (stateOf
      ((send .counter 0 (.increment [v])).run (newMetric .counter [0x61]))) = .ok (.float y) w :=
    ⟨_, _, rfl⟩
  cases hbefore.symm.trans h₁
  cases hafter.symm.trans h₂

end Metric
end CmetricsRuby
