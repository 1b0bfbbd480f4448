import CmetricsRuby.Effects
import CmetricsRuby.Base.Machine

/-!
# The system

A Ruby program as the extension sees it: it allocates objects, calls methods on them and changes the
rest of its own state. A call of `feed_each` is not one action but many, a turn of its loop each,
with the actions of its block between them (`feedEach_run`), so what holds in every state of every
run holds inside `feed_each` too.
-/

namespace CmetricsRuby

variable {lib : Library} {E : Type}

inductive Cls
  | metric (k : Kind)
  | serde

/-- The zero-filled struct of `allocate`, `dup` and `clone`. -/
def Cls.blank : Cls → Obj lib
  | .metric k => .metric k ⟨none, none⟩
  | .serde => .serde ⟨none, 0⟩

inductive Act (E : Type)
  | alloc (id : ObjId) (c : Cls)
  | metric (k : Kind) (id : ObjId) (m : MetricMethod)
  | serde (id : ObjId) (m : SerdeMethod)
  | feedTurn (id : ObjId) (c : Serde.DecodeCall)
  | ruby (env : E)

def feedTurn (self : ObjId) (c : Serde.DecodeCall) : M lib E (Option Nat) := do
  let _ ← serdeStruct self
  Serde.decodeInto self c

def step : Act E → World lib E → World lib E
  | .alloc id c, w =>
    match w.heap id with
    | .free => w.put id c.blank
    | _ => w
  | .metric k id m, w => stateOf ((Metric.send k id m).run w)
  | .serde id m, w => stateOf ((Serde.send id m).run w)
  | .feedTurn id c, w => stateOf ((feedTurn id c).run w)
  | .ruby env, w => { w with env := env }

variable {w : World lib E} {id self : ObjId}

theorem step_alloc (id : ObjId) (c : Cls) :
    (w.heap id = .free ∧ step (.alloc id c) w = w.put id c.blank) ∨ step (.alloc id c) w = w := by
  simp only [step]
  cases ho : w.heap id with
  | free => exact .inl ⟨rfl, rfl⟩
  | _ => exact .inr rfl

theorem step_feedTurn {s : CMetricsSerde lib} (hself : w.heap id = .serde s) (c : Serde.DecodeCall) :
    step (.feedTurn id c) w = stateOf ((Serde.decodeInto id c).run w) := by
  simp [step, feedTurn, run_serdeStruct hself]

theorem step_feedTurn_of_not (h : ∀ s, w.heap id ≠ .serde s) (c : Serde.DecodeCall) :
    step (.feedTurn id c) w = w := by
  simp [step, feedTurn, run_serdeStruct_of_not h]

theorem step_serde {s : CMetricsSerde lib} (hself : w.heap self = .serde s) (a : Act E) :
    ∃ s', (step a w).heap self = .serde s' := by
  -- an action on the object `id` that leaves it a Serde if it was one
  have keep : ∀ {id calls o w'}, w.Does id calls o w' → (id = self → ∃ s', o = .serde s') →
      ∃ s', w'.heap self = .serde s' := by
    intro id calls o w' hdoes ho
    by_cases hid : id = self
    · obtain ⟨s', rfl⟩ := ho hid
      exact ⟨s', hid ▸ hdoes.heap_self⟩
    · exact ⟨s, (hdoes.heap_of_ne (Ne.symm hid)).trans hself⟩
  cases a with
  | alloc id c =>
    rcases step_alloc (w := w) id c with ⟨ho, hstep⟩ | hstep
    · have hne : self ≠ id := by
        rintro rfl
        rw [hself] at ho; cases ho
      rw [hstep]
      exact ⟨s, (World.put_heap_of_ne w id _ hne).trans hself⟩
    · rw [hstep]
      exact ⟨s, hself⟩
  | metric k id m =>
    by_cases h : ∃ t, w.heap id = .metric k t
    · obtain ⟨t, ht⟩ := h
      rcases Metric.send_does ht m with ⟨e, -, hr⟩ | ⟨r, calls, t', -, -, hdoes⟩
      · exact ⟨s, by rw [step, hr, stateOf_error, hself]⟩
      · refine keep hdoes fun hid => ?_
        rw [hid, hself] at ht; cases ht
    · exact ⟨s, by rw [step, Metric.send_of_not (not_exists.1 h), hself]⟩
  | serde id m =>
    by_cases h : ∃ t, w.heap id = .serde t
    · obtain ⟨t, ht⟩ := h
      rcases Serde.send_does ht m with hr | ⟨calls, t', -, hdoes⟩
      · exact ⟨s, by rw [step, hr, hself]⟩
      · exact keep hdoes fun _ => ⟨t', rfl⟩
    · exact ⟨s, by rw [step, Serde.send_of_not (not_exists.1 h), hself]⟩
  | feedTurn id c =>
    by_cases h : ∃ t, w.heap id = .serde t
    · obtain ⟨t, ht⟩ := h
      rw [step_feedTurn ht]
      exact keep (Serde.decodeInto_does ht c) fun _ => ⟨_, rfl⟩
    · exact ⟨s, by rw [step_feedTurn_of_not (not_exists.1 h), hself]⟩
  | ruby env => exact ⟨s, hself⟩

/-- What an action can do to an object: the calls it makes for it and what it makes of it. A turn of
`feed_each` does what `from_msgpack` does. -/
inductive ObjectStep (w : World lib E) : Act E → ObjId → List (LibCall lib) → Obj lib → Prop
  | alloc (id c) : w.heap id = .free → ObjectStep w (.alloc id c) id [] c.blank
  | metric {k id s m r calls s'} : w.heap id = .metric k s → Metric.plan k s m = .ok r →
      Metric.Asks k s r calls s' → ObjectStep w (.metric k id m) id calls (.metric k s')
  | serde {id s m calls s'} : w.heap id = .serde s → Serde.Asks w s m calls s' →
      ObjectStep w (.serde id m) id calls (.serde s')
  | feedTurn {id s c argv calls s'} : w.heap id = .serde s → Serde.Asks w s (.fromMsgpack argv) calls s' →
      ObjectStep w (.feedTurn id c) id calls (.serde s')

/-- Every action leaves objects and log alone, or is a step of one object. -/
theorem step_cases (a : Act E) (w : World lib E) :
    ((step a w).heap = w.heap ∧ (step a w).log = w.log) ∨
    ∃ id calls o, ObjectStep w a id calls o ∧ w.Does id calls o (step a w) := by
  cases a with
  | alloc id c =>
    rcases step_alloc (w := w) id c with ⟨ho, hstep⟩ | hstep
    · rw [hstep]
      exact .inr ⟨id, [], c.blank, .alloc id c ho, rfl, (List.append_nil _).symm, rfl⟩
    · rw [hstep]
      exact .inl ⟨rfl, rfl⟩
  | metric k id m =>
    by_cases h : ∃ s, w.heap id = .metric k s
    · obtain ⟨s, hs⟩ := h
      rcases Metric.send_does hs m with ⟨e, -, hr⟩ | ⟨r, calls, s', hp, hasks, hdoes⟩
      · rw [step, hr]
        exact .inl ⟨rfl, rfl⟩
      · exact .inr ⟨id, calls, _, .metric hs hp hasks, hdoes⟩
    · rw [step, Metric.send_of_not (not_exists.1 h)]
      exact .inl ⟨rfl, rfl⟩
  | serde id m =>
    by_cases h : ∃ s, w.heap id = .serde s
    · obtain ⟨s, hs⟩ := h
      rcases Serde.send_does hs m with hr | ⟨calls, s', hasks, hdoes⟩
      · rw [step, hr]
        exact .inl ⟨rfl, rfl⟩
      · exact .inr ⟨id, calls, _, .serde hs hasks, hdoes⟩
    · rw [step, Serde.send_of_not (not_exists.1 h)]
      exact .inl ⟨rfl, rfl⟩
  | feedTurn id c =>
    by_cases h : ∃ s, w.heap id = .serde s
    · obtain ⟨s, hs⟩ := h
      have hdoes := Serde.decodeInto_does hs c
      rw [step_feedTurn hs]
      by_cases hret : (lib.cmtDecodeMsgpackCreate c.buf c.length c.offset w.mem).1.ret = 0
      · simp only [hret, if_true] at hdoes
        exact .inr ⟨id, _, _, .feedTurn hs (.decoded [] c _ _), hdoes⟩
      · simp only [hret, if_false] at hdoes
        exact .inr ⟨id, _, _, .feedTurn hs (.undecoded [] c _ _ hret), hdoes⟩
    · rw [step_feedTurn_of_not (not_exists.1 h)]
      exact .inl ⟨rfl, rfl⟩
  | ruby env => exact .inl ⟨rfl, rfl⟩

theorem run_serde (hself : ∃ s, w.heap self = .serde s) (as : List (Act E)) :
    ∃ s, (Machine.run step as w).heap self = .serde s := by
  refine Machine.run_keeps (I := fun w : World lib E => ∃ s, w.heap self = .serde s) hself ?_
  rintro a w ⟨s, hs⟩
  exact step_serde hs a

/-! ### `feed_each` is a run -/

/-- A block that does what some actions from `P` do, however it ends. -/
def ActsIn (P : Act E → Prop) (block : Block lib E) : Prop :=
  ∀ w, ∃ as, (∀ a ∈ as, P a) ∧ stateOf (block.run w) = Machine.run step as w

variable {P : Act E → Prop} {block : Block lib E}

theorem feedLoop_run (hP : ∀ c, P (.feedTurn self c)) (hblock : ActsIn P block) (bytes : E → Bytes)
    (length fuel offset : Nat) (hself : ∃ s, w.heap self = .serde s) :
    ∃ as, (∀ a ∈ as, P a) ∧
      stateOf (Serde.feedLoop self bytes length block fuel offset w).result = Machine.run step as w := by
  induction fuel generalizing offset w with
  | zero => exact ⟨[], by simp, rfl⟩
  | succ fuel ih =>
    obtain ⟨s, hs⟩ := hself
    by_cases hle : offset ≤ length
    · obtain ⟨c, hc⟩ : ∃ c : Serde.DecodeCall, ⟨bytes w.env, length, offset⟩ = c := ⟨_, rfl⟩
      have hturn := step_feedTurn hs c
      have hserde := step_serde hs (.feedTurn self c)
      simp only [Serde.feedLoop, if_pos hle, hc]
      rw [hturn] at hserde
      cases hd : (Serde.decodeInto self c).run w with
      | error e w₁ => exact ⟨[.feedTurn self c], by simp [hP], by simp [Machine.run, hturn, hd]⟩
      | ok o w₁ =>
        rw [hd] at hturn hserde
        cases o with
        | none => exact ⟨[.feedTurn self c], by simp [hP], by simp [Machine.run, hturn]⟩
        | some offset' =>
          obtain ⟨as, has, hrun⟩ := hblock w₁
          cases hb : block.run w₁ with
          | error e w₂ =>
            rw [hb] at hrun
            refine ⟨.feedTurn self c :: as, ?_, ?_⟩
            · simpa [hP] using has
            · simpa [Machine.run, hturn, hb] using hrun
          | ok u w₂ =>
            rw [hb, stateOf_ok] at hrun
            have hserde₂ := run_serde hserde as
            rw [stateOf_ok, ← hrun] at hserde₂
            obtain ⟨bs, hbs, hrest⟩ := ih offset' hserde₂
            refine ⟨.feedTurn self c :: (as ++ bs), ?_, ?_⟩
            · simp only [List.forall_mem_cons, List.forall_mem_append]
              exact ⟨hP c, has, hbs⟩
            · simp only [Machine.run, hturn, stateOf_ok, Machine.run_append, ← hrun, hb]
              exact hrest
    · simp only [Serde.feedLoop, if_neg hle]
      exact ⟨[], by simp, rfl⟩

/-- A call of `feed_each` is a run of turns of its loop and of actions of its block. -/
theorem feedEach_run (hP : ∀ c, P (.feedTurn self c)) (hblock : ActsIn P block) (fuel : Nat)
    (rbData : Serde.FeedData E) (w : World lib E) :
    ∃ as, (∀ a ∈ as, P a) ∧
      stateOf (Serde.feedEach fuel self rbData (some block) w).result = Machine.run step as w := by
  cases rbData with
  | nil => exact ⟨[], by simp, rfl⟩
  | other => exact ⟨[], by simp, rfl⟩
  | string bytes =>
    by_cases h : ∃ s, w.heap self = .serde s
    · simp only [Serde.feedEach, Serde.fromMsgpackFeedEachImpl, run_serdeStruct h.choose_spec]
      exact feedLoop_run hP hblock bytes _ fuel 0 h
    · simp only [Serde.feedEach, Serde.fromMsgpackFeedEachImpl, run_serdeStruct_of_not (not_exists.1 h)]
      exact ⟨[], by simp, rfl⟩

end CmetricsRuby
