import CmetricsRuby.System

/-!
# The log tells what became of the memory

The methods change the memory of the libraries through library calls only, and every call is logged with
its result. So the memory after a step is what the calls it has logged make, one after the other, of the
memory before it (`step_traced`). `World.Does` has the calls and `Trace` what they do.
-/

namespace CmetricsRuby

variable {lib : Library} {E α β : Type}

/-- The call makes `mem'` of `mem`, and its result is the one it has. -/
def LibCall.Moves : LibCall lib → (mem mem' : lib.Mem) → Prop
  | .init, mem, mem' => mem' = lib.cmtInitialize mem
  | .create ret, mem, mem' => lib.cmtCreate mem = (ret, mem')
  | .destroy cmt, mem, mem' => mem' = lib.cmtDestroy cmt mem
  | .metricCreate k cmt d ret, mem, mem' => lib.cmtMetricCreate k cmt d mem = (ret, mem')
  | .metricDestroy k m, mem, mem' => mem' = lib.cmtMetricDestroy k m mem
  | .update u m ts n L ret, mem, mem' => lib.cmtUpdate u m ts n L mem = (ret, mem')
  | .getVal k m n L ret, mem, mem' => (lib.cmtGetVal k m n L mem).1 = ret ∧ mem' = mem
  | .labelAdd cmt key val ret, mem, mem' => lib.cmtLabelAdd cmt key val mem = (ret, mem')
  | .encode e cmt ret, mem, mem' =>
    (lib.cmtEncode e cmt mem).1.map Sds.ptr = ret ∧ mem' = (lib.cmtEncode e cmt mem).2
  | .encodeDestroy e buf, mem, mem' => mem' = lib.cmtEncodeDestroy e buf mem
  | .encodeMsgpack cmt ret _, mem, mem' =>
    (lib.cmtEncodeMsgpackCreate cmt mem).1.1 = ret ∧ mem' = (lib.cmtEncodeMsgpackCreate cmt mem).2
  | .decode buf length offset ret cmt, mem, mem' =>
    ∃ d, lib.cmtDecodeMsgpackCreate buf length offset mem = (d, mem') ∧ d.ret = ret ∧ d.cmt = cmt
  | .cat dst src ret, mem, mem' => lib.cmtCat dst src mem = (ret, mem')

def Trace : List (LibCall lib) → (mem mem' : lib.Mem) → Prop
  | [], mem, mem' => mem' = mem
  | c :: cs, mem, mem' => ∃ mem₁, c.Moves mem mem₁ ∧ Trace cs mem₁ mem'

theorem Trace.append {cs cs' : List (LibCall lib)} {mem mem₁ mem' : lib.Mem} (h : Trace cs mem mem₁)
    (h' : Trace cs' mem₁ mem') : Trace (cs ++ cs') mem mem' := by
  induction cs generalizing mem with
  | nil =>
    obtain rfl : mem₁ = mem := h
    exact h'
  | cons c cs ih =>
    obtain ⟨mem₂, hc, hcs⟩ := h
    exact ⟨mem₂, hc, ih hcs⟩

theorem Trace.single {c : LibCall lib} {mem mem' : lib.Mem} (h : Trace [c] mem mem') :
    c.Moves mem mem' := by
  obtain ⟨mem₁, hc, rfl⟩ := h
  exact hc

/-- Some calls lead from `w` to `w'`, in the log and in the memory. -/
def World.Traced (w w' : World lib E) : Prop := ∃ calls, w'.log = w.log ++ calls ∧ Trace calls w.mem w'.mem

namespace World.Traced

variable {w w₁ w' : World lib E}

theorem of_eq (hlog : w'.log = w.log) (hmem : w'.mem = w.mem) : w.Traced w' :=
  ⟨[], by rw [hlog, List.append_nil], hmem⟩

theorem refl (w : World lib E) : w.Traced w := of_eq rfl rfl

theorem trans (h : w.Traced w₁) (h' : w₁.Traced w') : w.Traced w' := by
  obtain ⟨calls, hlog, hcalls⟩ := h
  obtain ⟨calls', hlog', hcalls'⟩ := h'
  exact ⟨calls ++ calls', by rw [hlog', hlog, List.append_assoc], hcalls.append hcalls'⟩

theorem called {c : LibCall lib} {mem : lib.Mem} (h : c.Moves w.mem mem) : w.Traced (w.called c mem) :=
  ⟨[c], rfl, mem, h, rfl⟩

/-- The calls a method is known to make are the ones its memory comes from. -/
theorem trace {id : ObjId} {calls : List (LibCall lib)} {o : Obj lib} (h : w.Traced w')
    (hdoes : w.Does id calls o w') : Trace calls w.mem w'.mem := by
  obtain ⟨calls', hlog, hcalls⟩ := h
  obtain rfl : calls = calls' := List.append_cancel_left (hdoes.log.symm.trans hlog)
  exact hcalls

end World.Traced

/-! ### Programs that trace -/

def Tracing (x : M lib E α) : Prop := ∀ w : World lib E, w.Traced (stateOf (x.run w))

namespace Tracing

variable {x : M lib E α} {f : α → M lib E β}

theorem pure (a : α) : Tracing (pure a : M lib E α) := fun w => .refl w

theorem bind (hx : Tracing x) (hf : ∀ a, Tracing (f a)) : Tracing (x >>= f) := by
  intro w
  rw [EStateM.run_bind]
  cases h : x.run w with
  | error e w₁ =>
    have hw := hx w
    rw [h] at hw
    exact hw
  | ok a w₁ =>
    have hw := hx w
    rw [h] at hw
    exact hw.trans (hf a w₁)

theorem check (x : Except Exit α) : Tracing (liftM x : M lib E α) := by
  cases x with
  | error e => exact fun w => .refl w
  | ok a => exact .pure a

theorem ite {c : Prop} [Decidable c] {y : M lib E α} (hx : Tracing x) (hy : Tracing y) :
    Tracing (if c then x else y) := by
  split
  · exact hx
  · exact hy

theorem call {g : lib.Mem → α × lib.Mem} {c : α → LibCall lib}
    (h : ∀ mem, (c (g mem).1).Moves mem (g mem).2) : Tracing (libCall g c : M lib E α) :=
  fun w => .called (h w.mem)

theorem putObj (self : ObjId) (o : Obj lib) : Tracing (putObj self o : M lib E Unit) :=
  fun _ => .of_eq rfl rfl

theorem metricStruct (k : Kind) (self : ObjId) : Tracing (metricStruct k self : M lib E _) := by
  intro w
  by_cases h : ∃ s, w.heap self = .metric k s
  · rw [run_metricStruct h.choose_spec]
    exact .refl w
  · rw [run_metricStruct_of_not (not_exists.1 h)]
    exact .refl w

theorem serdeStruct (self : ObjId) : Tracing (serdeStruct self : M lib E _) := by
  intro w
  by_cases h : ∃ s, w.heap self = .serde s
  · rw [run_serdeStruct h.choose_spec]
    exact .refl w
  · rw [run_serdeStruct_of_not (not_exists.1 h)]
    exact .refl w

theorem exportSds (e : SdsEncoder) (inst : Option lib.Ctx) :
    Tracing (exportSds e inst : M lib E Value) := by
  refine .bind (.call fun _ => ⟨rfl, rfl⟩) fun prom => ?_
  refine .bind (.check _) fun str => ?_
  exact .bind (.call fun _ => rfl) fun _ => .pure _

theorem exportText (inst : Option lib.Ctx) : Tracing (exportText inst : M lib E Value) := by
  refine .bind (.call fun _ => ⟨rfl, rfl⟩) fun buffer => .ite (.pure _) ?_
  refine .bind (.check _) fun text => ?_
  exact .bind (.call fun _ => rfl) fun _ => .pure _

theorem exportMsgpack (inst : Option lib.Ctx) : Tracing (exportMsgpack inst : M lib E Value) :=
  .bind (.call fun _ => ⟨rfl, rfl⟩) fun _ => .pure _

end Tracing

/-! ### The methods -/

theorem Metric.tracing_perform (k : Kind) (s : CMetricsMetric lib) (self : ObjId) (r : Request) :
    Tracing (perform k s self r : M lib E Value) := by
  cases r with
  | init =>
    refine .bind (.call fun _ => rfl) fun _ => .bind (.call fun _ => rfl) fun inst => ?_
    exact .bind (.putObj _ _) fun _ => .pure _
  | create d =>
    exact .bind (.call fun _ => rfl) fun metric => .bind (.putObj _ _) fun _ => .pure _
  | update u n L =>
    refine .bind (fun w => .refl w) fun ts => ?_
    exact .bind (.call fun _ => rfl) fun ret => .pure _
  | getVal n L => exact .bind (.call fun _ => ⟨rfl, rfl⟩) fun r => .pure _
  | addLabel key val => exact .bind (.call fun _ => rfl) fun ret => .pure _
  | encode e => exact .exportSds e s.inst
  | text => exact .exportText s.inst
  | msgpack => exact .exportMsgpack s.inst

theorem Metric.tracing_send (k : Kind) (self : ObjId) (m : MetricMethod) :
    Tracing (send k self m : M lib E Value) := by
  intro w
  by_cases h : ∃ s, w.heap self = .metric k s
  · obtain ⟨s, hs⟩ := h
    rw [run_send hs]
    exact (Tracing.check _).bind (tracing_perform k s self) w
  · rw [send_of_not (not_exists.1 h)]
    exact .refl w

namespace Serde

theorem tracing_decodeInto (self : ObjId) (c : DecodeCall) : Tracing (decodeInto self c : M lib E _) := by
  refine .bind (.call fun _ => ⟨_, rfl, rfl, rfl⟩) fun d => .ite ?_ (.pure _)
  exact .bind (.putObj _ _) fun _ => .pure _

theorem tracing_concatFrom (k : Kind) (inst : Option lib.Ctx) (v : Value) :
    Tracing (concatFrom k inst v : M lib E Unit) := by
  refine .bind ?_ fun s => .bind (.call fun _ => rfl) fun _ => .pure _
  cases v with
  | object id => exact .bind (.metricStruct k id) fun s => .bind (.check _) fun _ => .pure _
  | _ => exact .check _

theorem tracing_concatMetric (v : Value) (self : ObjId) : Tracing (concatMetric v self : M lib E Value) := by
  refine .bind (.serdeStruct self) fun s => .ite (.check _) (.bind ?_ fun inst => .bind ?_ fun _ => .pure _)
  · unfold ensureInst
    split
    · exact .pure _
    · exact .bind (.call fun _ => rfl) fun inst => .bind (.putObj _ _) fun _ => .pure _
  · have hkind : ∀ k, Tracing (rbObjIsKindOf v k : M lib E Bool) := fun k w => .refl w
    refine .bind (hkind .counter) fun _ => .ite (tracing_concatFrom .counter inst v) ?_
    refine .bind (hkind .gauge) fun _ => .ite (tracing_concatFrom .gauge inst v) ?_
    exact .bind (hkind .untyped) fun _ => .ite (tracing_concatFrom .untyped inst v) (.check _)

theorem tracing_checkContext (self : ObjId) : Tracing (checkContext self : M lib E _) :=
  .bind (.serdeStruct self) fun _ => .ite (.check _) (.pure _)

theorem tracing_send (self : ObjId) (m : SerdeMethod) : Tracing (send self m : M lib E Value) := by
  cases m with
  | init =>
    refine .bind (.serdeStruct self) fun _ => .bind (.call fun _ => rfl) fun _ => ?_
    exact .bind (.putObj _ _) fun _ => .pure _
  | concat v => exact tracing_concatMetric v self
  | fromMsgpack argv =>
    refine .bind (.serdeStruct self) fun s => .bind (.check _) fun arg => .bind (.check _) fun call => ?_
    exact .bind (tracing_decodeInto self call) fun _ => .pure _
  | exporter e =>
    cases e with
    | prometheusRemoteWrite => exact .bind (tracing_checkContext self) fun _ => .exportSds _ _
    | toPrometheus => exact .bind (tracing_checkContext self) fun _ => .exportSds _ _
    | toInflux => exact .bind (tracing_checkContext self) fun _ => .exportSds _ _
    | toText => exact .bind (tracing_checkContext self) fun _ => .exportText _
    | toMsgpack => exact .bind (tracing_checkContext self) fun _ => .exportMsgpack _
  | getMetrics =>
    refine .bind (tracing_checkContext self) fun inst => ?_
    cases inst with
    | none => exact .check _
    | some ctx => exact fun w => Tracing.check (formatContext lib.seconds (lib.cmt w.mem ctx)) w

end Serde

theorem step_traced (a : Act E) (w : World lib E) : w.Traced (step a w) := by
  cases a with
  | alloc id c =>
    rcases step_alloc (w := w) id c with ⟨-, hstep⟩ | hstep
    · rw [hstep]
      exact .of_eq rfl rfl
    · rw [hstep]
      exact .refl w
  | metric k id m => exact Metric.tracing_send k id m w
  | serde id m => exact Serde.tracing_send id m w
  | feedTurn id c =>
    exact Tracing.bind (.serdeStruct id) (fun _ => Serde.tracing_decodeInto id c) w
  | ruby env => exact .of_eq rfl rfl

end CmetricsRuby
