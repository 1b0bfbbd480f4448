import Mathlib.Data.List.Forall2
import Mathlib.Tactic.TypeStar

/-!
# Runs of a machine

A machine is a function `step` from an action and a state to the next state. `run` takes a list of
actions one after the other, `Along` says something of every action in the state it is taken in,
and `Always` says something of every state of the run, its first and its last included; `outputs` is
what the actions of a run answer. The rules turn a lemma about one step into a theorem about whole runs.
-/

namespace CmetricsRuby
namespace Machine

variable {α σ : Type*} (step : α → σ → σ)

def run : List α → σ → σ
  | [], s => s
  | a :: as, s => run as (step a s)

def Along (P : α → σ → Prop) : List α → σ → Prop
  | [], _ => True
  | a :: as, s => P a s ∧ Along P as (step a s)

def Always (I : σ → Prop) : List α → σ → Prop
  | [], s => I s
  | a :: as, s => I s ∧ Always I as (step a s)

variable {step} {P Q R : α → σ → Prop} {I : σ → Prop} {as bs : List α} {s : σ}

theorem run_append : run step (as ++ bs) s = run step bs (run step as s) := by
  induction as generalizing s with
  | nil => rfl
  | cons a as ih => exact ih

theorem along_append : Along step P (as ++ bs) s ↔ Along step P as s ∧ Along step P bs (run step as s) := by
  induction as generalizing s with
  | nil => exact (and_iff_right trivial).symm
  | cons a as ih => rw [List.cons_append, Along, Along, ih, run, and_assoc]

theorem Always.head (h : Always step I as s) : I s := by
  cases as with
  | nil => exact h
  | cons a as => exact h.1

theorem Always.last (h : Always step I as s) : I (run step as s) := by
  induction as generalizing s with
  | nil => exact h
  | cons a as ih => exact ih h.2

theorem run_keeps (hs : I s) (hstep : ∀ a s, I s → I (step a s)) : I (run step as s) := by
  induction as generalizing s with
  | nil => exact hs
  | cons a as ih => exact ih (hstep a s hs)

theorem run_keeps_along (hR : Along step R as s) (hs : I s) (hstep : ∀ a s, R a s → I s → I (step a s)) :
    I (run step as s) := by
  induction as generalizing s with
  | nil => exact hs
  | cons a as ih => exact ih hR.2 (hstep a s hR.1 hs)

/-- What holds at the end of a run, and before an action whenever it holds behind it, holds all along. -/
theorem along_of_run (hback : ∀ a s, I (step a s) → I s) (h : I (run step as s)) :
    I s ∧ Along step (fun a s => I (step a s)) as s := by
  induction as generalizing s with
  | nil => exact ⟨h, trivial⟩
  | cons a as ih =>
    obtain ⟨ha, has⟩ := ih h
    exact ⟨hback a s ha, ha, has⟩

/-- Where `P` is exactly what keeps the invariant `I`, as far as a second invariant `J` holds, which
actions that satisfy `P` keep, `I` holds throughout a run if and only if every action satisfies `P`. -/
theorem always_iff_along {J : σ → Prop} (hI : I s) (hJ : J s)
    (hstep : ∀ a ∈ as, ∀ s, I s → J s → (I (step a s) ↔ P a s))
    (hkeep : ∀ a ∈ as, ∀ s, I s → J s → P a s → J (step a s)) :
    Always step I as s ↔ Along step P as s := by
  induction as generalizing s with
  | nil => exact iff_of_true hI trivial
  | cons a as ih =>
    obtain ⟨ha, has⟩ := List.forall_mem_cons.1 hstep
    obtain ⟨hka, hkas⟩ := List.forall_mem_cons.1 hkeep
    constructor
    · intro h
      have hI' := h.2.head
      have hP := (ha s hI hJ).1 hI'
      exact ⟨hP, (ih hI' (hka s hI hJ hP) has hkas).1 h.2⟩
    · intro h
      have hI' := (ha s hI hJ).2 h.1
      exact ⟨hI, (ih hI' (hka s hI hJ h.1) has hkas).2 h.2⟩

/-- The same, of a run whose actions satisfy `R`. -/
theorem always_iff_along_of {J : σ → Prop} (hR : Along step R as s) (hI : I s) (hJ : J s)
    (hstep : ∀ a s, R a s → I s → J s → (I (step a s) ↔ P a s))
    (hkeep : ∀ a s, R a s → J s → J (step a s)) : Always step I as s ↔ Along step P as s := by
  induction as generalizing s with
  | nil => exact iff_of_true hI trivial
  | cons a as ih =>
    have hJ' := hkeep a s hR.1 hJ
    constructor
    · intro h
      have hI' := h.2.head
      exact ⟨(hstep a s hR.1 hI hJ).1 hI', (ih hR.2 hI' hJ').1 h.2⟩
    · intro h
      have hI' := (hstep a s hR.1 hI hJ).2 h.1
      exact ⟨hI, (ih hR.2 hI' hJ').2 h.2⟩

/-- Two properties of actions that agree wherever the invariant `I` holds, `I` being kept by the
actions that satisfy the second. -/
theorem along_iff_along (hs : I s) (hPQ : ∀ a ∈ as, ∀ s, I s → (P a s ↔ Q a s))
    (hstep : ∀ a ∈ as, ∀ s, I s → Q a s → I (step a s)) : Along step P as s ↔ Along step Q as s := by
  induction as generalizing s with
  | nil => exact Iff.rfl
  | cons a as ih =>
    obtain ⟨ha, has⟩ := List.forall_mem_cons.1 hPQ
    obtain ⟨hka, hkas⟩ := List.forall_mem_cons.1 hstep
    constructor
    · intro h
      have hQ := (ha s hs).1 h.1
      exact ⟨hQ, (ih (hka s hs hQ) has hkas).1 h.2⟩
    · intro h
      exact ⟨(ha s hs).2 h.1, (ih (hka s hs h.1) has hkas).2 h.2⟩

end Machine
end CmetricsRuby
