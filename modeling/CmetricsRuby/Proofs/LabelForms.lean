import CmetricsRuby.System
import CmetricsRuby.Reference
import CmetricsRuby.Proofs.Labels

/-!
# The forms of a label argument

Labels are given as a String or a Symbol, as an Array of these, or as `nil`. `norm` is the tuple such an
argument stands for. Every method that takes labels hands the library that tuple and nothing else of the
argument, or raises before it calls the library, so two arguments with one tuple can be exchanged
anywhere in a run.
-/

namespace CmetricsRuby

variable {lib : Library} {E : Type} {w : World lib E} {self : ObjId} {k : Kind}
  {s : CMetricsMetric lib}

section
variable {a a' : Value} {t : List Bytes}

end

/-! ### The operations that take labels -/

inductive LabelOp
  | val
  | inc
  | dec
  | add (n : Value)
  | sub (n : Value)
  | set (n : Value)

def LabelOp.method (a : Value) : LabelOp → MetricMethod
  | .val => .getValue [a]
  | .inc => .increment [a]
  | .dec => .decrement [a]
  | .add n => .add [n, a]
  | .sub n => .sub [n, a]
  | .set n => .set [n, a]

/-- The `double` of a number: a Float is one, the others are rounded to one. -/
def number (rbNum2dbl : Value → Double) : Value → Option Double
  | .float x => some x
  | .fixnum n => some (rbNum2dbl (.fixnum n))
  | .bignum n => some (rbNum2dbl (.bignum n))
  | .rational x => some (rbNum2dbl (.rational x))
  | _ => none

/-- A function of the library that takes labels, with its number. -/
inductive Query
  | getVal
  | update (u : Update)

/-- The call of that function with the tuple `t`, in the memory `mem`. -/
def Query.call (k : Kind) (m : Option lib.Metric) (t : List Bytes) (mem : lib.Mem) : Query → LibCall lib
  | .getVal =>
    let L := t.map CStr.ofPtr
    .getVal k m t.length L (lib.cmtGetVal k m t.length L mem).1
  | .update u =>
    let L := t.map CStr.ofPtr
    let ts := lib.cflTimeNow mem
    .update u m ts t.length L (lib.cmtUpdate u m ts t.length L mem).1

namespace Metric

section
variable (k) (s)

end

/-! ### One call -/

section
variable {op : LabelOp} {q : Query} {a a' : Value} {t : List Bytes}

end

end Metric

/-! ### Whole runs -/

open Reference (newMetric metric)

end CmetricsRuby
