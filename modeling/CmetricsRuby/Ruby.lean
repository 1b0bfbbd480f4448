import CmetricsRuby.Base.CStr
import CmetricsRuby.Base.Double
import Mathlib.Data.List.Forall2

/-!
# Ruby values and the part of Ruby's C API the extension uses

64-bit build: `VALUE`, `size_t` and `unsigned long` have 64 bits, `int` has 32. Strings, Symbols and
Arrays are taken by value, as they are read within one call; a Float is the `double` in it.
A call into the extension ends by returning, by raising, by a `break` out of a block, or in C
undefined behaviour (`undefined`), after which nothing is known.
-/

namespace CmetricsRuby

abbrev ObjId := Nat

/-- An Integer that fits a tagged `VALUE` word. -/
structure Fixnum where
  val : Int
  lo : -2 ^ 62 ≤ val
  hi : val < 2 ^ 62
deriving DecidableEq

inductive Value
  | nil
  | true
  | false
  | fixnum (n : Fixnum)
  | bignum (n : Int)
  | float (x : Double)
  | rational (x : Rat)
  | string (bytes : Bytes)
  | symbol (bytes : Bytes)
  | array (items : List Value)
  | hash (entries : List (Bytes × Value))
  | enumerator (recv : ObjId) (meth : String) (argv : List Value)
  | object (id : ObjId)
  /-- Any other object, with what its `to_str` gives when it has one. -/
  | other (toStr : Option Bytes)

inductive ExcClass
  | runtimeError
  | argError
  | typeError
  | rangeError
  | noMethodError
  | user (n : Nat)
deriving DecidableEq

inductive Exit
  | raised (cls : ExcClass) (msg : String)
  | brk
  | undefined
  /-- The fuel of a loop ran out. -/
  | diverged
deriving DecidableEq

/-- A check that raises does so before it changes anything. -/
instance exceptLift {ε σ : Type} : MonadLift (Except ε) (EStateM ε σ) where
  monadLift
    | .ok a => pure a
    | .error e => throw e

section
variable {ε σ α β : Type}

instance lawfulExceptLift : LawfulMonadLift (Except ε) (EStateM ε σ) where
  monadLift_pure _ := rfl
  monadLift_bind x _ := by cases x <;> rfl

@[simp] theorem liftM_ok (a : α) : (liftM (Except.ok a : Except ε α) : EStateM ε σ α) = pure a := rfl

@[simp] theorem liftM_error (e : ε) :
    (liftM (Except.error e : Except ε α) : EStateM ε σ α) = throw e := rfl

@[simp] theorem throw_bind (e : ε) (f : α → EStateM ε σ β) :
    ((throw e : EStateM ε σ α) >>= f) = throw e := rfl

@[simp] theorem run_raise (e : ε) (w : σ) : (throw e : EStateM ε σ α).run w = .error e w := rfl

@[simp] theorem run_map (f : α → β) (x : EStateM ε σ α) (w : σ) :
    (f <$> x).run w = match x.run w with
      | .ok a w => .ok (f a) w
      | .error e w => .error e w := rfl

@[simp] theorem ok_bind (a : α) (f : α → Except ε β) : (Except.ok a >>= f) = f a := rfl

@[simp] theorem error_bind (e : ε) (f : α → Except ε β) :
    ((Except.error e : Except ε α) >>= f) = .error e := rfl

theorem bind_eq_ok {x : Except ε α} {f : α → Except ε β} {b : β} :
    (x >>= f) = .ok b ↔ ∃ a, x = .ok a ∧ f a = .ok b := by
  cases x with
  | error e => simp
  | ok a => simp

theorem mapM_eq_ok {f : α → Except ε β} {xs : List α} {ys : List β} :
    xs.mapM f = .ok ys ↔ List.Forall₂ (fun x y => f x = .ok y) xs ys := by
  induction xs generalizing ys with
  | nil =>
    rw [List.mapM_nil, List.forall₂_nil_left_iff]
    exact ⟨fun h => (Except.ok.inj h).symm, fun h => congrArg Except.ok h.symm⟩
  | cons x xs ih =>
    rw [List.mapM_cons, List.forall₂_cons_left_iff]
    constructor
    · intro h
      obtain ⟨y, hy, h⟩ := bind_eq_ok.1 h
      obtain ⟨ys', hys', h⟩ := bind_eq_ok.1 h
      cases h
      exact ⟨y, ys', hy, ih.1 hys', rfl⟩
    · rintro ⟨y, ys', hy, hys', rfl⟩
      rw [hy, ok_bind, ih.2 hys']
      rfl

theorem isOk_mapM {f : α → Except ε β} {xs : List α} :
    (∃ ys, xs.mapM f = .ok ys) ↔ ∀ x ∈ xs, ∃ y, f x = .ok y := by
  induction xs with
  | nil => exact iff_of_true ⟨[], rfl⟩ nofun
  | cons x xs ih =>
    rw [List.forall_mem_cons, ← ih]
    constructor
    · rintro ⟨ys, h⟩
      obtain ⟨y, ys', hy, hys', -⟩ := List.forall₂_cons_left_iff.1 (mapM_eq_ok.1 h)
      exact ⟨⟨y, hy⟩, ys', mapM_eq_ok.2 hys'⟩
    · rintro ⟨⟨y, hy⟩, ys, hys⟩
      exact ⟨y :: ys, mapM_eq_ok.2 (.cons hy (mapM_eq_ok.1 hys))⟩

theorem map_mapM {γ : Type} {f : α → Except ε β} {φ : β → γ} (xs : List α) :
    (xs.mapM f).map (List.map φ) = xs.mapM fun x => (f x).map φ := by
  induction xs with
  | nil => rfl
  | cons x xs ih =>
    rw [List.mapM_cons, List.mapM_cons, ← ih]
    cases hx : f x with
    | error e => rfl
    | ok y => cases xs.mapM f <;> rfl

theorem mapM_eq_ok_map {f : α → Except ε β} {g : α → β} {xs : List α}
    (h : ∀ x ∈ xs, f x = .ok (g x)) : xs.mapM f = .ok (xs.map g) :=
  mapM_eq_ok.2 (List.forall₂_map_right_iff.2 (List.forall₂_same.2 h))

end

def stateOf {ε σ α : Type} : EStateM.Result ε σ α → σ
  | .ok _ s => s
  | .error _ s => s

section
variable {ε σ α : Type}

@[simp] theorem stateOf_ok (a : α) (s : σ) : stateOf (.ok a s : EStateM.Result ε σ α) = s := rfl

@[simp] theorem stateOf_error (e : ε) (s : σ) : stateOf (.error e s : EStateM.Result ε σ α) = s := rfl

end

def outcomeOf {ε σ α : Type} : EStateM.Result ε σ α → Except ε α
  | .ok a _ => .ok a
  | .error e _ => .error e

@[simp] theorem outcomeOf_ok {ε σ α : Type} (a : α) (s : σ) :
    outcomeOf (.ok a s : EStateM.Result ε σ α) = .ok a := rfl

@[simp] theorem outcomeOf_error {ε σ α : Type} (e : ε) (s : σ) :
    outcomeOf (.error e s : EStateM.Result ε σ α) = .error e := rfl

def rbRaise {α : Type} (cls : ExcClass) (msg : String) : Except Exit α := .error (.raised cls msg)

/-! ### Arguments -/

/-- `rb_scan_args` with `req` required and `opt` optional arguments; an absent one is `nil`. -/
def rbScanArgs (req opt : Nat) (argv : List Value) : Except Exit (Nat → Value) :=
  if req ≤ argv.length ∧ argv.length ≤ req + opt then .ok fun i => argv.getD i .nil
  else rbRaise .argError "wrong number of arguments"

def checkTypeString : Value → Except Exit Bytes
  | .string b => .ok b
  | _ => rbRaise .typeError "wrong argument type (expected String)"

def checkTypeFixnum : Value → Except Exit Fixnum
  | .fixnum n => .ok n
  | _ => rbRaise .typeError "wrong argument type (expected Integer)"

/-! ### Strings -/

/-- `StringValuePtr`: the bytes of a String, or of what `to_str` makes of another object. -/
def stringValuePtr : Value → Except Exit Bytes
  | .string b => .ok b
  | .other (some b) => .ok b
  | _ => rbRaise .typeError "no implicit conversion into String"

/-- `RSTRING_LEN` reads the length field of a String; of anything else it reads foreign memory. -/
def rstringLen : Value → Except Exit Nat
  | .string b => .ok b.length
  | _ => .error .undefined

def rbStrNew2 : Option Bytes → Except Exit Bytes
  | none => rbRaise .argError "NULL pointer given"
  | some p => .ok (CStr.ofPtr p).bytes

def rbStrNew (p : Bytes) (len : Nat) : Bytes := p.take len

/-! ### Numbers -/

/-- `NUM2DBL`: a Float has its own `double`; `rbNum2dbl` rounds the numbers that are no Floats to one. -/
def num2dbl (rbNum2dbl : Value → Double) : Value → Double
  | .float x => x
  | v => rbNum2dbl v

/-- The `VALUE` word of a Fixnum: `2n + 1`, as an unsigned word. -/
def Fixnum.word (n : Fixnum) : Nat := ((2 * n.val + 1) % 2 ^ 64).toNat

/-- `ULONG2NUM`: the `VALUE` word of an unsigned long; past the Fixnum range it is the address of
the Bignum that `rb_uint2big` allocates. -/
def ulong2num (rbUint2big : Nat → Nat) (v : Nat) : Nat :=
  if v < 2 ^ 62 then 2 * v + 1 else rbUint2big v

def num2int (n : Fixnum) : Except Exit Int :=
  if n.val < -2 ^ 31 then rbRaise .rangeError "integer too small to convert to int"
  else if 2 ^ 31 ≤ n.val then rbRaise .rangeError "integer too big to convert to int"
  else .ok n.val

def toSizeT (n : Int) : Nat := (n % 2 ^ 64).toNat

def toCInt (n : Nat) : Int := (BitVec.ofNat 32 n).toInt

theorem toCInt_le (n : Nat) : toCInt n ≤ n := by
  rw [toCInt, BitVec.toInt_ofNat', Int.bmod_def]
  split <;> omega

/-! ### Hashes -/

/-- `rb_hash_aset`: a key keeps its place when it is assigned again. -/
def rbHashAset : List (Bytes × Value) → Bytes → Value → List (Bytes × Value)
  | [], k, v => [(k, v)]
  | e :: es, k, v => if e.1 = k then (k, v) :: es else e :: rbHashAset es k v

section
variable {es : List (Bytes × Value)} {k : Bytes} {v : Value}

theorem lookup_cons_eq_ite {β : Type} (e : Bytes × β) (es : List (Bytes × β)) (key : Bytes) :
    (e :: es).lookup key = if key = e.1 then some e.2 else es.lookup key := by
  rw [List.lookup_cons]
  by_cases h : key = e.1
  · simp [h]
  · simp [h, beq_false_of_ne h]

theorem lookup_rbHashAset (key : Bytes) :
    (rbHashAset es k v).lookup key = if key = k then some v else es.lookup key := by
  induction es with
  | nil => exact lookup_cons_eq_ite ..
  | cons e es ih =>
    unfold rbHashAset
    by_cases he : e.1 = k
    · rw [if_pos he, lookup_cons_eq_ite, lookup_cons_eq_ite, he]
      split <;> rfl
    · rw [if_neg he, lookup_cons_eq_ite, lookup_cons_eq_ite, ih]
      by_cases h : key = e.1
      · rw [if_pos h, if_pos h, if_neg (h ▸ he)]
      · rw [if_neg h, if_neg h]

theorem rbHashAset_cons (e : Bytes × Value) (es : List (Bytes × Value)) (k : Bytes) (v : Value) :
    rbHashAset (e :: es) k v = if e.1 = k then (k, v) :: es else e :: rbHashAset es k v := rfl

/-- Entries picked out by their keys. -/
theorem filter_rbHashAset (p : Bytes → Bool) :
    (rbHashAset es k v).filter (fun e => p e.1) =
      if p k then rbHashAset (es.filter fun e => p e.1) k v else es.filter fun e => p e.1 := by
  induction es with
  | nil => cases hp : p k <;> simp [rbHashAset, hp]
  | cons e es ih =>
    rw [rbHashAset_cons]
    by_cases he : e.1 = k
    · cases hp : p k <;> simp [he, hp, rbHashAset_cons]
    · rw [if_neg he, List.filter_cons, List.filter_cons, ih]
      cases hp : p k <;> cases hpe : p e.1 <;> simp [he, rbHashAset_cons]

end

end CmetricsRuby
