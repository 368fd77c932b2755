import Mathlib.Data.Int.Bitwise
import Mathlib.Tactic.Common

/-!
# Algebraic decision diagrams

The compiler of `src/model/compiler.cc` and the SAT driver of `src/enc/enc.cc`
treat ADDs as values of an external decision-diagram package, of which they use
the node structure (the no-cut CNF walks it) and a family of pointwise
operations (`Plus`, `Times`, `LT`, `Equals`, `Cmpl`, `Ite`, ...).

An ADD is kept here as the decision tree it denotes: a terminal with a value, or
an internal node testing one DD variable.  Sharing of sub-DAGs is not
represented — it is invisible to evaluation and to path enumeration, which
unfolds a DAG into this tree anyway.  Every operation of the package is a
Shannon expansion `apply` of a value function, and is specified by its `eval`
lemma; no proof below looks inside `apply`.

## Main definitions

* `ADD`, `ADD.eval` — diagrams and their value under an assignment.
* `ADD.apply`, `ADD.map` — pointwise binary and unary operations.
* `ADD.plus`, `ADD.times`, `ADD.lt`, `ADD.cmpl`, `ADD.xnor`, `ADD.ite`, ... —
  the package operations the compiler calls, with their `eval` lemmas.
* `ADD.ZeroOne` — all terminals are `0` or `1`.
-/

namespace GnuSmv

/-- An algebraic decision diagram.  The terminal value is a `value_t`. -/
inductive ADD where
  /-- A terminal node carrying a value. -/
  | const (v : Int)
  /-- An internal node testing DD variable `index`: `t` when it is true, `e` when false. -/
  | node (index : Nat) (t e : ADD)
  deriving DecidableEq, Repr, Inhabited

namespace ADD

/-- The value of a diagram under an assignment of its DD variables. -/
def eval (ρ : Nat → Bool) : ADD → Int
  | const v => v
  | node i t e => if ρ i then t.eval ρ else e.eval ρ

@[simp] theorem eval_const (ρ : Nat → Bool) (v : Int) : (const v).eval ρ = v := rfl

@[simp] theorem eval_node (ρ : Nat → Bool) (i : Nat) (t e : ADD) :
    (node i t e).eval ρ = if ρ i then t.eval ρ else e.eval ρ := rfl

/-- Apply a value function to every terminal. -/
def map (f : Int → Int) : ADD → ADD
  | const v => const (f v)
  | node i t e => node i (t.map f) (e.map f)

/-- Pointwise combination of two diagrams by Shannon expansion on the first. -/
def apply (op : Int → Int → Int) : ADD → ADD → ADD
  | const a, g => g.map (op a)
  | node i t e, g => node i (apply op t g) (apply op e g)

@[simp] theorem eval_map (f : Int → Int) (ρ : Nat → Bool) (a : ADD) :
    (a.map f).eval ρ = f (a.eval ρ) := by
  induction a with
  | const v => rfl
  | node i t e iht ihe => by_cases h : ρ i <;> simp [map, h, iht, ihe]

@[simp] theorem eval_apply (op : Int → Int → Int) (ρ : Nat → Bool) (a b : ADD) :
    (apply op a b).eval ρ = op (a.eval ρ) (b.eval ρ) := by
  induction a with
  | const v => simp [apply]
  | node i t e iht ihe => by_cases h : ρ i <;> simp [apply, h, iht, ihe]

/-! ### Constants -/

/-- The constant `0` (`f_enc.zero()`). -/
def zero : ADD := const 0

/-- The constant `1` (`f_enc.one()`). -/
def one : ADD := const 1

/-- The constant `16`, the radix of algebraic digits (`f_enc.base()`). -/
def base : ADD := const 16

@[simp] theorem eval_zero (ρ : Nat → Bool) : zero.eval ρ = 0 := rfl
@[simp] theorem eval_one (ρ : Nat → Bool) : one.eval ρ = 1 := rfl
@[simp] theorem eval_base (ρ : Nat → Bool) : base.eval ρ = 16 := rfl

/-! ### The package operations

Logical operations read a value as true when it is nonzero and return `0` or
`1`, as the package does on 0-1 diagrams.  `%` and `/` are C's truncating
operations on `value_t`. -/

/-- The 0-1 value of a truth value. -/
def ofBool (b : Bool) : Int := if b then 1 else 0

@[simp] theorem ofBool_true : ofBool true = 1 := rfl
@[simp] theorem ofBool_false : ofBool false = 0 := rfl
theorem ofBool_nonneg (b : Bool) : 0 ≤ ofBool b := by cases b <;> decide

theorem ofBool_le_one (b : Bool) : ofBool b ≤ 1 := by cases b <;> decide

theorem ofBool_and (a b : Bool) : ofBool (a && b) = ofBool a * ofBool b := by
  cases a <;> cases b <;> rfl

@[simp] theorem ofBool_bne_zero (b : Bool) : (ofBool b != 0) = b := by cases b <;> rfl

@[simp] theorem ofBool_beq_zero (b : Bool) : (ofBool b == 0) = !b := by cases b <;> rfl

/-- `Plus`. -/
def plus : ADD → ADD → ADD := apply (· + ·)
/-- `Minus`. -/
def minus : ADD → ADD → ADD := apply (· - ·)
/-- `Times`, also the conjunction of 0-1 diagrams. -/
def times : ADD → ADD → ADD := apply (· * ·)
/-- `Divide`. -/
def divide : ADD → ADD → ADD := apply Int.tdiv
/-- `Modulus`. -/
def modulus : ADD → ADD → ADD := apply Int.tmod
/-- `Negate`. -/
def negate : ADD → ADD := map (- ·)
/-- `Cmpl`: `1` on zero, `0` elsewhere. -/
def cmpl : ADD → ADD := map fun a => ofBool (a == 0)
/-- `Or`. -/
def or : ADD → ADD → ADD := apply fun a b => ofBool (a != 0 || b != 0)
/-- `Xor`. -/
def xor : ADD → ADD → ADD := apply fun a b => ofBool ((a != 0) != (b != 0))
/-- `Xnor`. -/
def xnor : ADD → ADD → ADD := apply fun a b => ofBool ((a != 0) == (b != 0))
/-- `Equals`. -/
def equals : ADD → ADD → ADD := apply fun a b => ofBool (a == b)
/-- `LT`: `f.lt g` is `1` where `f < g`. -/
def lt : ADD → ADD → ADD := apply fun a b => ofBool (decide (a < b))
/-- `LEQ`. -/
def leq : ADD → ADD → ADD := apply fun a b => ofBool (decide (a ≤ b))
/-- `BWTimes`, bitwise and. -/
def bwTimes : ADD → ADD → ADD := apply Int.land
/-- `BWOr`, bitwise or. -/
def bwOr : ADD → ADD → ADD := apply Int.lor
/-- `BWXor`, bitwise exclusive or. -/
def bwXor : ADD → ADD → ADD := apply Int.xor
/-- `BWXnor`, bitwise equivalence. -/
def bwXnor : ADD → ADD → ADD := apply fun a b => Int.lnot (Int.xor a b)
/-- `BWCmpl`, bitwise complement. -/
def bwCmpl : ADD → ADD := map Int.lnot
/-- `LShift`. -/
def lShift : ADD → ADD → ADD := apply fun a b => a * 2 ^ b.toNat
/-- `RShift`. -/
def rShift : ADD → ADD → ADD := apply fun a b => a >>> b.toNat

/-- `c.ite t e`: `t` where `c` is nonzero, `e` elsewhere. -/
def ite : ADD → ADD → ADD → ADD
  | const a, t, e => if a != 0 then t else e
  | node i ct ce, t, e => node i (ite ct t e) (ite ce t e)

@[simp] theorem eval_plus (ρ : Nat → Bool) (a b : ADD) :
    (a.plus b).eval ρ = a.eval ρ + b.eval ρ := eval_apply _ _ _ _
@[simp] theorem eval_times (ρ : Nat → Bool) (a b : ADD) :
    (a.times b).eval ρ = a.eval ρ * b.eval ρ := eval_apply _ _ _ _
@[simp] theorem eval_modulus (ρ : Nat → Bool) (a b : ADD) :
    (a.modulus b).eval ρ = (a.eval ρ).tmod (b.eval ρ) := eval_apply _ _ _ _
@[simp] theorem eval_cmpl (ρ : Nat → Bool) (a : ADD) :
    a.cmpl.eval ρ = ofBool (a.eval ρ == 0) := eval_map _ _ _
@[simp] theorem eval_or (ρ : Nat → Bool) (a b : ADD) :
    (a.or b).eval ρ = ofBool (a.eval ρ != 0 || b.eval ρ != 0) := eval_apply _ _ _ _
@[simp] theorem eval_xor (ρ : Nat → Bool) (a b : ADD) :
    (a.xor b).eval ρ = ofBool ((a.eval ρ != 0) != (b.eval ρ != 0)) := eval_apply _ _ _ _
@[simp] theorem eval_xnor (ρ : Nat → Bool) (a b : ADD) :
    (a.xnor b).eval ρ = ofBool ((a.eval ρ != 0) == (b.eval ρ != 0)) := eval_apply _ _ _ _
@[simp] theorem eval_equals (ρ : Nat → Bool) (a b : ADD) :
    (a.equals b).eval ρ = ofBool (a.eval ρ == b.eval ρ) := eval_apply _ _ _ _
@[simp] theorem eval_lt (ρ : Nat → Bool) (a b : ADD) :
    (a.lt b).eval ρ = ofBool (decide (a.eval ρ < b.eval ρ)) := eval_apply _ _ _ _
@[simp] theorem eval_leq (ρ : Nat → Bool) (a b : ADD) :
    (a.leq b).eval ρ = ofBool (decide (a.eval ρ ≤ b.eval ρ)) := eval_apply _ _ _ _
@[simp] theorem eval_bwTimes (ρ : Nat → Bool) (a b : ADD) :
    (a.bwTimes b).eval ρ = Int.land (a.eval ρ) (b.eval ρ) := eval_apply _ _ _ _
@[simp] theorem eval_bwOr (ρ : Nat → Bool) (a b : ADD) :
    (a.bwOr b).eval ρ = Int.lor (a.eval ρ) (b.eval ρ) := eval_apply _ _ _ _
@[simp] theorem eval_bwXor (ρ : Nat → Bool) (a b : ADD) :
    (a.bwXor b).eval ρ = Int.xor (a.eval ρ) (b.eval ρ) := eval_apply _ _ _ _

@[simp] theorem eval_ite (ρ : Nat → Bool) (c t e : ADD) :
    (c.ite t e).eval ρ = if c.eval ρ != 0 then t.eval ρ else e.eval ρ := by
  induction c with
  | const a => by_cases h : a != 0 <;> simp [ite, h]
  | node i ct ce iht ihe => by_cases h : ρ i <;> simp [ite, h, iht, ihe]

/-! ### 0-1 diagrams -/

/-- All terminals of the diagram are `0` or `1`. -/
def ZeroOne : ADD → Prop
  | const v => v = 0 ∨ v = 1
  | node _ t e => t.ZeroOne ∧ e.ZeroOne

instance decZeroOne : (a : ADD) → Decidable a.ZeroOne
  | const v => inferInstanceAs (Decidable (v = 0 ∨ v = 1))
  | node _ t e => @instDecidableAnd _ _ (decZeroOne t) (decZeroOne e)

theorem ZeroOne.eval {a : ADD} (h : a.ZeroOne) (ρ : Nat → Bool) :
    a.eval ρ = 0 ∨ a.eval ρ = 1 := by
  induction a with
  | const v => exact h
  | node i t e iht ihe => by_cases hi : ρ i <;> simp [hi, iht h.1, ihe h.2]

end ADD

end GnuSmv
