import Mathlib.Tactic.Common

/-!
# Expressions and types

The expression DAG of the model checker is hash-consed, so an expression is
identified with its structure: here it is a plain tree.  The operators are the
ones the compiler and the evaluator walk (`walk_<op>_preorder`, ...): the
unary `-`, `!`, `next`, `prev`, and the binary arithmetic, bitwise, shift,
relational, `ITE`/`COND` and `.` (dot) operators.  An `ITE` node is
`ite (cond c t) e`.

Types are the families of `type.hh`; a type's width in the DD world is the
length of the DDVector that encodes it.

## Main definitions

* `ExprType`, `Expr`, `FQExpr` — operators, expressions, timed keys.
* `SmvType` and its classification predicates.
-/

namespace GnuSmv

/-- Unary operators. -/
inductive UnaryOp where
  | neg | not | next | prev
  deriving DecidableEq, Repr

/-- Binary operators. -/
inductive BinaryOp where
  | add | sub | div | mul | mod
  | and | or | xor | xnor | implies | iff
  | lshift | rshift
  | eq | ne | gt | ge | lt | le
  | ite | cond | dot
  deriving DecidableEq, Repr

/-- An expression. -/
inductive Expr where
  /-- An identifier, resolved to a symbol in its context. -/
  | ident (name : String)
  /-- A numeric literal. -/
  | iconst (value : Int)
  /-- A unary node. -/
  | unary (op : UnaryOp) (e : Expr)
  /-- A binary node. -/
  | binary (op : BinaryOp) (lhs rhs : Expr)
  deriving DecidableEq, Repr

/-- A fully qualified timed expression `(ctx, expr, time)`, the key of every cache. -/
structure FQExpr where
  /-- The context. -/
  ctx : Expr
  /-- The expression. -/
  expr : Expr
  /-- The time step. -/
  time : Int
  deriving DecidableEq, Repr

/-- The types of `type.hh`; widths count hex digits. -/
inductive SmvType where
  | boolean
  | intConst
  | fxdConst
  | unsignedInt (width : Nat)
  | signedInt (width : Nat)
  | unsignedFxd (width fract : Nat)
  | signedFxd (width fract : Nat)
  | enum (literals : List Expr)
  | inst (identifier : Expr)
  | array (of : SmvType) (size : Nat)
  deriving DecidableEq, Repr

namespace SmvType

/-- `is_boolean`. -/
def isBoolean : SmvType → Bool
  | boolean => true
  | _ => false

/-- `is_enumerative`. -/
def isEnumerative : SmvType → Bool
  | enum _ => true
  | _ => false

/-- `is_monolithic`: booleans and enumeratives, one DD each. -/
def isMonolithic (t : SmvType) : Bool := t.isBoolean || t.isEnumerative

/-- `is_algebraic`: the integer and fixed-point families. -/
def isAlgebraic : SmvType → Bool
  | unsignedInt _ | signedInt _ | unsignedFxd .. | signedFxd .. => true
  | _ => false

/-- `is_array`. -/
def isArray : SmvType → Bool
  | array .. => true
  | _ => false

@[simp] theorem isBoolean_of_isAlgebraic {t : SmvType} (h : t.isAlgebraic = true) :
    t.isBoolean = false := by
  cases t <;> simp_all [isAlgebraic, isBoolean]

@[simp] theorem isEnumerative_of_isAlgebraic {t : SmvType} (h : t.isAlgebraic = true) :
    t.isEnumerative = false := by
  cases t <;> simp_all [isAlgebraic, isEnumerative]

/-- An algebraic type is not monolithic: its operands span `W` digits. -/
@[simp] theorem isMonolithic_of_isAlgebraic {t : SmvType} (h : t.isAlgebraic = true) :
    t.isMonolithic = false := by
  simp [isMonolithic, h]

/-- The width of the type in the DD world: the length of its DDVector. -/
def width : SmvType → Nat
  | boolean | enum _ => 1
  | unsignedInt w | signedInt w | unsignedFxd w _ | signedFxd w _ => w
  | array t n => n * t.width
  | _ => 0

end SmvType

end GnuSmv
