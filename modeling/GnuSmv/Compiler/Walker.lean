import GnuSmv.Compiler.Internals
import GnuSmv.Compiler.Digits

/-!
# The walk of the boolean compiler

`BECompiler::process(ctx, body, time)` walks `body` with the postorder routines
of `compiler.cc`.  Every routine touches only `f_add_stack`: it is a function
on the stack here, top first, that fails (`none`) where the source pops an
empty stack or reaches an `assert`.  The family of an operator's operands is
read from the model manager's `type(expr, ctx)`, a parameter `typeOf`; the
symbol table (`fetch_symbol`) is a parameter `resolve`, and the DDs of the
encoding registered for a variable's `(ctx, expr, time)` key a parameter
`encoding`; `W` is `f_enc.width()`.

The generic walker and the `ExprMgr` operator predicates are not under `src/`;
they are modelled from the spec (§4.5.1): `preorder`, then the children, then
`postorder`, a cache hit skipping the subtree.  `BECompiler`'s own `cache_miss`
is declared in `compiler.hh`, which is not under `src/`, over its member
`f_map`; the preorders here run `Compiler::cache_miss` of `internals.cc` on the
shared state instead.  `BECompiler` defines no node hooks, so nothing is cached
during the walk.

## Main definitions

* `walkBinaryPostorder`, `walkUnaryPostorder` — the postorder routines.
* `walkLeaf`, `walk`, `process`.

## Main results

* `walk_frames` — every walk leaves `f_ctx_stack` and `f_time_stack` as they were.
* `walk_cache_nil` — from an empty cache a walk changes `f_add_stack` only, so
  `process_cache_nil`: `process` never returns from an empty cache, its
  `f_type_stack` staying empty.
* `walkRelationalPostorder_algebraic` — the algebraic relationals push `one()`
  (`==`), its complement (`!=`) or `zero()`, whatever the operands.
* `leafMiss_algebraic_none` — an algebraic leaf reads `dds[W]`, past its
  encoding, and fails.
* `walk_lshift_boolean` — a monolithic `<<` pops one DD more than its operands
  pushed.
-/

namespace GnuSmv

namespace BECompiler

/-! ### Operator and operand classes -/

/-- Modelled from the spec: `ExprMgr::is_binary_logical`. -/
def isBinaryLogical : BinaryOp → Bool
  | .and | .or | .xor | .xnor | .implies | .iff => true
  | _ => false

/-- Modelled from the spec: `ExprMgr::is_binary_arithmetical`, shifts included. -/
def isBinaryArithmetical : BinaryOp → Bool
  | .add | .sub | .div | .mul | .mod | .lshift | .rshift => true
  | _ => false

/-- Modelled from the spec: `ExprMgr::is_binary_relational`. -/
def isBinaryRelational : BinaryOp → Bool
  | .eq | .ne | .lt | .le | .gt | .ge => true
  | _ => false

/-- Modelled from the spec: `ExprMgr::is_unary_logical`. -/
def isUnaryLogical : UnaryOp → Bool
  | .not => true
  | _ => false

/-- Modelled from the spec: `ExprMgr::is_unary_arithmetical`. -/
def isUnaryArithmetical : UnaryOp → Bool
  | .neg => true
  | _ => false

section Classify

variable (typeOf : Expr → Expr → SmvType) (ctx : Expr)

/-- `is_binary_boolean`. -/
def isBinaryBoolean (op : BinaryOp) (lhs rhs : Expr) : Bool :=
  isBinaryLogical op && (typeOf lhs ctx).isBoolean && (typeOf rhs ctx).isBoolean

/-- `is_unary_boolean`. -/
def isUnaryBoolean (op : UnaryOp) (lhs : Expr) : Bool :=
  isUnaryLogical op && (typeOf lhs ctx).isBoolean

/-- `is_binary_monolithic`. -/
def isBinaryMonolithic (op : BinaryOp) (lhs rhs : Expr) : Bool :=
  (isBinaryLogical op || isBinaryArithmetical op || isBinaryRelational op) &&
    (typeOf lhs ctx).isMonolithic && (typeOf rhs ctx).isMonolithic

/-- `is_unary_monolithic`. -/
def isUnaryMonolithic (op : UnaryOp) (lhs : Expr) : Bool :=
  isUnaryArithmetical op && (typeOf lhs ctx).isMonolithic

/-- `is_binary_enumerative`. -/
def isBinaryEnumerative (op : BinaryOp) (lhs rhs : Expr) : Bool :=
  (isBinaryArithmetical op || isBinaryRelational op) &&
    (typeOf lhs ctx).isEnumerative && (typeOf rhs ctx).isEnumerative

/-- `is_binary_algebraic`. -/
def isBinaryAlgebraic (op : BinaryOp) (lhs rhs : Expr) : Bool :=
  (isBinaryLogical op || isBinaryArithmetical op || isBinaryRelational op) &&
    (typeOf lhs ctx).isAlgebraic && (typeOf rhs ctx).isAlgebraic

/-- `is_unary_algebraic`. -/
def isUnaryAlgebraic (op : UnaryOp) (lhs : Expr) : Bool :=
  (isUnaryLogical op || isUnaryArithmetical op) && (typeOf lhs ctx).isAlgebraic

/-- Modelled from the spec: `is_ite_<family>`, both branches of the family. -/
def isIte (p : SmvType → Bool) (t e : Expr) : Bool := p (typeOf t ctx) && p (typeOf e ctx)

end Classify

/-! ### Stack primitives -/

/-- `top = f_add_stack.back(); f_add_stack.pop_back()`; an empty stack fails. -/
def pop : List ADD → Option (ADD × List ADD)
  | a :: s => some (a, s)
  | [] => none

/-- Pop `W` entries into `arr[W], ..., arr[1]`. -/
def popDigits (W : Nat) (s : List ADD) : Option (List ADD × List ADD) :=
  if W ≤ s.length then some (s.take W, s.drop W) else none

/-- The monolithic pattern: pop `rhs`, pop `lhs`, push `f(lhs, rhs)`. -/
def binaryTop (f : ADD → ADD → ADD) (s : List ADD) : Option (List ADD) := do
  let (rhs, s) ← pop s
  let (lhs, s) ← pop s
  pure (f lhs rhs :: s)

/-- The algebraic pattern: pop `rhs[W..1]`, pop `lhs[W..1]`, run a digit routine.
The source declares `ADD* rhs[width]` and writes `*rhs[i]` for `i = W` down to
`1`, through uninitialised pointers and one past the array's end; the model
reads each array as the `W` entries popped into it. -/
def binaryDigits (W : Nat) (g : List ADD → List ADD → List ADD → List ADD) (s : List ADD) :
    Option (List ADD) := do
  let (rhs, s) ← popDigits W s
  let (lhs, s) ← popDigits W s
  pure (g lhs rhs s)

/-! ### Postorder routines -/

section Postorder

variable (typeOf : Expr → Expr → SmvType) (W : Nat) (ctx : Expr)

/-- `walk_add_postorder`. -/
def walkAddPostorder (op : BinaryOp) (lhs rhs : Expr) (s : List ADD) : Option (List ADD) :=
  if isBinaryMonolithic typeOf ctx op lhs rhs then binaryTop ADD.plus s
  else if isBinaryAlgebraic typeOf ctx op lhs rhs then binaryDigits W walkAddAlgebraic s
  else none

/-- The arithmetic postorders without an algebraic algorithm: `assert(0)`. -/
def arithmeticPostorder (f : ADD → ADD → ADD) (op : BinaryOp) (lhs rhs : Expr) (s : List ADD) :
    Option (List ADD) :=
  if isBinaryMonolithic typeOf ctx op lhs rhs then binaryTop f s else none

/-- `walk_sub_postorder`. -/
def walkSubPostorder := arithmeticPostorder typeOf ctx ADD.minus

/-- `walk_div_postorder`. -/
def walkDivPostorder := arithmeticPostorder typeOf ctx ADD.divide

/-- `walk_mul_postorder`. -/
def walkMulPostorder := arithmeticPostorder typeOf ctx ADD.times

/-- `walk_mod_postorder`. -/
def walkModPostorder := arithmeticPostorder typeOf ctx ADD.modulus

/-- The bitwise postorders: boolean, monolithic and algebraic branches, and what
is left (`assert(0)` in some members, nothing in others). -/
def bitwisePostorder (fBool fMono : ADD → ADD → ADD) (g : List ADD → List ADD → List ADD → List ADD)
    (otherwise : List ADD → Option (List ADD)) (op : BinaryOp) (lhs rhs : Expr) (s : List ADD) :
    Option (List ADD) :=
  if isBinaryBoolean typeOf ctx op lhs rhs then binaryTop fBool s
  else if isBinaryMonolithic typeOf ctx op lhs rhs then binaryTop fMono s
  else if isBinaryAlgebraic typeOf ctx op lhs rhs then binaryDigits W g s
  else otherwise s

/-- `walk_and_postorder`. -/
def walkAndPostorder := bitwisePostorder typeOf W ctx ADD.times ADD.bwTimes walkAndAlgebraic fun _ => none

/-- `walk_or_postorder`: no final `assert(0)`. -/
def walkOrPostorder := bitwisePostorder typeOf W ctx ADD.or ADD.bwOr walkOrAlgebraic some

/-- `walk_xor_postorder`: no final `assert(0)`. -/
def walkXorPostorder := bitwisePostorder typeOf W ctx ADD.xor ADD.bwXor walkXorAlgebraic some

/-- `walk_xnor_postorder`: no final `assert(0)`. -/
def walkXnorPostorder := bitwisePostorder typeOf W ctx ADD.xnor ADD.bwXnor walkXnorAlgebraic some

/-- `walk_iff_postorder`: "just a fancy name for xnor". -/
def walkIffPostorder := walkXnorPostorder typeOf W ctx

/-- `walk_implies_postorder`: `lhs.Cmpl().Or(rhs)`, `lhs.BWCmpl().BWXOr(rhs)`. -/
def walkImpliesPostorder :=
  bitwisePostorder typeOf W ctx (fun l r => l.cmpl.or r) (fun l r => l.bwCmpl.bwXor r)
    walkImpliesAlgebraic fun _ => none

/-- `walk_lshift_postorder`: a bitwise branch as in `walk_implies_postorder`,
then a second pop of two entries and a push of `lhs.LShift(rhs)`. -/
def walkLshiftPostorder (op : BinaryOp) (lhs rhs : Expr) (s : List ADD) : Option (List ADD) := do
  let s ← if isBinaryMonolithic typeOf ctx op lhs rhs then binaryTop (fun l r => l.bwCmpl.bwXor r) s
    else if isBinaryAlgebraic typeOf ctx op lhs rhs then binaryDigits W walkImpliesAlgebraic s
    else none
  binaryTop ADD.lShift s

/-- `walk_rshift_postorder`: pop two entries, push `lhs.RShift(rhs)`, whatever the family. -/
def walkRshiftPostorder (s : List ADD) : Option (List ADD) := binaryTop ADD.rShift s

/-- The ordering postorders: a monolithic comparison, or an algebraic one
pushing a single DD. -/
def relationalPostorder (f : ADD → ADD → ADD) (g : List ADD → List ADD → ADD) (op : BinaryOp)
    (lhs rhs : Expr) (s : List ADD) : Option (List ADD) :=
  if isBinaryMonolithic typeOf ctx op lhs rhs then binaryTop f s
  else if isBinaryAlgebraic typeOf ctx op lhs rhs then binaryDigits W (fun l r s => g l r :: s) s
  else none

/-- `walk_gt_postorder`: `rhs.LT(lhs)`. -/
def walkGtPostorder := relationalPostorder typeOf W ctx (fun l r => r.lt l) walkGtAlgebraic

/-- `walk_ge_postorder`: `rhs.LEQ(lhs)`. -/
def walkGePostorder := relationalPostorder typeOf W ctx (fun l r => r.leq l) walkGeAlgebraic

/-- `walk_lt_postorder`. -/
def walkLtPostorder := relationalPostorder typeOf W ctx ADD.lt walkLtAlgebraic

/-- `walk_le_postorder`. -/
def walkLePostorder := relationalPostorder typeOf W ctx ADD.leq walkLeAlgebraic

/-- The equality postorders: boolean, monolithic or enumerative, and algebraic branches. -/
def equalityPostorder (f : ADD → ADD → ADD) (g : List ADD → List ADD → ADD) (op : BinaryOp)
    (lhs rhs : Expr) (s : List ADD) : Option (List ADD) :=
  if isBinaryBoolean typeOf ctx op lhs rhs then binaryTop f s
  else if isBinaryMonolithic typeOf ctx op lhs rhs || isBinaryEnumerative typeOf ctx op lhs rhs then
    binaryTop f s
  else if isBinaryAlgebraic typeOf ctx op lhs rhs then binaryDigits W (fun l r s => g l r :: s) s
  else none

/-- `walk_eq_postorder`. -/
def walkEqPostorder := equalityPostorder typeOf W ctx ADD.equals walkEqAlgebraic

/-- `walk_ne_postorder`. -/
def walkNePostorder := equalityPostorder typeOf W ctx (fun l r => (l.equals r).cmpl) walkNeAlgebraic

/-- `walk_ite_postorder` on `ite (cond c t) e`.  Only the boolean branch
declares and pops the condition `c`; the monolithic, enumerative and algebraic
branches use a `c` they never declare, which does not compile: they fail. -/
def walkItePostorder (t e : Expr) (s : List ADD) : Option (List ADD) :=
  if isIte typeOf ctx SmvType.isBoolean t e then do
    let (rhs, s) ← pop s
    let (lhs, s) ← pop s
    let (c, s) ← pop s
    pure (c.ite lhs rhs :: s)
  else none

/-- `walk_neg_postorder`: the algebraic branch pops its operand, then `assert(0)`. -/
def walkNegPostorder (op : UnaryOp) (lhs : Expr) (s : List ADD) : Option (List ADD) :=
  if isUnaryMonolithic typeOf ctx op lhs then do
    let (top, s) ← pop s
    pure (top.negate :: s)
  else none

/-- `walk_not_postorder`: no final `assert(0)`. -/
def walkNotPostorder (op : UnaryOp) (lhs : Expr) (s : List ADD) : Option (List ADD) :=
  if isUnaryBoolean typeOf ctx op lhs then do
    let (top, s) ← pop s
    pure (top.cmpl :: s)
  else if isUnaryAlgebraic typeOf ctx op lhs then none
  else some s

/-- The postorder of a binary node; `walk_cond_postorder` and
`walk_dot_postorder` do nothing. -/
def walkBinaryPostorder (op : BinaryOp) (lhs rhs : Expr) (s : List ADD) : Option (List ADD) :=
  match op with
  | .add => walkAddPostorder typeOf W ctx op lhs rhs s
  | .sub => walkSubPostorder typeOf ctx op lhs rhs s
  | .div => walkDivPostorder typeOf ctx op lhs rhs s
  | .mul => walkMulPostorder typeOf ctx op lhs rhs s
  | .mod => walkModPostorder typeOf ctx op lhs rhs s
  | .and => walkAndPostorder typeOf W ctx op lhs rhs s
  | .or => walkOrPostorder typeOf W ctx op lhs rhs s
  | .xor => walkXorPostorder typeOf W ctx op lhs rhs s
  | .xnor => walkXnorPostorder typeOf W ctx op lhs rhs s
  | .iff => walkIffPostorder typeOf W ctx op lhs rhs s
  | .implies => walkImpliesPostorder typeOf W ctx op lhs rhs s
  | .lshift => walkLshiftPostorder typeOf W ctx op lhs rhs s
  | .rshift => walkRshiftPostorder s
  | .eq => walkEqPostorder typeOf W ctx op lhs rhs s
  | .ne => walkNePostorder typeOf W ctx op lhs rhs s
  | .gt => walkGtPostorder typeOf W ctx op lhs rhs s
  | .ge => walkGePostorder typeOf W ctx op lhs rhs s
  | .lt => walkLtPostorder typeOf W ctx op lhs rhs s
  | .le => walkLePostorder typeOf W ctx op lhs rhs s
  | .ite => match lhs with
    | .binary .cond _ t => walkItePostorder typeOf ctx t rhs s
    | _ => none
  | .cond | .dot => some s

/-- The postorder of a unary node other than `next`; `BECompiler` has no
routine for `prev`. -/
def walkUnaryPostorder (op : UnaryOp) (lhs : Expr) (s : List ADD) : Option (List ADD) :=
  match op with
  | .neg => walkNegPostorder typeOf ctx op lhs s
  | .not => walkNotPostorder typeOf ctx op lhs s
  | .next | .prev => none

end Postorder

/-! ### Operands of one family -/

theorem popDigits_append {W : Nat} {xs : List ADD} (s : List ADD) (h : xs.length = W) :
    popDigits W (xs ++ s) = some (xs, s) := by
  subst h
  simp [popDigits]

/-- The algebraic pattern pops `rhs`, then `lhs`, `W` entries each. -/
theorem binaryDigits_append {W : Nat} (g : List ADD → List ADD → List ADD → List ADD)
    {lhs rhs : List ADD} (s : List ADD) (hl : lhs.length = W) (hr : rhs.length = W) :
    binaryDigits W g (rhs ++ lhs ++ s) = some (g lhs rhs s) := by
  simp [binaryDigits, popDigits_append _ hr, popDigits_append _ hl]

section Families

variable {typeOf : Expr → Expr → SmvType} {ctx l r : Expr}
  (hl : (typeOf l ctx).isAlgebraic = true) (hr : (typeOf r ctx).isAlgebraic = true)

include hl hr in
/-- Algebraic operands of a logical operator take the algebraic bitwise branch. -/
theorem bitwisePostorder_algebraic (W : Nat) (fBool fMono : ADD → ADD → ADD)
    (g : List ADD → List ADD → List ADD → List ADD) (otherwise : List ADD → Option (List ADD))
    (op : BinaryOp) (hop : isBinaryLogical op = true) (s : List ADD) :
    bitwisePostorder typeOf W ctx fBool fMono g otherwise op l r s = binaryDigits W g s := by
  simp [bitwisePostorder, isBinaryBoolean, isBinaryMonolithic, isBinaryAlgebraic, hl, hr, hop]

include hl hr in
/-- Algebraic operands of a relational operator take the algebraic equality branch. -/
theorem equalityPostorder_algebraic (W : Nat) (f : ADD → ADD → ADD) (g : List ADD → List ADD → ADD)
    (op : BinaryOp) (hop : isBinaryRelational op = true) (s : List ADD) :
    equalityPostorder typeOf W ctx f g op l r s = binaryDigits W (fun l r s => g l r :: s) s := by
  simp [equalityPostorder, isBinaryBoolean, isBinaryMonolithic, isBinaryEnumerative,
    isBinaryAlgebraic, hl, hr, hop]

include hl hr in
/-- On algebraic operands `walk_and_postorder`, `walk_or_postorder` and
`walk_xor_postorder` replace the two digit vectors by their digit loops. -/
theorem walkBitwisePostorder_algebraic {W : Nat} (lhs rhs s : List ADD)
    (hlw : lhs.length = W) (hrw : rhs.length = W) :
    walkAndPostorder typeOf W ctx .and l r (rhs ++ lhs ++ s) = some (walkAndAlgebraic lhs rhs s) ∧
      walkOrPostorder typeOf W ctx .or l r (rhs ++ lhs ++ s) = some (walkOrAlgebraic lhs rhs s) ∧
      walkXorPostorder typeOf W ctx .xor l r (rhs ++ lhs ++ s) = some (walkXorAlgebraic lhs rhs s) := by
  refine ⟨?_, ?_, ?_⟩
  · rw [walkAndPostorder, bitwisePostorder_algebraic hl hr W _ _ _ _ .and rfl, binaryDigits_append _ s hlw hrw]
  · rw [walkOrPostorder, bitwisePostorder_algebraic hl hr W _ _ _ _ .or rfl, binaryDigits_append _ s hlw hrw]
  · rw [walkXorPostorder, bitwisePostorder_algebraic hl hr W _ _ _ _ .xor rfl, binaryDigits_append _ s hlw hrw]

include hl hr in
/-- Algebraic operands of an ordering operator take the algebraic branch. -/
theorem relationalPostorder_algebraic (W : Nat) (f : ADD → ADD → ADD) (g : List ADD → List ADD → ADD)
    (op : BinaryOp) (hop : isBinaryRelational op = true) (s : List ADD) :
    relationalPostorder typeOf W ctx f g op l r s = binaryDigits W (fun l r s => g l r :: s) s := by
  simp [relationalPostorder, isBinaryMonolithic, isBinaryAlgebraic, hl, hr, hop]

include hl hr in
/-- **The algebraic relational postorders ignore the digits.**  For every
width `W` and digit vectors `lhs`, `rhs` of `W` DDs on the stack,
`walk_eq_postorder` replaces them by `one()`, `walk_ne_postorder` by its
complement, and `walk_lt_postorder`, `walk_le_postorder`, `walk_gt_postorder`,
`walk_ge_postorder` by `zero()`. -/
theorem walkRelationalPostorder_algebraic {W : Nat} (lhs rhs s : List ADD)
    (hlw : lhs.length = W) (hrw : rhs.length = W) :
    walkEqPostorder typeOf W ctx .eq l r (rhs ++ lhs ++ s) = some (ADD.one :: s) ∧
      walkNePostorder typeOf W ctx .ne l r (rhs ++ lhs ++ s) = some (ADD.one.cmpl :: s) ∧
      walkLtPostorder typeOf W ctx .lt l r (rhs ++ lhs ++ s) = some (ADD.zero :: s) ∧
      walkLePostorder typeOf W ctx .le l r (rhs ++ lhs ++ s) = some (ADD.zero :: s) ∧
      walkGtPostorder typeOf W ctx .gt l r (rhs ++ lhs ++ s) = some (ADD.zero :: s) ∧
      walkGePostorder typeOf W ctx .ge l r (rhs ++ lhs ++ s) = some (ADD.zero :: s) := by
  simp only [walkEqPostorder, walkNePostorder, walkLtPostorder, walkLePostorder, walkGtPostorder,
    walkGePostorder, equalityPostorder_algebraic hl hr, relationalPostorder_algebraic hl hr, isBinaryRelational,
    binaryDigits_append _ s hlw hrw, walkRelationalAlgebraic_eq lhs rhs, and_self]

end Families

/-- Operands `x = 1` and `y = 2` of width `1`: the algebraic `==` pushes a DD
of value `1` and `!=` one of value `0`, although `1 ≠ 2`. -/
theorem walkEqPostorder_one_two :
    (walkEqPostorder (fun _ _ => .unsignedInt 1) 1 (.ident "main") .eq (.ident "x") (.ident "y")
        [.const 2, .const 1]).map (List.map (ADD.eval fun _ => false)) = some [1] ∧
      (walkNePostorder (fun _ _ => .unsignedInt 1) 1 (.ident "main") .ne (.ident "x") (.ident "y")
        [.const 2, .const 1]).map (List.map (ADD.eval fun _ => false)) = some [0] ∧
      leValue [1] ≠ leValue [2] := by
  decide

/-- Operands `x = 1` and `y = 2` of width `1`: the algebraic `|` pushes the
digit `1 & 2 = 0`, where `1 | 2 = 3`. -/
theorem walkOrPostorder_one_two :
    walkOrPostorder (fun _ _ => .unsignedInt 1) 1 (.ident "main") .or (.ident "x") (.ident "y")
        [.const 2, .const 1] = some [.const 0] ∧ Int.lor 1 2 = 3 := by
  decide

/-! ### Leaves and the walk -/

/-- A symbol as `fetch_symbol` returns it. -/
inductive Symbol where
  /-- A constant, with its value. -/
  | const (value : Int)
  /-- A variable, with its type. -/
  | variable (type : SmvType)
  /-- A define, with its body. -/
  | define (body : Expr)
  deriving DecidableEq, Repr

/-- `push_const_value(value)`. -/
def pushConstValue (value : Int) (s : List ADD) : List ADD :=
  (if value = 0 then ADD.zero else if value = 1 then ADD.one else .const value) :: s

/-- Modelled from the spec: `push_const_value_boolean`, not under `src/`: the
constant as one DD, as `push_const_value` pushes it. -/
def pushConstValueBoolean (value : Int) (s : List ADD) : List ADD := pushConstValue value s

/-- Modelled from the spec: `push_const_value_algebraic`, not under `src/`: the
`W` base-16 digits of the value, least significant on top. -/
def pushConstValueAlgebraic (W : Nat) (value : Int) (s : List ADD) : List ADD :=
  (List.range W).map (fun i => ADD.const (value / 16 ^ i % 16)) ++ s

/-- `walk_next_preorder`: push `1 + time`. -/
def walkNextPreorder (st : Compiler) : Option Compiler :=
  st.timeStack.head?.map fun t => { st with timeStack := (1 + t) :: st.timeStack }

/-- `walk_next_postorder`: pop the time. -/
def walkNextPostorder (st : Compiler) : Option Compiler :=
  match st.timeStack with
  | _ :: ts => some { st with timeStack := ts }
  | [] => none

/-- Run a postorder routine on `f_add_stack`. -/
def postorder (f : List ADD → Option (List ADD)) (st : Compiler) : Option Compiler :=
  (f st.addStack).map fun s => { st with addStack := s }

section Walk

variable (typeOf : Expr → Expr → SmvType) (resolve : Expr → Expr → Option Symbol)
  (encoding : FQExpr → List ADD) (W : Nat)

/-- `walk_leaf(expr)` after a cache miss: a numeric constant, or a symbol: a
constant, a variable, or a define, compiled by `recurse`.  A boolean or
monolithic variable pushes `dds[0]`; an algebraic one pushes `dds[i]` for
`i = width` down to `1`.  A read outside the DDVector fails. -/
def leafMiss (recurse : Expr → Compiler → Option Compiler) (expr : Expr) (st : Compiler) :
    Option Compiler :=
  let ctx := st.ctxStack.headD (.ident "")
  match expr with
  | .iconst value => some { st with addStack := pushConstValueAlgebraic W value st.addStack }
  | _ =>
    match resolve ctx expr with
    | some (.const value) => some { st with addStack := pushConstValueBoolean value st.addStack }
    | some (.variable ty) =>
      let dds := encoding ⟨ctx, expr, st.timeStack.headD 0⟩
      if ty.isBoolean || ty.isMonolithic then
        dds.head?.map fun dd => { st with addStack := dd :: st.addStack }
      else if ty.isAlgebraic then
        ((List.range ty.width).mapM fun j => dds[j + 1]?).map fun pushed =>
          { st with addStack := pushed ++ st.addStack }
      else none
    | some (.define body) => recurse body st
    | none => none

/-- `walk_leaf(expr)`: a cache hit, or `leafMiss`. -/
def walkLeaf (recurse : Expr → Compiler → Option Compiler) (expr : Expr) (st : Compiler) :
    Option Compiler :=
  let r := st.cacheMiss typeOf expr
  if r.1 then leafMiss resolve encoding W recurse expr r.2 else some r.2

/-- Modelled from the spec: the expression walker.  A node's preorder is
`cache_miss`, except `next`'s; on a miss the children are walked and the
postorder runs.  Each level spends one unit of `fuel`. -/
def walk : Nat → Expr → Compiler → Option Compiler
  | 0, _, _ => none
  | fuel + 1, expr, st =>
    match expr with
    | .unary .next lhs => walkNextPreorder st >>= walk fuel lhs >>= walkNextPostorder
    | .unary op lhs =>
      let r := st.cacheMiss typeOf expr
      if r.1 then
        walk fuel lhs r.2 >>= fun st =>
          postorder (walkUnaryPostorder typeOf (st.ctxStack.headD (.ident "")) op lhs) st
      else some r.2
    | .binary op lhs rhs =>
      let r := st.cacheMiss typeOf expr
      if r.1 then
        walk fuel lhs r.2 >>= walk fuel rhs >>= fun st =>
          postorder (walkBinaryPostorder typeOf W (st.ctxStack.headD (.ident "")) op lhs rhs) st
      else some r.2
    | _ => walkLeaf typeOf resolve encoding W (walk fuel) expr st

/-- `process(ctx, body, time)`: clear the stacks, walk `body`, and check that
each of the four stacks holds exactly one entry. -/
def process (fuel : Nat) (ctx body : Expr) (time : Int) (st : Compiler) : Option ADD := do
  let st ← walk typeOf resolve encoding W fuel body
    { st with addStack := [], typeStack := [], ctxStack := [ctx], timeStack := [time] }
  if st.addStack.length = 1 ∧ st.typeStack.length = 1 ∧ st.ctxStack.length = 1 ∧
      st.timeStack.length = 1 then st.addStack.head?
  else none

/-! ### Algebraic leaves -/

theorem mapM_eq_none_of_mem {α β : Type} {f : α → Option β} :
    ∀ {l : List α} {a : α}, a ∈ l → f a = none → l.mapM f = none
  | _ :: _, _, .head _, h => by rw [List.mapM_cons, h]; rfl
  | b :: _, _, .tail _ hm, h => by
    rw [List.mapM_cons, mapM_eq_none_of_mem hm h]
    cases f b <;> rfl

/-- **An algebraic leaf reads past its encoding.**  For a variable of algebraic
type whose encoding holds `W ≥ 1` DDs, `walk_leaf`'s first read is `dds[W]`,
one past the vector's end: the leaf fails before anything is pushed. -/
theorem leafMiss_algebraic_none (recurse : Expr → Compiler → Option Compiler) {expr : Expr}
    (st : Compiler) {ty : SmvType} (hexpr : ∀ v, expr ≠ .iconst v)
    (hres : resolve (st.ctxStack.headD (.ident "")) expr = some (.variable ty))
    (hty : ty.isAlgebraic = true) (hw : (encoding (st.key expr)).length = ty.width)
    (hpos : 0 < ty.width) :
    leafMiss resolve encoding W recurse expr st = none := by
  unfold leafMiss
  split
  · exact absurd rfl (hexpr _)
  · have hread : (encoding (st.key expr))[ty.width - 1 + 1]? = none := by
      rw [Nat.sub_add_cancel hpos, List.getElem?_eq_none_iff, hw]
    simp only [hres, SmvType.isMonolithic_of_isAlgebraic hty, SmvType.isBoolean_of_isAlgebraic hty,
      hty, Bool.or_false, Bool.false_eq_true, if_false, if_true]
    rw [mapM_eq_none_of_mem (List.mem_range.2 (Nat.sub_lt hpos Nat.one_pos)) hread, Option.map_none']

/-- A variable of width `2` with encoding `dds = [b₀, b₁]`: `walk_leaf` fails
at its read of `dds[2]`, where `push_dds` pushes `b₀` over `b₁`. -/
theorem leafMiss_two_digits :
    leafMiss (fun _ _ => some (.variable (.unsignedInt 2))) (fun _ => [bitVar 0, bitVar 1]) 2
        (fun _ _ => none) (.ident "x") (Compiler.start (.ident "main") 0) = none ∧
    ((Compiler.start (.ident "main") 0).pushDds [bitVar 0, bitVar 1] (.unsignedInt 2)).map
      Compiler.addStack = some [bitVar 0, bitVar 1] := by
  decide

/-! ### The context and time stacks -/

/-- Two states with the same context and time stacks and the same cache. -/
def SameFrames (st st' : Compiler) : Prop :=
  st'.ctxStack = st.ctxStack ∧ st'.timeStack = st.timeStack ∧ st'.cache = st.cache

theorem SameFrames.trans {st₁ st₂ st₃ : Compiler} (h₁ : SameFrames st₁ st₂) (h₂ : SameFrames st₂ st₃) :
    SameFrames st₁ st₃ :=
  ⟨h₂.1.trans h₁.1, h₂.2.1.trans h₁.2.1, h₂.2.2.trans h₁.2.2⟩

theorem sameFrames_cacheMiss (expr : Expr) (st : Compiler) :
    SameFrames st (st.cacheMiss typeOf expr).2 := by
  unfold Compiler.cacheMiss
  split <;> exact ⟨rfl, rfl, rfl⟩

theorem sameFrames_postorder {f : List ADD → Option (List ADD)} {st st' : Compiler}
    (h : postorder f st = some st') : SameFrames st st' := by
  obtain ⟨s, -, rfl⟩ := Option.map_eq_some'.1 h
  exact ⟨rfl, rfl, rfl⟩

/-- A leaf changes the frames only through a define it recurses into. -/
theorem sameFrames_walkLeaf {recurse : Expr → Compiler → Option Compiler}
    (hrec : ∀ body st st', recurse body st = some st' → SameFrames st st') {expr : Expr}
    {st st' : Compiler} (h : walkLeaf typeOf resolve encoding W recurse expr st = some st') :
    SameFrames st st' := by
  refine (sameFrames_cacheMiss typeOf expr st).trans ?_
  dsimp only [walkLeaf, leafMiss] at h
  -- every branch pushes onto the stack, recurses into a define, or fails
  repeat' split at h
  all_goals first
    | (cases h; exact ⟨rfl, rfl, rfl⟩)
    | (obtain ⟨_, -, rfl⟩ := Option.map_eq_some'.1 h; exact ⟨rfl, rfl, rfl⟩)
    | exact hrec _ _ _ h | cases h

/-- `next` pushes a time and pops it again. -/
theorem sameFrames_walkNext {st st₁ st₂ st' : Compiler} (h₁ : walkNextPreorder st = some st₁)
    (h₂ : SameFrames st₁ st₂) (h₃ : walkNextPostorder st₂ = some st') : SameFrames st st' := by
  obtain ⟨t, -, rfl⟩ := Option.map_eq_some'.1 h₁
  simp only [walkNextPostorder, h₂.2] at h₃
  cases h₃
  exact ⟨h₂.1, rfl, rfl⟩

/-- **The walk keeps the frames.**  A walk that returns leaves `f_ctx_stack`
and `f_time_stack` as they were, whatever it compiles; it caches nothing. -/
theorem walk_frames : ∀ (fuel : Nat) (expr : Expr) (st st' : Compiler),
    walk typeOf resolve encoding W fuel expr st = some st' → SameFrames st st'
  | 0, _, _, _, h => nomatch h
  | fuel + 1, .unary op lhs, st, st', h => by
    have ih := walk_frames fuel lhs
    cases op with
    | next =>
      simp only [walk, Option.bind_eq_bind, Option.bind_eq_some] at h
      obtain ⟨st₂, ⟨st₁, h₁, h₂⟩, h₃⟩ := h
      exact sameFrames_walkNext h₁ (ih _ _ h₂) h₃
    | neg | not | prev =>
      simp only [walk] at h
      split at h
      · obtain ⟨st₃, h₃, h₄⟩ := Option.bind_eq_some.1 h
        exact (sameFrames_cacheMiss typeOf _ st).trans ((ih _ _ h₃).trans (sameFrames_postorder h₄))
      · cases h; exact sameFrames_cacheMiss typeOf _ st
  | fuel + 1, .binary op lhs rhs, st, st', h => by
    simp only [walk] at h
    split at h
    · obtain ⟨st₄, h₄, h₅⟩ := Option.bind_eq_some.1 h
      obtain ⟨st₃, h₃, h₄⟩ := Option.bind_eq_some.1 h₄
      exact (sameFrames_cacheMiss typeOf _ st).trans (((walk_frames fuel lhs _ _ h₃).trans
        (walk_frames fuel rhs _ _ h₄)).trans (sameFrames_postorder h₅))
    · cases h; exact sameFrames_cacheMiss typeOf _ st
  | fuel + 1, .ident _, st, st', h | fuel + 1, .iconst _, st, st', h => by
    simp only [walk] at h
    exact sameFrames_walkLeaf typeOf resolve encoding W (walk_frames fuel) h

theorem cacheMiss_of_cache_nil (expr : Expr) {st : Compiler} (hc : st.cache = []) :
    st.cacheMiss typeOf expr = (true, st) := by
  simp [Compiler.cacheMiss, hc]

/-! ### Walks from an empty cache -/

theorem postorder_addStack {f : List ADD → Option (List ADD)} {st st' : Compiler}
    (h : postorder f st = some st') : ∃ s, st' = { st with addStack := s } := by
  obtain ⟨s, -, rfl⟩ := Option.map_eq_some'.1 h
  exact ⟨s, rfl⟩

/-- From an empty cache a leaf changes only `f_add_stack`, or recurses into a define. -/
theorem walkLeaf_cache_nil {recurse : Expr → Compiler → Option Compiler}
    (hrec : ∀ body st st', recurse body st = some st' → st.cache = [] →
      ∃ s, st' = { st with addStack := s }) {expr : Expr} {st st' : Compiler} (hc : st.cache = [])
    (h : walkLeaf typeOf resolve encoding W recurse expr st = some st') :
    ∃ s, st' = { st with addStack := s } := by
  simp only [walkLeaf, cacheMiss_of_cache_nil typeOf expr hc, if_true, leafMiss] at h
  -- every branch pushes onto the stack, recurses into a define, or fails
  repeat' split at h
  all_goals first
    | (cases h; exact ⟨_, rfl⟩)
    | (obtain ⟨_, -, rfl⟩ := Option.map_eq_some'.1 h; exact ⟨_, rfl⟩)
    | exact hrec _ _ _ h hc | cases h

/-- **From an empty cache the walk changes only `f_add_stack`.**  `BECompiler`
defines no node hooks and its leaves push no type, so a walk that starts with
an empty cache and returns leaves the type, context and time stacks, the
descriptor tables and the cache as it found them. -/
theorem walk_cache_nil : ∀ (fuel : Nat) (expr : Expr) (st st' : Compiler),
    walk typeOf resolve encoding W fuel expr st = some st' → st.cache = [] →
      ∃ s, st' = { st with addStack := s }
  | 0, _, _, _, h, _ => nomatch h
  | fuel + 1, .unary op lhs, st, st', h, hc => by
    cases op with
    | next =>
      simp only [walk, Option.bind_eq_bind, Option.bind_eq_some] at h
      obtain ⟨st₂, ⟨st₁, h₁, h₂⟩, h₃⟩ := h
      obtain ⟨t, -, rfl⟩ := Option.map_eq_some'.1 h₁
      obtain ⟨s, rfl⟩ := walk_cache_nil fuel lhs _ _ h₂ hc
      cases h₃
      exact ⟨s, rfl⟩
    | neg | not | prev =>
      simp only [walk, cacheMiss_of_cache_nil typeOf _ hc, if_true, Option.bind_eq_bind,
        Option.bind_eq_some] at h
      obtain ⟨st₁, h₁, h₂⟩ := h
      obtain ⟨s, rfl⟩ := walk_cache_nil fuel lhs _ _ h₁ hc
      obtain ⟨s', rfl⟩ := postorder_addStack h₂
      exact ⟨s', rfl⟩
  | fuel + 1, .binary op lhs rhs, st, st', h, hc => by
    simp only [walk, cacheMiss_of_cache_nil typeOf _ hc, if_true, Option.bind_eq_bind,
      Option.bind_eq_some] at h
    obtain ⟨st₂, ⟨st₁, h₁, h₂⟩, h₃⟩ := h
    obtain ⟨s₁, rfl⟩ := walk_cache_nil fuel lhs _ _ h₁ hc
    obtain ⟨s₂, rfl⟩ := walk_cache_nil fuel rhs _ _ h₂ hc
    obtain ⟨s, rfl⟩ := postorder_addStack h₃
    exact ⟨s, rfl⟩
  | fuel + 1, .ident _, st, st', h, hc | fuel + 1, .iconst _, st, st', h, hc => by
    simp only [walk] at h
    exact walkLeaf_cache_nil typeOf resolve encoding W (walk_cache_nil fuel) hc h

/-- **`process` never returns from an empty cache.**  Nothing in the walk
pushes onto `f_type_stack`, which `process` clears, so its assertion
`1 == f_type_stack.size()` fails for every body, context and time unless a
cache hit pushes the body's type. -/
theorem process_cache_nil (fuel : Nat) (ctx body : Expr) (time : Int) {st : Compiler}
    (hc : st.cache = []) : process typeOf resolve encoding W fuel ctx body time st = none := by
  cases h : walk typeOf resolve encoding W fuel body
      { st with addStack := [], typeStack := [], ctxStack := [ctx], timeStack := [time] } with
  | none => simp [process, h]
  | some st' =>
    obtain ⟨s, rfl⟩ := walk_cache_nil typeOf resolve encoding W fuel body _ _ h hc
    simp [process, h]

/-- Compiling a boolean variable `x` from the start state: the walk pushes its
bit, and `process` still fails. -/
theorem process_cache_nil_start :
    (walk (fun _ _ => .boolean) (fun _ _ => some (.variable .boolean)) (fun _ => [bitVar 0]) 1 1 (.ident "x")
        (Compiler.start (.ident "main") 0)).map Compiler.addStack = some [bitVar 0] ∧
      (Compiler.start (.ident "main") 0).cache = [] ∧
      process (fun _ _ => .boolean) (fun _ _ => some (.variable .boolean)) (fun _ => [bitVar 0]) 1 1
        (.ident "main") (.ident "x") 0 (Compiler.start (.ident "main") 0) = none :=
  ⟨by decide, rfl, process_cache_nil (fun _ _ => .boolean) (fun _ _ => some (.variable .boolean))
    (fun _ => [bitVar 0]) 1 1 (.ident "main") (.ident "x") 0 rfl⟩

section Boolean

variable {typeOf}

/-- A boolean `ITE` pops its branches and its condition and pushes one DD. -/
theorem walkItePostorder_boolean {ctx t e : Expr} (ht : typeOf t ctx = .boolean)
    (he : typeOf e ctx = .boolean) (c x y : ADD) (s : List ADD) :
    walkItePostorder typeOf ctx t e (y :: x :: c :: s) = some (c.ite x y :: s) := by
  simp [walkItePostorder, isIte, ht, he, SmvType.isBoolean, pop]

/-- A boolean `!` replaces the top DD. -/
theorem walkUnaryPostorder_not {ctx lhs : Expr} (hl : typeOf lhs ctx = .boolean) (a : ADD) (s : List ADD) :
    walkUnaryPostorder typeOf ctx .not lhs (a :: s) = some (a.cmpl :: s) := by
  simp [walkUnaryPostorder, walkNotPostorder, isUnaryBoolean, isUnaryLogical, hl, SmvType.isBoolean, pop]

end Boolean

end Walk

/-! ### A shift between siblings -/

/-- The encodings of two boolean variables, one bit each: `x` is bit `1`, every
other variable bit `2`. -/
def shiftEncoding (key : FQExpr) : List ADD :=
  if key.expr = .ident "x" then [bitVar 1] else [bitVar 2]

/-- Walking `x << y`, `x` and `y` boolean variables, from a state whose stack
holds one DD `b₀`, as a sibling leaves it: the monolithic branch pushes
`x.BWCmpl().BWXOr(y)`, and the second pop of `walk_lshift_postorder` takes it
with `b₀`.  The walk keeps the context and time stacks but leaves one DD, not
`b₀` and one new DD. -/
theorem walk_lshift_boolean :
    (walk (fun _ _ => .boolean) (fun _ _ => some (.variable .boolean)) shiftEncoding 1 2
        (.binary .lshift (.ident "x") (.ident "y"))
        { Compiler.start (.ident "main") 0 with addStack := [bitVar 0] }).map
      (fun st => (st.addStack, st.ctxStack, st.timeStack)) =
      some ([(bitVar 0).lShift ((bitVar 1).bwCmpl.bwXor (bitVar 2))], [.ident "main"], [0]) := by
  decide

end BECompiler

end GnuSmv
