import GnuSmv.Compiler.Walker

/-!
# The expression evaluator

`Evaluator::process(witness, ctx, body, time)` (`src/expr/expr_eval.cc`) walks
`body` as the compiler does, on a stack of values instead of DDs: a numeric
leaf pushes itself, a variable the value the witness holds for its timed key,
a define its body's values, and each postorder pops its operands and pushes
the value of the operator.  `next` and `prev` move the time up and down around
their operand.

`value_t` and the macros `POP_VALUE`/`PUSH_VALUE` are not under `src/`:
`value_t` is read as a 64-bit two's-complement integer, as the `int64_t` of
the language's type aliases.  Sums, differences and shifts wrap modulo
`2 ^ 64`; `/` and `%` truncate as C++'s do; what C++ leaves undefined (a
divisor `0`, a quotient out of range, a shift count outside `[0, 64)`) fails.
`!` is the logical negation and a comparison pushes `0` or `1`.  The witness's
`has_value`/`value` are a partial function from timed keys to values.  The
generic walker is modelled from the spec as in `BECompiler.walk`.  The
evaluator's `cache_miss` (`src/main.cc`) looks its key up in `f_map`, into
which nothing inserts, so every lookup misses and the walk has no cache.
`integer_neg` and `algebraic_neg` are not under `src/`: the model does not
evaluate a negation.

## Main definitions

* `Evaluator.binaryPostorder`, `Evaluator.unaryPostorder` — the postorders.
* `Evaluator.walk`, `Evaluator.process`.
* `Evaluator.values` — the values a walk pushes, read as a recursive evaluation.

## Main results

* `Evaluator.walk_values` — a walk pushes `values` on whatever stack it starts
  from, and leaves the context and time stacks as they were.
* `Evaluator.process_eq` — `process` returns the single value of the body.
* `Evaluator.walk_frames` — every walk leaves the context and time stacks as it found them.
* `Evaluator.process_congr` — `process` reads the witness only at times less
  than `fuel` steps away from its own.
-/

namespace GnuSmv

namespace Evaluator

/-- The evaluator's working state. -/
structure State where
  /-- `f_expr_stack`, as values, top first. -/
  exprStack : List Int
  /-- `f_ctx_stack`, top first. -/
  ctxStack : List Expr
  /-- `f_time_stack`, top first. -/
  timeStack : List Int
  deriving DecidableEq, Repr

/-! ### Postorders -/

/-- `! v`: `1` for `0`, `0` otherwise. -/
def logicalNot (v : Int) : Int := ADD.ofBool (v == 0)

/-- `value_t` arithmetic: a 64-bit two's-complement integer, a result wrapping
modulo `2 ^ 64` into `[-2 ^ 63, 2 ^ 63)`. -/
def wrap (v : Int) : Int := v.bmod (2 ^ 64)

/-- A `value_t` quotient or remainder is undefined for a divisor `0` and for
`-2 ^ 63` divided by `-1`, whose quotient is not a `value_t`. -/
def divDefined (l r : Int) : Bool := r ≠ 0 ∧ ¬(l = -2 ^ 63 ∧ r = -1)

/-- The value `value_t res = ...` of the binary postorders that pop `rhs`, then
`lhs`, and push one value.  What C++ leaves undefined fails: a division or
remainder `divDefined` rejects, and a shift by a count outside `[0, 64)`. -/
def binaryValue : BinaryOp → Int → Int → Option Int
  | .add, l, r => some (wrap (l + r))
  | .sub, l, r => some (wrap (l - r))
  | .div, l, r | .mul, l, r => if divDefined l r then some (l.tdiv r) else none
  | .mod, l, r => if divDefined l r then some (l.tmod r) else none
  | .and, l, r => some (Int.land l r)
  | .or, l, r => some (Int.lor l r)
  | .xor, l, r => some (Int.xor l r)
  | .xnor, l, r | .iff, l, r => some (Int.land (Int.lor (logicalNot l) r) (Int.lor (logicalNot r) l))
  | .implies, l, r => some (Int.lor (logicalNot l) r)
  | .lshift, l, r | .rshift, l, r => if 0 ≤ r ∧ r < 64 then some (wrap (l * 2 ^ r.toNat)) else none
  | .eq, l, r => some (ADD.ofBool (l == r))
  | .ne, l, r => some (ADD.ofBool (l != r))
  | .gt, l, r => some (ADD.ofBool (decide (l > r)))
  | .ge, l, r => some (ADD.ofBool (decide (l ≥ r)))
  | .lt, l, r => some (ADD.ofBool (decide (l < r)))
  | .le, l, r => some (ADD.ofBool (decide (l ≤ r)))
  | .ite, _, _ | .cond, _, _ | .dot, _, _ => none

/-- The pattern of most postorders: `POP_VALUE(rhs); POP_VALUE(lhs);` then push
`g lhs rhs`, failing where `g` does. -/
def popPush (g : Int → Int → Option Int) : List Int → Option (List Int)
  | rhs :: lhs :: s => (g lhs rhs).map (· :: s)
  | _ => none

/-- `walk_ite_postorder`: pop `rhs`, `lhs` and `cnd`, push `cnd ? lhs : rhs`. -/
def walkItePostorder : List Int → Option (List Int)
  | rhs :: lhs :: cnd :: s => some ((if cnd ≠ 0 then lhs else rhs) :: s)
  | _ => none

/-- The binary postorders on the value stack: `walk_cond_postorder` and
`walk_dot_postorder` do nothing, the others pop their operands and push one
value.  Popping an empty stack fails. -/
def binaryPostorder (op : BinaryOp) (s : List Int) : Option (List Int) :=
  match op with
  | .ite => walkItePostorder s
  | .cond | .dot => some s
  | op => popPush (binaryValue op) s

/-- The unary postorders on the value stack: `walk_not_postorder` pushes `! lhs`;
the negation's helpers are not under `src/`. -/
def unaryPostorder : UnaryOp → List Int → Option (List Int)
  | .not, v :: s => some (logicalNot v :: s)
  | _, _ => none

/-- An operator with a value pops its two operands and pushes the value. -/
theorem binaryPostorder_of_binaryValue {op : BinaryOp} {l r v : Int} (h : binaryValue op l r = some v)
    (s : List Int) : binaryPostorder op (r :: l :: s) = some (v :: s) := by
  cases op <;> simp_all [binaryValue, binaryPostorder, popPush]

theorem popPush_append {g : Int → Int → Option Int} {xs ys : List Int} (h : popPush g xs = some ys)
    (s : List Int) : popPush g (xs ++ s) = some (ys ++ s) := by
  match xs, h with
  | _ :: _ :: _, h =>
    obtain ⟨v, hv, rfl⟩ := Option.map_eq_some'.1 h
    simp [popPush, hv]

theorem walkItePostorder_append {xs ys : List Int} (h : walkItePostorder xs = some ys)
    (s : List Int) : walkItePostorder (xs ++ s) = some (ys ++ s) := by
  match xs, h with
  | _ :: _ :: _ :: _, h => cases h; rfl

/-- A postorder runs on its operands only and keeps what lies below them. -/
theorem binaryPostorder_append {op : BinaryOp} {xs ys : List Int} (h : binaryPostorder op xs = some ys)
    (s : List Int) : binaryPostorder op (xs ++ s) = some (ys ++ s) := by
  cases op
  case ite => exact walkItePostorder_append h s
  case cond | dot => cases h; rfl
  all_goals exact popPush_append h s

theorem unaryPostorder_append {op : UnaryOp} {xs ys : List Int} (h : unaryPostorder op xs = some ys)
    (s : List Int) : unaryPostorder op (xs ++ s) = some (ys ++ s) := by
  match op, xs, h with
  | .not, _ :: _, h => cases h; rfl

/-! ### The walk -/

/-- The time preorders: push `f curr_time`. -/
def pushTime (f : Int → Int) (st : State) : Option State :=
  st.timeStack.head?.map fun t => { st with timeStack := f t :: st.timeStack }

/-- `walk_next_preorder`: push `curr_time + 1`. -/
def walkNextPreorder : State → Option State := pushTime (· + 1)

/-- `walk_prev_preorder`: push `curr_time - 1`. -/
def walkPrevPreorder : State → Option State := pushTime (· - 1)

/-- `walk_next_postorder` and `walk_prev_postorder`: pop the time. -/
def popTime (st : State) : Option State :=
  match st.timeStack with
  | _ :: ts => some { st with timeStack := ts }
  | [] => none

/-- Run a postorder on `f_expr_stack`. -/
def postorder (f : List Int → Option (List Int)) (st : State) : Option State :=
  (f st.exprStack).map fun s => { st with exprStack := s }

section Walk

variable (resolve : Expr → Expr → Option BECompiler.Symbol) (witness : FQExpr → Option Int)

/-- `walk_leaf(expr)`: a numeric constant pushes itself; a variable the
witness's value at `(ctx, expr, time)`, failing without one; a define its
body, walked by `recurse`; any other symbol fails. -/
def walkLeaf (recurse : Expr → State → Option State) (expr : Expr) (st : State) : Option State :=
  match expr with
  | .iconst value => some { st with exprStack := value :: st.exprStack }
  | _ =>
    let ctx := st.ctxStack.headD (.ident "")
    match resolve ctx expr with
    | some (.variable _) =>
      (witness ⟨ctx, expr, st.timeStack.headD 0⟩).map fun v => { st with exprStack := v :: st.exprStack }
    | some (.define body) => recurse body st
    | _ => none

/-- Modelled from the spec: the expression walker, as `BECompiler.walk`
without a cache.  Each level spends one unit of `fuel`. -/
def walk : Nat → Expr → State → Option State
  | 0, _, _ => none
  | fuel + 1, .unary op e, st =>
    match op with
    | .next => walkNextPreorder st >>= walk fuel e >>= popTime
    | .prev => walkPrevPreorder st >>= walk fuel e >>= popTime
    | op => walk fuel e st >>= postorder (unaryPostorder op)
  | fuel + 1, .binary op l r, st => walk fuel l st >>= walk fuel r >>= postorder (binaryPostorder op)
  | fuel + 1, expr, st => walkLeaf resolve witness (walk fuel) expr st

/-- `Evaluator::process(witness, ctx, body, time)`: walk `body` from empty
stacks but for the context and the time, check that each stack holds exactly
one entry, and return the value. -/
def process (fuel : Nat) (ctx body : Expr) (time : Int) : Option Int := do
  let st ← walk resolve witness fuel body ⟨[], [ctx], [time]⟩
  if st.exprStack.length = 1 ∧ st.ctxStack.length = 1 ∧ st.timeStack.length = 1 then
    st.exprStack.head?
  else none

/-- The values the walk of `expr` pushes, top first, at `time` in context
`ctx`: the postorders read as a recursive evaluation, spending `fuel` as
`walk` does. -/
def values (ctx : Expr) : Nat → Expr → Int → Option (List Int)
  | 0, _, _ => none
  | fuel + 1, .unary op e, time =>
    match op with
    | .next => values ctx fuel e (time + 1)
    | .prev => values ctx fuel e (time - 1)
    | op => values ctx fuel e time >>= unaryPostorder op
  | fuel + 1, .binary op l r, time => do
    let vl ← values ctx fuel l time
    let vr ← values ctx fuel r time
    binaryPostorder op (vr ++ vl)
  | _ + 1, .iconst value, _ => some [value]
  | fuel + 1, .ident name, time =>
    match resolve ctx (.ident name) with
    | some (.variable _) => (witness ⟨ctx, .ident name, time⟩).map fun v => [v]
    | some (.define body) => values ctx fuel body time
    | _ => none

/-- **The walk pushes `values`.**  From every state whose context and time are
`ctx` and `time`, the walk of `expr` pushes the values `values` gives it on top
of the stack it starts from, and leaves the context and time stacks as it
found them. -/
theorem walk_values (ctx : Expr) : ∀ (fuel : Nat) (expr : Expr) (time : Int) (vs : List Int)
    (st : State), values resolve witness ctx fuel expr time = some vs →
    st.ctxStack.head? = some ctx → st.timeStack.head? = some time →
    walk resolve witness fuel expr st = some { st with exprStack := vs ++ st.exprStack }
  | 0, _, _, _, _, h, _, _ => by simp [values] at h
  | fuel + 1, .unary op e, time, vs, st, h, hc, ht => by
    cases op with
    | next =>
      simp only [values] at h
      simp [walk, walkNextPreorder, pushTime, ht, popTime,
        walk_values ctx fuel e (time + 1) vs { st with timeStack := (time + 1) :: st.timeStack } h hc rfl]
    | prev =>
      simp only [values] at h
      simp [walk, walkPrevPreorder, pushTime, ht, popTime,
        walk_values ctx fuel e (time - 1) vs { st with timeStack := (time - 1) :: st.timeStack } h hc rfl]
    | not | neg =>
      simp only [values, Option.bind_eq_bind, Option.bind_eq_some] at h
      obtain ⟨vs', h₁, h₂⟩ := h
      simp [walk, walk_values ctx fuel e time vs' st h₁ hc ht, postorder, unaryPostorder_append h₂]
  | fuel + 1, .binary op l r, time, vs, st, h, hc, ht => by
    simp only [values, Option.bind_eq_bind, Option.bind_eq_some] at h
    obtain ⟨vl, hl, vr, hr, hp⟩ := h
    have hwl := walk_values ctx fuel l time vl st hl hc ht
    have hwr := walk_values ctx fuel r time vr { st with exprStack := vl ++ st.exprStack } hr hc ht
    have hpost := binaryPostorder_append hp st.exprStack
    rw [List.append_assoc] at hpost
    simp [walk, hwl, hwr, postorder, hpost]
  | fuel + 1, .iconst value, time, vs, st, h, hc, ht => by
    simp only [values, Option.some.injEq] at h
    subst h
    rfl
  | fuel + 1, .ident name, time, vs, st, h, hc, ht => by
    have hctx : st.ctxStack.headD (.ident "") = ctx := by simp [List.headD_eq_head?_getD, hc]
    have htime : st.timeStack.headD 0 = time := by simp [List.headD_eq_head?_getD, ht]
    simp only [values] at h
    simp only [walk, walkLeaf, hctx, htime]
    split at h
    · obtain ⟨v, hv, rfl⟩ := Option.map_eq_some'.mp h
      simp [*]
    · simp [*, walk_values ctx fuel _ time vs st h hc ht]
    · simp_all

/-- **`process` returns the body's value.**  When the walk of `body` at `time`
in `ctx` pushes exactly one value, `process` returns it. -/
theorem process_eq {fuel : Nat} {ctx body : Expr} {time v : Int}
    (h : values resolve witness ctx fuel body time = some [v]) :
    process resolve witness fuel ctx body time = some v := by
  simp [process, walk_values resolve witness ctx fuel body time [v] ⟨[], [ctx], [time]⟩ h rfl rfl]

/-- A symbol table where every identifier is a variable of width `2`. -/
def resolveVariables (_ _ : Expr) : Option BECompiler.Symbol := some (.variable (.unsignedInt 2))

/-- A witness with `x = 8`, `y = 2` and `z = 255` at every time. -/
def witnessXYZ (key : FQExpr) : Option Int :=
  if key.expr = .ident "x" then some 8
  else if key.expr = .ident "y" then some 2
  else if key.expr = .ident "z" then some 255
  else none

/-- `x + y` with `x = 8` and `y = 2` evaluates to `10`. -/
example :
    process resolveVariables witnessXYZ 2 (.ident "main") (.binary .add (.ident "x") (.ident "y")) 0 =
      some 10 :=
  process_eq resolveVariables witnessXYZ (by decide)

theorem postorder_frames {f : List Int → Option (List Int)} {st st' : State}
    (h : postorder f st = some st') : st'.ctxStack = st.ctxStack ∧ st'.timeStack = st.timeStack := by
  obtain ⟨s, -, rfl⟩ := Option.map_eq_some'.1 h
  exact ⟨rfl, rfl⟩

/-- The walk leaves the context and time stacks as it found them. -/
theorem walk_frames : ∀ (fuel : Nat) (expr : Expr) (st st' : State),
    walk resolve witness fuel expr st = some st' → st'.ctxStack = st.ctxStack ∧ st'.timeStack = st.timeStack
  | 0, _, _, _, h => nomatch h
  | fuel + 1, .unary op e, st, st', h => by
    cases op with
    | next | prev =>
      simp only [walk, walkNextPreorder, walkPrevPreorder, pushTime, Option.bind_eq_bind,
        Option.bind_eq_some] at h
      obtain ⟨st₂, ⟨st₁, h₁, h₂⟩, h₃⟩ := h
      obtain ⟨t, -, rfl⟩ := Option.map_eq_some'.1 h₁
      obtain ⟨hc, ht⟩ := walk_frames fuel e _ _ h₂
      simp only [popTime, ht] at h₃
      cases h₃
      exact ⟨hc, rfl⟩
    | neg | not =>
      simp only [walk, Option.bind_eq_bind, Option.bind_eq_some] at h
      obtain ⟨st₁, h₁, h₂⟩ := h
      obtain ⟨hc, ht⟩ := walk_frames fuel e _ _ h₁
      obtain ⟨hc', ht'⟩ := postorder_frames h₂
      exact ⟨hc'.trans hc, ht'.trans ht⟩
  | fuel + 1, .binary op l r, st, st', h => by
    simp only [walk, Option.bind_eq_bind, Option.bind_eq_some] at h
    obtain ⟨st₂, ⟨st₁, h₁, h₂⟩, h₃⟩ := h
    obtain ⟨hc₁, ht₁⟩ := walk_frames fuel l _ _ h₁
    obtain ⟨hc₂, ht₂⟩ := walk_frames fuel r _ _ h₂
    obtain ⟨hc₃, ht₃⟩ := postorder_frames h₃
    exact ⟨hc₃.trans (hc₂.trans hc₁), ht₃.trans (ht₂.trans ht₁)⟩
  | fuel + 1, .ident _, st, st', h | fuel + 1, .iconst _, st, st', h => by
    simp only [walk, walkLeaf] at h
    -- a constant or a variable pushes a value; a define is walked
    repeat' split at h
    all_goals first | (obtain ⟨v, -, rfl⟩ := Option.map_eq_some'.1 h; exact ⟨rfl, rfl⟩) |
      (cases h; exact ⟨rfl, rfl⟩) | exact walk_frames fuel _ _ _ h | cases h

end Walk

/-! ### The frames a walk reads -/

section Locality

variable (resolve : Expr → Expr → Option BECompiler.Symbol) {w w' : FQExpr → Option Int}

/-- **The evaluator reads the witness only near the current time.**  Two
witnesses that agree on every key less than `fuel` steps away from the
current time give the same walk: `next` and `prev` move the time by one step
and spend one unit of fuel, and a leaf reads the current time only. -/
theorem walk_congr : ∀ (fuel : Nat) (expr : Expr) (st : State),
    (∀ key : FQExpr, st.timeStack.headD 0 - fuel < key.time → key.time < st.timeStack.headD 0 + fuel →
      w key = w' key) →
    walk resolve w fuel expr st = walk resolve w' fuel expr st
  | 0, _, _, _ => rfl
  | fuel + 1, .unary op e, st, h => by
    -- a time one step away costs one unit of fuel
    have step : ∀ f : Int → Int, (∀ t, t - 1 ≤ f t ∧ f t ≤ t + 1) →
        pushTime f st >>= walk resolve w fuel e = pushTime f st >>= walk resolve w' fuel e := by
      intro f hf
      cases ht : st.timeStack with
      | nil => simp [pushTime, ht]
      | cons t ts =>
        simp only [pushTime, ht, List.head?_cons, Option.map_some', Option.some_bind]
        have := hf t
        refine walk_congr fuel e _ fun key h₁ h₂ => h key ?_ ?_ <;>
          simp only [List.headD_cons, ht] at h₁ h₂ ⊢ <;> omega
    cases op with
    | next => simp only [walk, walkNextPreorder, step (· + 1) fun t => by dsimp only; omega]
    | prev => simp only [walk, walkPrevPreorder, step (· - 1) fun t => by dsimp only; omega]
    | neg | not =>
      simp only [walk, walk_congr fuel e st fun key h₁ h₂ => h key (by omega) (by omega)]
  | fuel + 1, .binary op l r, st, h => by
    simp only [walk, walk_congr fuel l st fun key h₁ h₂ => h key (by omega) (by omega)]
    congr 1
    refine Option.bind_congr fun st₁ h₁ => walk_congr fuel r st₁ fun key h₂ h₃ => ?_
    rw [(walk_frames resolve w' fuel l st st₁ h₁).2] at h₂ h₃
    exact h key (by omega) (by omega)
  | fuel + 1, .ident _, st, h | fuel + 1, .iconst _, st, h => by
    simp only [walk, walkLeaf]
    -- a variable reads the current time; a define is walked with one unit less
    repeat' split
    all_goals first
      | rfl
      | rw [h _ (by simp) (by simp)]
      | exact walk_congr fuel _ st fun key h₁ h₂ => h key (by omega) (by omega)

/-- **`process` reads the witness only within `fuel` steps of its time.**  Two
witnesses that agree on every key less than `fuel` steps away from `time`
give the same result. -/
theorem process_congr {fuel : Nat} {ctx body : Expr} {time : Int}
    (h : ∀ key : FQExpr, time - fuel < key.time → key.time < time + fuel → w key = w' key) :
    process resolve w fuel ctx body time = process resolve w' fuel ctx body time := by
  simp only [process, walk_congr resolve fuel body ⟨[], [ctx], [time]⟩ (by simpa using h)]

end Locality

/-- Forgetting every value three or more steps away from time `0` does not
change `x + next y` evaluated at time `0` with fuel `3`. -/
theorem process_congr_near :
    (∀ key : FQExpr, (0 : Int) - (3 : Nat) < key.time → key.time < (0 : Int) + (3 : Nat) →
      witnessXYZ key = if -3 < key.time ∧ key.time < 3 then witnessXYZ key else none) ∧
    process resolveVariables witnessXYZ 3 (.ident "main")
        (.binary .add (.ident "x") (.unary .next (.ident "y"))) 0 =
      process resolveVariables (fun key => if -3 < key.time ∧ key.time < 3 then witnessXYZ key else none) 3
        (.ident "main") (.binary .add (.ident "x") (.unary .next (.ident "y"))) 0 :=
  ⟨fun _ h₁ h₂ => by rw [if_pos ⟨by omega, by omega⟩],
    process_congr resolveVariables fun _ h₁ h₂ => by rw [if_pos ⟨by omega, by omega⟩]⟩

/-- With `x = 8`, `y = 2`, `z = 255`: `x * y` evaluates to `x / y = 4`, not
`16`; `x >> y` to `x << y = 32`, not `2`; and `z + z` to `510`, not its
residue `254` modulo `16 ^ 2`. -/
theorem process_mul_rshift_add :
    process resolveVariables witnessXYZ 2 (.ident "main") (.binary .mul (.ident "x") (.ident "y")) 0 =
        some 4 ∧ (8 * 2 : Int) = 16 ∧
      process resolveVariables witnessXYZ 2 (.ident "main") (.binary .rshift (.ident "x") (.ident "y")) 0 =
        some 32 ∧ (8 : Int) >>> 2 = 2 ∧
      process resolveVariables witnessXYZ 2 (.ident "main") (.binary .add (.ident "z") (.ident "z")) 0 =
        some 510 ∧ (255 + 255 : Int) % 16 ^ 2 = 254 := by
  decide

end Evaluator

end GnuSmv
