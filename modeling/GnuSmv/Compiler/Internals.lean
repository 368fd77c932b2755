import GnuSmv.Expr.Expr
import GnuSmv.Dd.Add

/-!
# The compiler's working state

`src/model/compiler/internals.cc` holds the services every compilation walk
shares: the working stacks (`f_add_stack`, `f_type_stack`, `f_ctx_stack`,
`f_time_stack`), the side tables of microcode and multiplexer descriptors,
the memoization cache with its two hooks `post_node_hook` and `cache_miss`,
`push_dds`, which pushes a leaf's encoding, and `post_process_muxes`, which
conjoins the activation constraints of every MUX chain.  The shape predicates
of the microcode descriptors come from `reach.hh`.

Stacks are listed top first: `push_back(x)` is `x :: s`.  The unordered maps
(`MuxMap`, `CompilationMap`) are association lists; their `insert` adds a key
only when it is absent, as `std::unordered_map::insert` does.  The type of a
subexpression, `f_owner.type(expr, ctx)`, comes from the model manager and is a
parameter `typeOf`.  Expressions have no type-constructor nodes, so
`post_node_hook`'s `is_type` exit is not modelled; `f_toplevel_map` and the
temporary-encoding tables are read by nothing modelled here.

## Main definitions

* `MicroDescriptor`, `MuxDescriptor`, `MuxMap`, `CompilationUnit`, `Compiler`.
* `MicroDescriptor.isRelational`, `MicroDescriptor.isBinary`,
  `MicroDescriptor.isUnary` — the shape predicates of `reach.hh`.
* `Compiler.pushDds`, `Compiler.registerMicrodescriptor`, `Compiler.registerMuxdescriptor`,
  `Compiler.postProcessMuxes`, `Compiler.postNodeHook`, `Compiler.cacheMiss`.

## Main results

* `MicroDescriptor.shape_predicates` — the shape predicates tell the families
  apart at every width but `1`.

* `postProcessMuxes_aux` — under every assignment satisfying the pushed
  constraints, a chain's first visited `aux` is its condition and every later
  `aux` is `¬ aux_prev ∧ cnd`: the running value is the previous activation only.
* `lookup_postNodeHook` — `post_node_hook` caches the whole descriptor tables
  of the moment with the top DDs, so that `cacheMiss_replays_sibling`: a hit
  replays a sibling's descriptors too.
-/

namespace GnuSmv

/-- The operator tag of a descriptor (`ExprType`). -/
abbrev ExprType := UnaryOp ⊕ BinaryOp

/-- `OpTriple`: signedness, operator and width. -/
structure OpTriple where
  /-- Whether the operation is signed. -/
  signed : Bool
  /-- The operator. -/
  op : ExprType
  /-- The width in digits. -/
  width : Nat
  deriving DecidableEq, Repr

/-- A `MicroDescriptor`: one deferred algebraic operation `z = x op y`. -/
structure MicroDescriptor where
  /-- The operation. -/
  triple : OpTriple
  /-- The result DDs. -/
  z : List ADD
  /-- The first operand's DDs. -/
  x : List ADD
  /-- The second operand's DDs, empty for a unary operation. -/
  y : List ADD
  deriving DecidableEq, Repr

namespace MicroDescriptor

/-- `is_relational()`: a single result DD. -/
def isRelational (md : MicroDescriptor) : Bool := md.z.length == 1

/-- `is_binary()`: the result and both operands of one length. -/
def isBinary (md : MicroDescriptor) : Bool :=
  md.z.length == md.x.length && md.z.length == md.y.length

/-- `is_unary()`: no second operand. -/
def isUnary (md : MicroDescriptor) : Bool := md.y.length == 0

/-- **The shape predicates at width `W ≥ 1`.**  A binary descriptor (`z`, `x`,
`y` of `W` DDs) satisfies `is_binary()` and not `is_unary()`; a relational one
(`|z| = 1`, `|x| = |y| = W`) satisfies `is_relational()` and not `is_unary()`;
a unary one (`|z| = |x| = W`, `y` empty) satisfies `is_unary()` and not
`is_binary()`.  The third predicate of each family holds exactly when `W = 1`. -/
theorem shape_predicates (md : MicroDescriptor) {W : Nat} (hW : 1 ≤ W) :
    (md.z.length = W → md.x.length = W → md.y.length = W →
      md.isBinary = true ∧ md.isUnary = false ∧ (md.isRelational = true ↔ W = 1)) ∧
    (md.z.length = 1 → md.x.length = W → md.y.length = W →
      md.isRelational = true ∧ md.isUnary = false ∧ (md.isBinary = true ↔ W = 1)) ∧
    (md.z.length = W → md.x.length = W → md.y = [] →
      md.isUnary = true ∧ md.isBinary = false ∧ (md.isRelational = true ↔ W = 1)) := by
  refine ⟨fun hz hx hy => ?_, fun hz hx hy => ?_, fun hz hx hy => ?_⟩ <;>
    simp only [isRelational, isBinary, isUnary, hz, hx, hy, List.length_nil] <;>
    simp <;> omega

/-- A binary descriptor of width `2`: `is_binary()`, neither of the others. -/
theorem shape_predicates_add_two :
    let md : MicroDescriptor := ⟨⟨false, .inr .add, 2⟩, [.const 0, .const 0], [.const 0, .const 0],
      [.const 0, .const 0]⟩
    md.isBinary = true ∧ md.isUnary = false ∧ (md.isRelational = true ↔ 2 = 1) :=
  (shape_predicates _ (by decide : 1 ≤ 2)).1 rfl rfl rfl

/-- A binary `+` descriptor of width `1` satisfies `is_relational()` as well as
`is_binary()`. -/
theorem isRelational_add_one :
    let md : MicroDescriptor := ⟨⟨false, .inr .add, 1⟩, [.const 0], [.const 0], [.const 0]⟩
    md.isBinary = true ∧ md.isRelational = true := by
  decide

end MicroDescriptor

/-- A `MuxDescriptor`: one branch of an if-then-else chain. -/
structure MuxDescriptor where
  /-- The width in digits. -/
  width : Nat
  /-- The result DDs. -/
  z : List ADD
  /-- The branch condition. -/
  cnd : ADD
  /-- The fresh boolean witnessing the branch's activation. -/
  aux : ADD
  /-- The then-branch DDs. -/
  x : List ADD
  /-- The else-branch DDs. -/
  y : List ADD
  deriving DecidableEq, Repr

/-- `MuxMap`: the MUX chain of each toplevel expression. -/
abbrev MuxMap := List (Expr × List MuxDescriptor)

namespace MuxMap

/-- `insert(k, v)`: adds the entry only when `k` has none. -/
def insert (m : MuxMap) (k : Expr) (v : List MuxDescriptor) : MuxMap :=
  if (m.lookup k).isSome then m else m ++ [(k, v)]

/-- `find(k) -> second.push_back(md)`. -/
def pushBack (m : MuxMap) (k : Expr) (md : MuxDescriptor) : MuxMap :=
  m.map fun p => if p.1 = k then (p.1, p.2 ++ [md]) else p

end MuxMap

/-- A `CompilationUnit`: a cached result with its side tables. -/
structure CompilationUnit where
  /-- The result DDs. -/
  dds : List ADD
  /-- The microcode descriptors. -/
  microDescriptors : List MicroDescriptor
  /-- The MUX chains. -/
  muxMap : MuxMap
  deriving DecidableEq, Repr

/-- The compiler's working state. -/
structure Compiler where
  /-- `f_add_stack`, top first. -/
  addStack : List ADD
  /-- `f_type_stack`, top first. -/
  typeStack : List SmvType
  /-- `f_ctx_stack`, top first. -/
  ctxStack : List Expr
  /-- `f_time_stack`, top first. -/
  timeStack : List Int
  /-- `f_micro_descriptors`, in registration order. -/
  microDescriptors : List MicroDescriptor
  /-- `f_mux_map`. -/
  muxMap : MuxMap
  /-- `f_cache`, the `CompilationMap`. -/
  cache : List (FQExpr × CompilationUnit)
  /-- `f_preprocess`: no caching while set. -/
  preprocess : Bool
  deriving DecidableEq, Repr

namespace Compiler

/-- The state `process(ctx, body, time)` walks from: empty stacks and tables but
for the context and the time. -/
def start (ctx : Expr) (time : Int) : Compiler := ⟨[], [], [ctx], [time], [], [], [], false⟩

/-- `PUSH_DD(dd)` with the type of the result: what a postorder leaves for its parent. -/
def pushResult (dd : ADD) (ty : SmvType) (st : Compiler) : Compiler :=
  { st with addStack := dd :: st.addStack, typeStack := ty :: st.typeStack }

/-- The memoization key of `expr` in the current context and time. -/
def key (st : Compiler) (expr : Expr) : FQExpr :=
  ⟨st.ctxStack.headD (.ident ""), expr, st.timeStack.headD 0⟩

/-- `register_microdescriptor(...)`: append a descriptor. -/
def registerMicrodescriptor (md : MicroDescriptor) (st : Compiler) : Compiler :=
  { st with microDescriptors := st.microDescriptors ++ [md] }

/-- `push_dds(enc, type)`: push `type`, then the encoding's DDVector `dds`:
`dds[0]` for a monolithic type; for an algebraic type or an array of
algebraics, the whole vector from its last DD to its first, so that `dds[0]`
ends on top.  An empty vector, a width that does not match the type's, or
another type fails. -/
def pushDds (dds : List ADD) (type : SmvType) (st : Compiler) : Option Compiler :=
  if dds.length = 0 then none
  else if type.isMonolithic then
    some { st with typeStack := type :: st.typeStack, addStack := dds.headD ADD.zero :: st.addStack }
  else if type.isAlgebraic then
    if type.width = dds.length then
      some { st with typeStack := type :: st.typeStack, addStack := dds ++ st.addStack }
    else none
  else
    match type with
    | .array of nelems =>
      if of.isAlgebraic ∧ of.width = dds.length / nelems then
        some { st with typeStack := type :: st.typeStack, addStack := dds ++ st.addStack }
      else none
    | _ => none

/-- For an algebraic type of the vector's width, `push_dds` leaves the whole
vector on the stack with `dds[0]` on top. -/
theorem pushDds_algebraic {dds : List ADD} {type : SmvType} (st : Compiler)
    (hty : type.isAlgebraic = true) (hw : type.width = dds.length) (hpos : 0 < dds.length) :
    st.pushDds dds type =
      some { st with typeStack := type :: st.typeStack, addStack := dds ++ st.addStack } := by
  simp [pushDds, hty, hw, hpos.ne']

/-- An array of `n ≥ 1` algebraic elements of width `W ≥ 1` whose DDVector
holds `n * W` DDs passes `push_dds`'s width assertion and is pushed whole,
`dds[0]` on top. -/
theorem pushDds_array {dds : List ADD} {of : SmvType} {n : Nat} (st : Compiler)
    (hof : of.isAlgebraic = true) (hn : 0 < n) (hw : 0 < of.width) (hlen : dds.length = n * of.width) :
    st.pushDds dds (.array of n) =
      some { st with typeStack := .array of n :: st.typeStack, addStack := dds ++ st.addStack } := by
  have hmono : (SmvType.array of n).isMonolithic = false := rfl
  have halg : (SmvType.array of n).isAlgebraic = false := rfl
  simp [pushDds, hmono, halg, hof, hlen, (Nat.mul_pos hn hw).ne', Nat.mul_div_cancel_left _ hn]

/-- `register_muxdescriptor(toplevel, width, z, cnd, aux, x, y)`: create the
toplevel's entry if needed, then append the descriptor to its chain. -/
def registerMuxdescriptor (toplevel : Expr) (md : MuxDescriptor) (st : Compiler) : Compiler :=
  { st with muxMap := (st.muxMap.insert toplevel []).pushBack toplevel md }

/-- The inner loop of `post_process_muxes` over one chain, in the order given:
`act = prev.Cmpl().Times(cnd)`, push `act.Xnor(aux)`, `prev = act`. -/
def muxLoop : ADD → List MuxDescriptor → List ADD → List ADD
  | _, [], stack => stack
  | prev, d :: ds, stack =>
    let act := prev.cmpl.times d.cnd
    muxLoop act ds (act.xnor d.aux :: stack)

/-- `post_process_muxes()`: every chain, visited in reverse insertion order
from `prev = 0`. -/
def postProcessMuxes (st : Compiler) : Compiler :=
  { st with addStack := st.muxMap.foldl (fun s p => muxLoop ADD.zero p.2.reverse s) st.addStack }

/-- `post_node_hook(expr)`: unless preprocessing, cache the top `width` DDs
(top first) with the current descriptor tables under `expr`'s key, `width`
being that of the type on top of `f_type_stack`.  The assertions that the
context, time and type stacks are not empty and that `f_add_stack` holds
`width` DDs fail. -/
def postNodeHook (expr : Expr) (st : Compiler) : Option Compiler :=
  if st.preprocess then some st
  else
    match st.ctxStack, st.timeStack, st.typeStack with
    | ctx :: _, time :: _, type :: _ =>
      if type.width ≤ st.addStack.length then
        let key : FQExpr := ⟨ctx, expr, time⟩
        let unit : CompilationUnit := ⟨st.addStack.take type.width, st.microDescriptors, st.muxMap⟩
        some { st with cache := if (st.cache.lookup key).isSome then st.cache else st.cache ++ [(key, unit)] }
      else none
    | _, _, _ => none

/-- `cache_miss(expr)`: on a hit push the cached DDs (reversed, so the first
ends on top), the cached descriptors and chains, and `expr`'s type, and answer
`false`; on a miss answer `true`. -/
def cacheMiss (typeOf : Expr → Expr → SmvType) (expr : Expr) (st : Compiler) :
    Bool × Compiler :=
  match st.cache.lookup (st.key expr) with
  | some unit =>
    (false, { st with
      addStack := unit.dds ++ st.addStack
      microDescriptors := st.microDescriptors ++ unit.microDescriptors
      muxMap := unit.muxMap.foldl (fun m p => m.insert p.1 p.2) st.muxMap
      typeStack := typeOf expr (st.ctxStack.headD (.ident "")) :: st.typeStack })
  | none => (true, st)

/-- `clear_internals()`. -/
def clearInternals (st : Compiler) : Compiler :=
  { st with addStack := [], typeStack := [], ctxStack := [], timeStack := [],
            microDescriptors := [], muxMap := [] }

/-! ### MUX activation constraints -/

/-- The DDs `muxLoop prev ds` pushes, top first. -/
def muxPushes : ADD → List MuxDescriptor → List ADD
  | _, [] => []
  | prev, d :: ds =>
    let act := prev.cmpl.times d.cnd
    muxPushes act ds ++ [act.xnor d.aux]

theorem muxLoop_eq : ∀ (prev : ADD) (ds : List MuxDescriptor) (stack : List ADD),
    muxLoop prev ds stack = muxPushes prev ds ++ stack := by
  intro prev ds
  induction ds generalizing prev with
  | nil => intro stack; rfl
  | cons d ds ih => intro stack; simp [muxLoop, muxPushes, ih]

/-- The activations the constraints of `post_process_muxes` force, on truth
values: a branch is active when its condition holds and the branch visited
just before it is not. -/
def codeActivations : Bool → List Bool → List Bool
  | _, [] => []
  | prev, c :: cs => (!prev && c) :: codeActivations (!prev && c) cs

/-- The truth value of an ADD under an assignment. -/
def truth (ρ : Nat → Bool) (a : ADD) : Bool := a.eval ρ != 0

theorem truth_cmpl_times (ρ : Nat → Bool) (a b : ADD) :
    truth ρ (a.cmpl.times b) = (!truth ρ a && truth ρ b) := by
  by_cases ha : a.eval ρ = 0 <;> by_cases hb : b.eval ρ = 0 <;> simp [truth, ADD.ofBool, ha, hb]

theorem truth_xnor (ρ : Nat → Bool) (a b : ADD) :
    truth ρ (a.xnor b) = (truth ρ a == truth ρ b) := by
  simp [truth]

/-- **What the activation constraints enforce.**  Under every assignment that
satisfies all the DDs pushed for a chain visited in the order `ds`, the truth
value of each `aux` is the condition of its branch and-not the `aux` of the
branch visited before it. -/
theorem muxPushes_aux (ρ : Nat → Bool) : ∀ (prev : ADD) (ds : List MuxDescriptor),
    (∀ x ∈ muxPushes prev ds, truth ρ x = true) →
      ds.map (fun d => truth ρ d.aux) = codeActivations (truth ρ prev) (ds.map fun d => truth ρ d.cnd) := by
  intro prev ds
  induction ds generalizing prev with
  | nil => simp [codeActivations]
  | cons d ds ih =>
    intro h
    simp only [muxPushes, List.mem_append, List.mem_singleton] at h
    have hact := h _ (Or.inr rfl)
    rw [truth_xnor, truth_cmpl_times, beq_iff_eq] at hact
    simp only [List.map_cons, codeActivations, ← hact, List.cons.injEq, true_and]
    rw [ih _ fun x hx => h x (Or.inl hx), truth_cmpl_times]

/-- The constraints `post_process_muxes` pushes, top first: those of each chain
over those of the chains visited before it. -/
def muxConstraints : MuxMap → List ADD
  | [] => []
  | p :: m => muxConstraints m ++ muxPushes ADD.zero p.2.reverse

/-- `post_process_muxes` pushes `muxConstraints` and leaves the stack under them. -/
theorem postProcessMuxes_addStack (st : Compiler) :
    st.postProcessMuxes.addStack = muxConstraints st.muxMap ++ st.addStack := by
  suffices ∀ (m : MuxMap) (s : List ADD),
      m.foldl (fun s p => muxLoop ADD.zero p.2.reverse s) s = muxConstraints m ++ s from this _ _
  intro m
  induction m with
  | nil => intro s; rfl
  | cons p m ih => intro s; rw [List.foldl_cons, ih, muxLoop_eq, muxConstraints, List.append_assoc]

theorem muxPushes_subset_muxConstraints : ∀ {m : MuxMap} {p : Expr × List MuxDescriptor}, p ∈ m →
    muxPushes ADD.zero p.2.reverse ⊆ muxConstraints m
  | _ :: _, _, .head _ => List.subset_append_right _ _
  | _ :: _, _, .tail _ h => fun _ hx => List.mem_append_left _ (muxPushes_subset_muxConstraints h hx)

/-- The `j`-th branch of a chain whose conditions all hold: `cnd` is `1` and
`aux` is DD variable `j`. -/
def trueBranch (j : Nat) : MuxDescriptor := ⟨1, [], ADD.one, .node j (.const 1) (.const 0), [], []⟩

/-- **The activations `post_process_muxes` enforces.**  The pass pushes
`muxConstraints` over the stack it finds; for every assignment satisfying
those constraints and every chain of the map, the chain's `aux` values, in
visiting (reverse insertion) order, are `codeActivations` of its conditions
from `prev = 0`. -/
theorem postProcessMuxes_aux (st : Compiler) (ρ : Nat → Bool)
    (hsat : ∀ x ∈ muxConstraints st.muxMap, truth ρ x = true)
    (toplevel : Expr) (ds : List MuxDescriptor) (hmem : (toplevel, ds) ∈ st.muxMap) :
    st.postProcessMuxes.addStack = muxConstraints st.muxMap ++ st.addStack ∧
      ds.reverse.map (fun d => truth ρ d.aux) =
        codeActivations false (ds.reverse.map fun d => truth ρ d.cnd) :=
  ⟨postProcessMuxes_addStack st, muxPushes_aux ρ ADD.zero ds.reverse fun x hx =>
    hsat x (muxPushes_subset_muxConstraints hmem hx)⟩

/-- Three true branches under one toplevel, the compiled formula `0` already on
the stack, and the assignment `aux = (1, 0, 1)`, which satisfies every
constraint the pass pushes: the activations are those of the conditions
`1, 1, 1` visited last branch first. -/
theorem postProcessMuxes_aux_three :
    let st := ((((start (.ident "main") 0).pushResult ADD.zero .boolean).registerMuxdescriptor
      (.ident "t") (trueBranch 0)).registerMuxdescriptor (.ident "t") (trueBranch 1)).registerMuxdescriptor
        (.ident "t") (trueBranch 2)
    (∀ x ∈ muxConstraints st.muxMap, truth (fun i => i == 0 || i == 2) x = true) ∧
      (st.postProcessMuxes.addStack = muxConstraints st.muxMap ++ st.addStack ∧
        [trueBranch 0, trueBranch 1, trueBranch 2].reverse.map (fun d => truth (fun i => i == 0 || i == 2) d.aux) =
          codeActivations false
            ([trueBranch 0, trueBranch 1, trueBranch 2].reverse.map fun d => truth (fun i => i == 0 || i == 2) d.cnd)) :=
  ⟨by decide, postProcessMuxes_aux _ (fun i => i == 0 || i == 2) (by decide) (.ident "t") _ (by decide)⟩

/-- Three branches registered under one toplevel, all conditions true: the
assignment `aux = (1, 0, 1)` satisfies every constraint `post_process_muxes`
pushes, with two branches active. -/
theorem postProcessMuxes_three_true_branches :
    (∀ x ∈ ((((start (.ident "main") 0).registerMuxdescriptor (.ident "t") (trueBranch 0)
        ).registerMuxdescriptor (.ident "t") (trueBranch 1)).registerMuxdescriptor (.ident "t")
          (trueBranch 2)).postProcessMuxes.addStack, x.eval (fun i => i == 0 || i == 2) = 1) ∧
      [0, 1, 2].map (fun j => (trueBranch j).aux.eval fun i => i == 0 || i == 2) = [1, 0, 1] := by
  decide

/-! ### The memoization cache -/

/-- The key `post_node_hook` assembles is `key`, read from the stacks' tops. -/
theorem key_cons (expr ctx : Expr) (time : Int) {st : Compiler} {cs : List Expr} {ts : List Int}
    (hc : st.ctxStack = ctx :: cs) (ht : st.timeStack = time :: ts) : st.key expr = ⟨ctx, expr, time⟩ := by
  simp [key, hc, ht]

/-- `post_node_hook` never drops or replaces an entry of the cache. -/
theorem lookup_postNodeHook_of_eq_some {expr : Expr} {st st' : Compiler} (h : st.postNodeHook expr = some st')
    {k : FQExpr} {u : CompilationUnit} (hk : st.cache.lookup k = some u) : st'.cache.lookup k = some u := by
  unfold postNodeHook at h
  split at h
  · cases h; exact hk
  · split at h
    · split at h
      · cases h
        dsimp only
        split
        · exact hk
        · rw [List.lookup_append, hk]; rfl
      · cases h
    · cases h

/-- **What `post_node_hook` caches.**  Outside preprocessing, a hook that
returns has found a type `ty` on top of `f_type_stack`, and a key that had no
entry now maps to the top `ty.width` DDs with the *whole* descriptor tables of
the moment. -/
theorem lookup_postNodeHook {expr : Expr} {st st' : Compiler} (hpre : st.preprocess = false)
    (hnew : st.cache.lookup (st.key expr) = none) (h : st.postNodeHook expr = some st') :
    ∃ ty, st.typeStack.head? = some ty ∧
      st'.cache.lookup (st.key expr) = some ⟨st.addStack.take ty.width, st.microDescriptors, st.muxMap⟩ := by
  unfold postNodeHook at h
  rw [hpre, if_neg Bool.false_ne_true] at h
  split at h
  · next ctx _ time _ ty _ hc ht hty =>
    split at h
    · cases h
      rw [key_cons expr ctx time hc ht] at hnew ⊢
      simp [hnew, hty, List.lookup_append]
    · cases h
  · cases h

/-- On a hit, `cache_miss` answers `false` and pushes the cached unit and `expr`'s type. -/
theorem cacheMiss_of_lookup (typeOf : Expr → Expr → SmvType) {expr : Expr} {st : Compiler}
    {u : CompilationUnit} (h : st.cache.lookup (st.key expr) = some u) :
    st.cacheMiss typeOf expr = (false, { st with
      addStack := u.dds ++ st.addStack
      microDescriptors := st.microDescriptors ++ u.microDescriptors
      muxMap := u.muxMap.foldl (fun m p => m.insert p.1 p.2) st.muxMap
      typeStack := typeOf expr (st.ctxStack.headD (.ident "")) :: st.typeStack }) := by
  simp [cacheMiss, h]

/-- A microcode descriptor for one 1-digit addition with result DD variable `z`. -/
def addDescriptor (z : Nat) : MicroDescriptor :=
  ⟨⟨false, .inr .add, 1⟩, [.node z (.const 1) (.const 0)], [], []⟩

/-- A sibling registers descriptor `0`; then `x + y` is compiled, registering its
own descriptor `1` and pushing its result, and is cached; a later hit on
`x + y` appends both descriptors again, the sibling's included. -/
theorem cacheMiss_replays_sibling :
    let e : Expr := .binary .add (.ident "x") (.ident "y")
    let st := ((((start (.ident "main") 0).registerMicrodescriptor (addDescriptor 0)
      ).registerMicrodescriptor (addDescriptor 1)).pushResult ADD.one (.unsignedInt 1)).postNodeHook e
    st.map (fun st => (st.cacheMiss (fun _ _ => .unsignedInt 1) e).2.microDescriptors) =
      some [addDescriptor 0, addDescriptor 1, addDescriptor 0, addDescriptor 1] := by
  decide

end Compiler

end GnuSmv
