import GnuSmv.Expr.Eval
import GnuSmv.Sat.CnfNoCut

/-!
# The compiler refines the evaluator on the boolean fragment

Two components of `src/` give a formula its meaning.  `BECompiler`
(`src/model/compiler.cc`) compiles it to an ADD over the DD variables of the
variables' encodings, and the SAT engine turns that ADD into clauses
(`cnf_push_no_cut`); `Evaluator` (`src/expr/expr_eval.cc`) computes its value
on a witness, which the BMC core reads back from a satisfying assignment
through the same encodings (spec §4.7, witness extraction).  The model
checker is right only if the two agree.

They do on the boolean fragment — boolean variables, defines whose bodies are
in the fragment, `!`, `next`, the binary connectives and `ITE`s — wherever the
model types the formula's operands as boolean and encodes its variables by
`BooleanEncoding`s, whatever else the model declares (`BooleanIn`): the walk
of the compiler never fails, pushes one DD and changes nothing else, and under
every assignment that DD evaluates to the value `Evaluator::process` computes
on the witness read back from the same assignment.  The proof is one induction
over the derivation: the frames are handled once, and each connective
contributes one bridge lemma saying that its compiled DD computes the
evaluator's operator on `0`-`1` values.

## Main definitions

* `readWitness` — the witness read back from an assignment through the encodings.
* `BECompiler.BooleanIn` — a derivation that a formula is boolean in the model:
  what its walk reads from the model, and the fuel it spends.

## Main results

* `BECompiler.walk_refines` — the walk of a boolean expression pushes one DD,
  whose value under every assignment is the evaluator's value of the expression.
* `BECompiler.process_refines` — from the state `process` starts in, the
  compiled DD and `Evaluator::process` agree under every assignment.
* `BECompiler.cnfPushNoCut_refines` — the clauses `cnf_push_no_cut` adds for
  the compiled DD hold exactly when the evaluator finds the formula true on
  the witness read back from the SAT assignment.
-/

namespace GnuSmv

/-- Modelled from the spec (§4.7, witness extraction): the witness read back
from an assignment `ρ` of the DD variables.  The value of a variable at a timed
key is what its boolean encoding's `expr(ρ)` returns, as the value `0` or `1`
of that constant. -/
def readWitness (encoding : FQExpr → List ADD) (ρ : Nat → Bool) (key : FQExpr) : Option Int :=
  (BooleanEncoding.expr ⟨encoding key⟩ ρ).map ADD.ofBool

namespace BECompiler

/-! ### One operator at a time -/

section Bridge

variable {typeOf : Expr → Expr → SmvType} (W : Nat)

/-- **A compiled connective computes the evaluator's operator.**  On boolean
operands a connective pops two DDs and pushes one, which under every assignment
giving its operands `0`-`1` values takes the value the evaluator's operator
gives them, again `0` or `1`. -/
theorem walkBinaryPostorder_bridge {op : BinaryOp} (hop : isBinaryLogical op = true)
    {ctx lhs rhs : Expr} (hl : typeOf lhs ctx = .boolean) (hr : typeOf rhs ctx = .boolean) (a b : ADD)
    (s : List ADD) :
    ∃ x, walkBinaryPostorder typeOf W ctx op lhs rhs (b :: a :: s) = some (x :: s) ∧
      ∀ ρ, (a.eval ρ = 0 ∨ a.eval ρ = 1) → (b.eval ρ = 0 ∨ b.eval ρ = 1) →
        Evaluator.binaryValue op (a.eval ρ) (b.eval ρ) = some (x.eval ρ) ∧ (x.eval ρ = 0 ∨ x.eval ρ = 1) := by
  have post : ∀ f : ADD → ADD → ADD, binaryTop f (b :: a :: s) = some (f a b :: s) := fun _ => rfl
  cases op <;> simp only [isBinaryLogical, Bool.false_eq_true] at hop <;>
    refine ⟨_, by simp [walkBinaryPostorder, walkAndPostorder, walkOrPostorder, walkXorPostorder,
      walkXnorPostorder, walkIffPostorder, walkImpliesPostorder, bitwisePostorder, isBinaryBoolean,
      isBinaryLogical, hl, hr, SmvType.isBoolean, post]; rfl, fun ρ ha hb => ?_⟩ <;>
    rcases ha with ha | ha <;> rcases hb with hb | hb <;>
    simp [ha, hb, Evaluator.binaryValue, Evaluator.logicalNot] <;> decide

end Bridge

/-! ### The walk -/

/-- A derivation that a formula is boolean in the model, in the context `ctx`,
with `fuel` to spend: one rule per node of the boolean fragment, each checking
what the walk of that node reads from the model.  A variable is boolean with a
`BooleanEncoding` at every time, a define's body is boolean in turn, the
operands of `!`, of the connectives and the branches of an `ITE` have boolean
type, and each node spends the fuel its walk spends. -/
inductive BooleanIn (typeOf : Expr → Expr → SmvType) (resolve : Expr → Expr → Option Symbol)
    (encoding : FQExpr → List ADD) (ctx : Expr) : Nat → Expr → Prop
  /-- A boolean variable. -/
  | boolVar {fuel : Nat} {name : String} :
    resolve ctx (.ident name) = some (.variable .boolean) →
    (∀ time, ∃ bits : BitAlloc, encoding ⟨ctx, .ident name, time⟩ = (BooleanEncoding.make bits).1.dv) →
    BooleanIn typeOf resolve encoding ctx (fuel + 1) (.ident name)
  /-- A define whose body is boolean. -/
  | define {fuel : Nat} {name : String} {body : Expr} :
    resolve ctx (.ident name) = some (.define body) → BooleanIn typeOf resolve encoding ctx fuel body →
    BooleanIn typeOf resolve encoding ctx (fuel + 1) (.ident name)
  /-- `! e`. -/
  | not {fuel : Nat} {e : Expr} :
    typeOf e ctx = .boolean → BooleanIn typeOf resolve encoding ctx fuel e →
    BooleanIn typeOf resolve encoding ctx (fuel + 1) (.unary .not e)
  /-- `next e`. -/
  | next {fuel : Nat} {e : Expr} :
    BooleanIn typeOf resolve encoding ctx fuel e → BooleanIn typeOf resolve encoding ctx (fuel + 1) (.unary .next e)
  /-- A binary connective. -/
  | connective {fuel : Nat} {op : BinaryOp} {l r : Expr} :
    isBinaryLogical op = true → typeOf l ctx = .boolean → typeOf r ctx = .boolean →
    BooleanIn typeOf resolve encoding ctx fuel l → BooleanIn typeOf resolve encoding ctx fuel r →
    BooleanIn typeOf resolve encoding ctx (fuel + 1) (.binary op l r)
  /-- `c ? t : e`, parsed as `ite (cond c t) e`. -/
  | ite {fuel : Nat} {c t e : Expr} :
    typeOf t ctx = .boolean → typeOf e ctx = .boolean →
    BooleanIn typeOf resolve encoding ctx fuel c → BooleanIn typeOf resolve encoding ctx fuel t →
    BooleanIn typeOf resolve encoding ctx (fuel + 1) e →
    BooleanIn typeOf resolve encoding ctx (fuel + 2) (.binary .ite (.binary .cond c t) e)

section Refinement

variable {typeOf : Expr → Expr → SmvType} {resolve : Expr → Expr → Option Symbol}
  {encoding : FQExpr → List ADD} (W : Nat)

/-- **The walk refines the evaluator.**  From every state with an empty cache
whose context and time are `ctx` and `time`, the walk of a formula that is
boolean in the model with `fuel` to spend returns, pushes one DD and changes
nothing else; under every assignment `ρ` that DD evaluates to `0` or `1`, and
to the one value the evaluator's walk pushes on the witness read back from `ρ`. -/
theorem walk_refines {ctx : Expr} {fuel : Nat} {expr : Expr}
    (h : BooleanIn typeOf resolve encoding ctx fuel expr) (st : Compiler) (time : Int) (hc : st.cache = [])
    (hctx : st.ctxStack.head? = some ctx) (htime : st.timeStack.head? = some time) :
    ∃ a, walk typeOf resolve encoding W fuel expr st = some { st with addStack := a :: st.addStack } ∧
      ∀ ρ, Evaluator.values resolve (readWitness encoding ρ) ctx fuel expr time = some [a.eval ρ] ∧
        (a.eval ρ = 0 ∨ a.eval ρ = 1) := by
  induction h generalizing st time with
  | boolVar hres henc =>
    obtain ⟨bits, hbits⟩ := henc time
    refine ⟨bitVar bits.next, ?_, fun ρ => ?_⟩
    · simp [walk, walkLeaf, cacheMiss_of_cache_nil typeOf _ hc, leafMiss, hres, SmvType.isBoolean,
        hctx, htime, hbits]
    · cases h : ρ bits.next <;> simp [Evaluator.values, hres, readWitness, hbits, h, BooleanEncoding.expr]
  | define hres _ ih =>
    obtain ⟨a, hw, hv⟩ := ih st time hc hctx htime
    exact ⟨a, by simp [walk, walkLeaf, cacheMiss_of_cache_nil typeOf _ hc, leafMiss, hctx, hres, hw],
      fun ρ => by simpa [Evaluator.values, hres] using hv ρ⟩
  | not hty _ ih =>
    obtain ⟨a, hw, hv⟩ := ih st time hc hctx htime
    refine ⟨a.cmpl, ?_, fun ρ => ?_⟩
    · simp [walk, cacheMiss_of_cache_nil typeOf _ hc, hw, postorder, hctx, walkUnaryPostorder_not hty]
    · obtain ⟨hv, hbit⟩ := hv ρ
      rcases hbit with h | h <;> simp [Evaluator.values, hv, Evaluator.unaryPostorder, Evaluator.logicalNot, h]
  | next _ ih =>
    obtain ⟨a, hw, hv⟩ := ih { st with timeStack := (1 + time) :: st.timeStack } (1 + time) hc hctx rfl
    refine ⟨a, ?_, fun ρ => ?_⟩
    · simp [walk, walkNextPreorder, htime, hw, walkNextPostorder]
    · simpa [Evaluator.values, Int.add_comm time 1] using hv ρ
  | connective hop htl htr _ _ ihl ihr =>
    obtain ⟨a, hwl, hvl⟩ := ihl st time hc hctx htime
    obtain ⟨b, hwr, hvr⟩ := ihr { st with addStack := a :: st.addStack } time hc hctx htime
    obtain ⟨x, hx, hval⟩ := walkBinaryPostorder_bridge W hop htl htr a b st.addStack
    refine ⟨x, ?_, fun ρ => ?_⟩
    · simp [walk, cacheMiss_of_cache_nil typeOf _ hc, hwl, hwr, postorder, hctx, hx]
    · obtain ⟨hvl, hal⟩ := hvl ρ
      obtain ⟨hvr, hbr⟩ := hvr ρ
      obtain ⟨hxv, hxb⟩ := hval ρ hal hbr
      refine ⟨?_, hxb⟩
      simp [Evaluator.values, hvl, hvr, Evaluator.binaryPostorder_of_binaryValue hxv]
  | @ite fuel c t r htt hte _ _ _ ihc iht ihe =>
    -- the cond node leaves the condition and the then-branch
    obtain ⟨x, hwc, hvc⟩ := ihc st time hc hctx htime
    obtain ⟨y, hwt, hvt⟩ := iht { st with addStack := x :: st.addStack } time hc hctx htime
    obtain ⟨z, hwe, hve⟩ := ihe { st with addStack := y :: x :: st.addStack } time hc hctx htime
    refine ⟨x.ite y z, ?_, fun ρ => ?_⟩
    · have hcond : walk typeOf resolve encoding W (fuel + 1) (.binary .cond c t) st =
          some { st with addStack := y :: x :: st.addStack } := by
        simp [walk, cacheMiss_of_cache_nil typeOf _ hc, hwc, hwt, postorder, walkBinaryPostorder]
      rw [walk]
      simp [cacheMiss_of_cache_nil typeOf _ hc, hcond, hwe, postorder, walkBinaryPostorder, hctx,
        walkItePostorder_boolean htt hte]
    · obtain ⟨hvc, hxc⟩ := hvc ρ
      obtain ⟨hvt, hxt⟩ := hvt ρ
      obtain ⟨hve, hxe⟩ := hve ρ
      simp only [Evaluator.values, hvc, hvt, hve, Option.bind_eq_bind, Option.some_bind,
        Evaluator.binaryPostorder, List.cons_append, List.nil_append, Evaluator.walkItePostorder,
        ADD.eval_ite]
      by_cases h : x.eval ρ = 0 <;> simp [h, hxt, hxe]

/-- **The compiler refines the evaluator on the boolean fragment.**  For every
formula `body` that is boolean in the model in the context `ctx` with `fuel`
to spend, and every time: the walk of `process` from its start state returns
with one DD `a` on the stack and nothing else changed, and under every
assignment `ρ` of the DD variables `Evaluator::process` on the witness read
back from `ρ` returns `a`'s value. -/
theorem process_refines {ctx body : Expr} {fuel : Nat} (hb : BooleanIn typeOf resolve encoding ctx fuel body)
    (time : Int) :
    ∃ a, walk typeOf resolve encoding W fuel body (Compiler.start ctx time) =
        some { Compiler.start ctx time with addStack := [a] } ∧
      ∀ ρ, Evaluator.process resolve (readWitness encoding ρ) fuel ctx body time = some (a.eval ρ) := by
  obtain ⟨a, hw, hv⟩ := walk_refines W hb (Compiler.start ctx time) time rfl rfl rfl
  exact ⟨a, hw, fun ρ => Evaluator.process_eq resolve _ (hv ρ).1⟩

/-- **The clauses of a compiled formula hold exactly where the evaluator finds
it true.**  With the hypothesis of `process_refines`, the clauses
`cnf_push_no_cut` adds under `MAINGROUP` at any time `t` for the DD the walk
compiles all hold under a SAT assignment `σ` exactly when `Evaluator::process`,
on the witness read back from `σ` at `t`, evaluates the formula to `1`. -/
theorem cnfPushNoCut_refines (MAINGROUP : Nat) (findDdVar : Nat → Int → Nat) {ctx body : Expr}
    {fuel : Nat} (hb : BooleanIn typeOf resolve encoding ctx fuel body) (time : Int) :
    ∃ a, walk typeOf resolve encoding W fuel body (Compiler.start ctx time) =
        some { Compiler.start ctx time with addStack := [a] } ∧
      ∀ (t : Int) (σ : Nat → Bool),
        (∀ c ∈ cnfPushNoCut MAINGROUP findDdVar a t MAINGROUP, clauseEval σ c = true) ↔
          Evaluator.process resolve (readWitness encoding fun i => σ (findDdVar i t)) fuel ctx body time =
            some 1 := by
  obtain ⟨a, hw, hv⟩ := walk_refines W hb (Compiler.start ctx time) time rfl rfl rfl
  refine ⟨a, hw, fun t σ => ?_⟩
  obtain ⟨hv, hbit⟩ := hv fun i => σ (findDdVar i t)
  rw [Evaluator.process_eq resolve _ hv, cnfPushNoCut, forall_eval_walk]
  rcases hbit with h | h <;> simp [h, action]

end Refinement

/-- A model with the define `d := x & next x`, every other identifier a
boolean variable. -/
def defineSymbols (_ e : Expr) : Option Symbol :=
  if e = .ident "d" then some (.define (.binary .and (.ident "x") (.unary .next (.ident "x"))))
  else some (.variable .boolean)

/-- The encoding of every variable at time `t`: the fresh bit `t`. -/
def timedBits (key : FQExpr) : List ADD := (BooleanEncoding.make ⟨key.time.toNat, []⟩).1.dv

/-- `! d` at time `0`, where `x` at time `t` is the bit `t`. -/
theorem process_refines_define :
    ∃ a, walk (fun _ _ => .boolean) defineSymbols timedBits 1 5 (.unary .not (.ident "d"))
        (Compiler.start (.ident "main") 0) =
        some { Compiler.start (.ident "main") 0 with addStack := [a] } ∧
      ∀ ρ, Evaluator.process defineSymbols (readWitness timedBits ρ) 5 (.ident "main")
        (.unary .not (.ident "d")) 0 = some (a.eval ρ) :=
  @process_refines (fun _ _ => .boolean) defineSymbols timedBits 1 (.ident "main") (.unary .not (.ident "d")) 5
    (.not rfl (.define rfl (.connective rfl rfl rfl (.boolVar rfl fun _ => ⟨_, rfl⟩)
      (.next (.boolVar rfl fun _ => ⟨_, rfl⟩))))) 0

/-- `x -> next x` at time `0`, asserted with `find_dd_var(i, t) = i`. -/
theorem cnfPushNoCut_refines_next :
    ∃ a, walk (fun _ _ => .boolean) defineSymbols timedBits 1 3
        (.binary .implies (.ident "x") (.unary .next (.ident "x"))) (Compiler.start (.ident "main") 0) =
        some { Compiler.start (.ident "main") 0 with addStack := [a] } ∧
      ∀ (t : Int) (σ : Nat → Bool),
        (∀ c ∈ cnfPushNoCut 0 (fun i _ => i) a t 0, clauseEval σ c = true) ↔
          Evaluator.process defineSymbols (readWitness timedBits fun i => σ i) 3 (.ident "main")
            (.binary .implies (.ident "x") (.unary .next (.ident "x"))) 0 = some 1 :=
  @cnfPushNoCut_refines (fun _ _ => .boolean) defineSymbols timedBits 1 0 (fun i _ => i) (.ident "main")
    (.binary .implies (.ident "x") (.unary .next (.ident "x"))) 3
    (.connective rfl rfl rfl (.boolVar rfl fun _ => ⟨_, rfl⟩) (.next (.boolVar rfl fun _ => ⟨_, rfl⟩))) 0

end BECompiler

end GnuSmv
