import GnuSmv.Dd.Add

/-!
# The no-cut CNF of an ADD

`sat::CNFBuilderNoCut` (`src/enc/enc.cc`, `sat/cnf_nocut.cc`) turns a 0-1 ADD
into clauses: the ADD walker visits the diagram, `condition` holds at the
`0` terminal, and there `action` emits one clause made of the group literal
(unless the group is `MAINGROUP`) and one literal per internal node on the
recursion stack.  `Engine::cnf_push_no_cut` runs it on one ADD at one time.

The walker itself (`dd::ADDWalker`), the polarity it records and
`Engine::find_dd_var` are not under `src/`.  The walker is modelled from the
spec (§4.6): it enumerates every path from the root, and each edge
`n --polarity--> child` contributes the literal `(find_dd_var(n, time),
polarity)`: the walker records `DD_NEGATIVE` on a node's activation record when
it descends into the then-child and `DD_POSITIVE` into the else-child, so that
`action`'s `mkLit(var, polarity == DD_NEGATIVE)` is the literal the edge
falsifies.  `find_dd_var` is a parameter of the DD variable index and the time;
so is the constant `MAINGROUP`.

## Main results

* `forall_eval_walk` — the clauses of a walk are all satisfied exactly when
  the diagram is nonzero wherever the group literal and the stack's literals
  are all false.
* `cnfPushNoCut_correct` — **the no-cut CNF of a 0-1 ADD holds exactly when
  the ADD evaluates to `1`**, under an enabled group; a disabled group
  satisfies it; every `0`-path yields its clause.
-/

namespace GnuSmv

/-- A literal `mkLit(var, sign)`: `var` when `sign` is false, its negation when true. -/
structure Lit where
  /-- The SAT variable. -/
  var : Nat
  /-- Whether the literal is negated. -/
  sign : Bool
  deriving DecidableEq, Repr

/-- `mkLit(v, sign)`. -/
def mkLit (v : Nat) (sign : Bool) : Lit := ⟨v, sign⟩

/-- The value of a literal under an assignment of the SAT variables. -/
def Lit.eval (σ : Nat → Bool) (l : Lit) : Bool := σ l.var != l.sign

/-- A clause holds when one of its literals does. -/
def clauseEval (σ : Nat → Bool) (c : List Lit) : Bool := c.any (Lit.eval σ)

@[simp] theorem eval_mkLit (σ : Nat → Bool) (v : Nat) (sign : Bool) :
    (mkLit v sign).eval σ = (σ v != sign) := rfl

@[simp] theorem clauseEval_append (σ : Nat → Bool) (c d : List Lit) :
    clauseEval σ (c ++ d) = (clauseEval σ c || clauseEval σ d) := by
  simp [clauseEval]

@[simp] theorem clauseEval_nil (σ : Nat → Bool) : clauseEval σ [] = false := rfl

@[simp] theorem clauseEval_cons (σ : Nat → Bool) (l : Lit) (c : List Lit) :
    clauseEval σ (l :: c) = (l.eval σ || clauseEval σ c) := rfl

/-- The polarity the walker records on a node's activation record (`dd::DD_POSITIVE`,
`dd::DD_NEGATIVE`). -/
inductive Polarity where
  | positive
  | negative
  deriving DecidableEq, Repr

/-- An activation record of the walker's recursion stack. -/
structure ActivationRecord where
  /-- The node visited. -/
  node : ADD
  /-- The polarity recorded for the branch taken out of it. -/
  polarity : Polarity

/-- Modelled from the spec: the `dd::ADDWalker` traversal.  The recursion stack
is listed top first; at every node the walker calls `condition`, and `action`
on the stack where it holds, then visits the then-child and the else-child. -/
def addWalk {β : Type} (condition : ADD → Bool) (action : List ActivationRecord → β) :
    List ActivationRecord → ADD → List β
  | stack, .const v =>
    if condition (.const v) then [action (⟨.const v, .positive⟩ :: stack)] else []
  | stack, .node i t e =>
    (if condition (.node i t e) then [action (⟨.node i t e, .positive⟩ :: stack)] else []) ++
      addWalk condition action (⟨.node i t e, .negative⟩ :: stack) t ++
        addWalk condition action (⟨.node i t e, .positive⟩ :: stack) e

section NoCut

variable (MAINGROUP : Nat) (findDdVar : Nat → Int → Nat)

/-- `CNFBuilderNoCut::condition`: the node is the `0` terminal. -/
def condition : ADD → Bool
  | .const v => v == 0
  | .node .. => false

/-- The literal an activation record contributes in `action`, if any. -/
def recordLit (time : Int) (r : ActivationRecord) : Option Lit :=
  match r.node with
  | .const _ => none
  | .node i _ _ => some (mkLit (findDdVar i time) (r.polarity == .negative))

/-- `CNFBuilderNoCut::action`: the group literal, then a literal for each
internal node of the recursion stack, from the top down. -/
def action (time : Int) (group : Nat) (stack : List ActivationRecord) : List Lit :=
  (if MAINGROUP != group then [mkLit group true] else []) ++
    stack.filterMap (recordLit findDdVar time)

/-- `Engine::cnf_push_no_cut(add, time, group)`: the clauses it adds. -/
def cnfPushNoCut (add : ADD) (time : Int) (group : Nat) : List (List Lit) :=
  addWalk condition (action MAINGROUP findDdVar time group) [] add

/-- The literal a `0`-path contributes at the node of variable `i` left by the
branch `b`: false exactly on the assignments taking that branch. -/
def pathLit (time : Int) (p : Nat × Bool) : Lit := mkLit (findDdVar p.1 time) p.2

variable {MAINGROUP findDdVar}

@[simp] theorem action_const (time : Int) (group : Nat) (v : Int) (p : Polarity)
    (stack : List ActivationRecord) :
    action MAINGROUP findDdVar time group (⟨.const v, p⟩ :: stack) =
      action MAINGROUP findDdVar time group stack := by
  simp [action, recordLit]

theorem clauseEval_action_node (σ : Nat → Bool) (time : Int) (group i : Nat) (t e : ADD)
    (p : Polarity) (stack : List ActivationRecord) :
    clauseEval σ (action MAINGROUP findDdVar time group (⟨.node i t e, p⟩ :: stack)) =
      ((σ (findDdVar i time) != (p == .negative)) ||
        clauseEval σ (action MAINGROUP findDdVar time group stack)) := by
  simp only [action, recordLit, List.filterMap_cons, clauseEval_append, clauseEval_cons,
    eval_mkLit]
  cases clauseEval σ (if MAINGROUP != group then [mkLit group true] else []) <;> simp

/-- **The clauses of a walk from a stack.**  They all hold exactly when the
diagram is nonzero wherever the clause of the stack itself — the group literal
and the literals of the nodes above — is false. -/
theorem forall_eval_walk (σ : Nat → Bool) (time : Int) (group : Nat) :
    ∀ (a : ADD) (stack : List ActivationRecord),
      (∀ c ∈ addWalk condition (action MAINGROUP findDdVar time group) stack a,
          clauseEval σ c = true) ↔
        (clauseEval σ (action MAINGROUP findDdVar time group stack) = false →
          a.eval (fun i => σ (findDdVar i time)) ≠ 0) := by
  intro a
  induction a with
  | const v =>
    intro stack
    by_cases hv : v = 0 <;> simp [addWalk, condition, hv]
  | node i t e iht ihe =>
    intro stack
    simp only [addWalk, condition, Bool.false_eq_true, ite_false, List.nil_append,
      List.mem_append, or_imp, forall_and, iht, ihe, clauseEval_action_node, ADD.eval_node]
    -- the then-edge is taken where the node's variable is true, the else-edge elsewhere
    cases σ (findDdVar i time) <;> simp

end NoCut

/-- The paths from the root to the `0` terminal, each listed from the terminal
up, as the DD variables tested and the branches taken. -/
def ADD.zeroPaths : ADD → List (List (Nat × Bool))
  | .const v => if v = 0 then [[]] else []
  | .node i t e => t.zeroPaths.map (· ++ [(i, true)]) ++ e.zeroPaths.map (· ++ [(i, false)])

section NoCut

variable {MAINGROUP : Nat} {findDdVar : Nat → Int → Nat}

/-- Every `0`-path yields its clause: the group literal, then the path's literals
from the terminal up, then those of the stack. -/
theorem mem_walk_of_zeroPath (time : Int) (group : Nat) : ∀ (a : ADD)
    (stack : List ActivationRecord), ∀ p ∈ a.zeroPaths,
      (if MAINGROUP != group then [mkLit group true] else []) ++
          (p.map (pathLit findDdVar time) ++ stack.filterMap (recordLit findDdVar time)) ∈
        addWalk condition (action MAINGROUP findDdVar time group) stack a := by
  intro a
  induction a with
  | const v =>
    intro stack p hp
    by_cases hv : v = 0
    · simp only [ADD.zeroPaths, hv, ite_true, List.mem_singleton] at hp
      simp [hp, addWalk, condition, hv, action, recordLit]
    · simp [ADD.zeroPaths, hv] at hp
  | node i t e iht ihe =>
    intro stack p hp
    simp only [ADD.zeroPaths, List.mem_append, List.mem_map] at hp
    simp only [addWalk, condition, Bool.false_eq_true, ite_false, List.nil_append, List.mem_append]
    rcases hp with ⟨q, hq, rfl⟩ | ⟨q, hq, rfl⟩
    · left
      simpa [recordLit, pathLit] using iht _ q hq
    · right
      simpa [recordLit, pathLit] using ihe _ q hq

end NoCut

/-- **The no-cut CNF of a 0-1 ADD is its characteristic formula.**  Under an
assignment `σ` of the SAT variables whose group is `MAINGROUP` or true, every
clause `cnf_push_no_cut(a, t, g)` adds holds exactly when `a` evaluates to `1`
on the DD variables read through `find_dd_var(., t)`; under a false group they
all hold; and every root-to-`0` path yields a clause whose path literals are all
false along that path. -/
theorem cnfPushNoCut_correct (MAINGROUP : Nat) (findDdVar : Nat → Int → Nat) (a : ADD)
    (ha : a.ZeroOne) (time : Int) (group : Nat) (σ : Nat → Bool) :
    ((group = MAINGROUP ∨ σ group = true) →
        ((∀ c ∈ cnfPushNoCut MAINGROUP findDdVar a time group, clauseEval σ c = true) ↔
          a.eval (fun i => σ (findDdVar i time)) = 1)) ∧
      ((group ≠ MAINGROUP ∧ σ group = false) →
        ∀ c ∈ cnfPushNoCut MAINGROUP findDdVar a time group, clauseEval σ c = true) ∧
      ∀ p ∈ a.zeroPaths,
        (if MAINGROUP != group then [mkLit group true] else []) ++ p.map (pathLit findDdVar time) ∈
            cnfPushNoCut MAINGROUP findDdVar a time group ∧
          ∀ σ' : Nat → Bool, (∀ q ∈ p, σ' (findDdVar q.1 time) = q.2) →
            ∀ l ∈ p.map (pathLit findDdVar time), l.eval σ' = false := by
  have hwalk := @forall_eval_walk MAINGROUP findDdVar σ time group a []
  have hgroup : clauseEval σ (action MAINGROUP findDdVar time group []) =
      (MAINGROUP != group && !σ group) := by
    by_cases h : MAINGROUP = group <;> simp [action, h]
  refine ⟨fun hg => ?_, fun ⟨hne, hf⟩ => ?_, fun p hp => ⟨?_, fun σ' hσ' l hl => ?_⟩⟩
  · -- an enabled group: the clauses say `a ≠ 0`, which is `a = 1` on a 0-1 diagram
    have : clauseEval σ (action MAINGROUP findDdVar time group []) = false := by
      rcases hg with rfl | hg <;> simp [hgroup, *]
    rw [cnfPushNoCut, hwalk]
    rcases ha.eval (fun i => σ (findDdVar i time)) with h | h <;> simp [h, this]
  · -- a disabled group satisfies every clause through its literal
    rw [cnfPushNoCut, hwalk, hgroup]
    simp [hf, Ne.symm hne]
  · simpa using mem_walk_of_zeroPath time group a [] p hp
  · obtain ⟨q, hq, rfl⟩ := List.mem_map.1 hl
    simp [pathLit, hσ' q hq]

/-- One DD variable, `x`, under group `7` set true: the CNF holds exactly where `x` does. -/
theorem cnfPushNoCut_correct_var :
    (ADD.node 0 (.const 1) (.const 0)).ZeroOne ∧
      ((∀ c ∈ cnfPushNoCut 0 (fun i _ => i + 1) (.node 0 (.const 1) (.const 0)) 0 7,
          clauseEval (fun v => v == 7 || v == 1) c = true) ↔
        (ADD.node 0 (.const 1) (.const 0)).eval (fun i => (fun v => v == 7 || v == 1) (i + 1)) = 1) :=
  ⟨by decide, (cnfPushNoCut_correct 0 (fun i _ => i + 1) _ (by decide) 0 7 _).1 (Or.inr rfl)⟩

end GnuSmv
