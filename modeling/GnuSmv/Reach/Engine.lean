import Mathlib.Logic.Function.Basic
import Mathlib.Data.List.Basic
import Mathlib.Tactic.Common

/-!
# The SAT engine as the reachability strategies see it

The strategies of `src/unnamed/part_001` (`bmc/backward.cc`) talk to a SAT
engine through a handful of calls: `assert_formula`, `assert_fsm_init`,
`assert_fsm_trans`, `assert_fsm_invar` and `assert_fsm_uniqueness` add
constraints at a time frame, `new_group` issues a selector group,
`invert_last_group` flips the polarity of the last one, and `solve` answers.
None of these is under `src/`; they are modelled from the spec (§4.6): an
engine is a store of group-guarded constraints over time frames, and `solve` is
an oracle on the constraints currently enabled.

A constraint is kept at the level the strategies reason about: a state
predicate at a frame (a compiled formula, INIT, INVAR), a transition predicate
between a frame and the next (TRANS), or the uniqueness of two frames.  Time
frames are `step_t`; the spec has steps range over the integers, so frames are
`Int` and `UINT_MAX - k` never wraps.

## Main definitions

* `Fsm` — INIT, TRANS and INVAR over the state valuations `S`.
* `Constraint`, `Engine` — constraints and the group-guarded store; `Engine.Holds`.
* `Solver` — an oracle whose definite answers are right; `Solver.Complete`.
* `bruteForce` — a complete solver for a finite state type, so that the
  strategies can be run.
-/

namespace GnuSmv

/-- `UINT_MAX`, the frame at which the backward strategy asserts its target. -/
def UINT_MAX : Int := 4294967295

/-- Modelled from the spec: a finite-state machine as the strategies see it: `INIT`, `TRANS` and `INVAR`
over state valuations `S`. -/
structure Fsm (S : Type) where
  /-- The initial states. -/
  init : S → Bool
  /-- The transition relation, from a state to its successor. -/
  trans : S → S → Bool
  /-- The invariant every state of a path satisfies. -/
  invar : S → Bool

variable {S : Type}

/-- A constraint asserted into an engine. -/
inductive Constraint (S : Type) where
  /-- A state predicate at frame `t`. -/
  | state (p : S → Bool) (t : Int)
  /-- A transition predicate between frames `t` and `t + 1`. -/
  | step (r : S → S → Bool) (t : Int)
  /-- The state valuations at frames `tj` and `tk` differ. -/
  | distinct (tj tk : Int)

namespace Constraint

/-- The constraint holds of a valuation `σ` of the time frames. -/
def Holds (σ : Int → S) : Constraint S → Prop
  | state p t => p (σ t) = true
  | step r t => r (σ t) (σ (t + 1)) = true
  | distinct tj tk => σ tj ≠ σ tk

@[simp] theorem holds_state (σ : Int → S) (p : S → Bool) (t : Int) :
    (state p t).Holds σ ↔ p (σ t) = true := Iff.rfl

@[simp] theorem holds_step (σ : Int → S) (r : S → S → Bool) (t : Int) :
    (step r t).Holds σ ↔ r (σ t) (σ (t + 1)) = true := Iff.rfl

@[simp] theorem holds_distinct (σ : Int → S) (tj tk : Int) :
    (distinct tj tk).Holds σ ↔ σ tj ≠ σ tk := Iff.rfl

end Constraint

/-- Modelled from the spec: a SAT engine (`sat::Engine`), the asserted constraints, each guarded by a group (`none` is
`MAINGROUP`), and the polarity assumed for each of the `ngroups` groups issued;
a group of polarity `false` disables what it guards. -/
structure Engine (S : Type) where
  /-- The asserted constraints with their guards. -/
  clauses : List (Option Nat × Constraint S)
  /-- How many groups have been issued. -/
  ngroups : Nat
  /-- The polarity assumed for each group. -/
  polarity : Nat → Bool
  /-- Every constraint is guarded by `MAINGROUP` or by a group already issued. -/
  guarded : ∀ p ∈ clauses, ∀ g ∈ p.1, g < ngroups

namespace Engine

/-- A fresh engine. -/
def empty : Engine S := ⟨[], 0, fun _ => true, fun _ h => (List.not_mem_nil _ h).elim⟩

/-- Whether a guard currently enables what it guards. -/
def enabled (e : Engine S) : Option Nat → Bool
  | none => true
  | some g => e.polarity g

/-- The valuation `σ` satisfies every enabled constraint. -/
def Holds (e : Engine S) (σ : Int → S) : Prop :=
  ∀ p ∈ e.clauses, e.enabled p.1 = true → p.2.Holds σ

/-- The enabled constraints are jointly satisfiable. -/
def Satisfiable (e : Engine S) : Prop := ∃ σ, e.Holds σ

/-- Modelled from the spec: assert `c` under `MAINGROUP`. -/
def assert (e : Engine S) (c : Constraint S) : Engine S where
  clauses := e.clauses ++ [(none, c)]
  ngroups := e.ngroups
  polarity := e.polarity
  guarded := by
    intro p hp g hg
    rcases List.mem_append.1 hp with hp | hp
    · exact e.guarded p hp g hg
    · simp_all

/-- Modelled from the spec: `new_group()` issues a fresh group, assumed with positive polarity. -/
def newGroup (e : Engine S) : Engine S where
  clauses := e.clauses
  ngroups := e.ngroups + 1
  polarity := Function.update e.polarity e.ngroups true
  guarded := fun p hp g hg => Nat.lt_succ_of_lt (e.guarded p hp g hg)

/-- The group a call of `new_group()` on `e` issues. -/
def newest (e : Engine S) : Fin e.newGroup.ngroups := ⟨e.ngroups, Nat.lt_succ_self _⟩

/-- Modelled from the spec: assert `c` under the group `g`. -/
def assertIn (e : Engine S) (c : Constraint S) (g : Fin e.ngroups) : Engine S where
  clauses := e.clauses ++ [(some g.val, c)]
  ngroups := e.ngroups
  polarity := e.polarity
  guarded := by
    intro p hp g' hg
    rcases List.mem_append.1 hp with hp | hp
    · exact e.guarded p hp g' hg
    · simp only [List.mem_singleton] at hp
      subst hp
      simp only [Option.mem_def, Option.some.injEq] at hg
      exact hg ▸ g.isLt

/-- Modelled from the spec: `invert_last_group()` flips the polarity of the group issued last. -/
def invertLastGroup (e : Engine S) : Engine S where
  clauses := e.clauses
  ngroups := e.ngroups
  polarity := Function.update e.polarity (e.ngroups - 1) (!e.polarity (e.ngroups - 1))
  guarded := e.guarded

/-! ### What each call does to the enabled constraints -/

@[simp] theorem holds_empty (σ : Int → S) : (empty : Engine S).Holds σ := by
  simp [Holds, empty]

/-- Every call below keeps the constraints already there and the polarity of
the groups already issued, and may append constraints. -/
theorem holds_of_extend {e e' : Engine S} {l : List (Option Nat × Constraint S)} {σ : Int → S}
    (hc : e'.clauses = e.clauses ++ l) (hp : ∀ g < e.ngroups, e'.polarity g = e.polarity g) :
    e'.Holds σ ↔ e.Holds σ ∧ ∀ p ∈ l, e'.enabled p.1 = true → p.2.Holds σ := by
  have old : ∀ p ∈ e.clauses, e'.enabled p.1 = e.enabled p.1 := by
    rintro ⟨_ | g, c⟩ hp'
    · rfl
    · exact hp g (e.guarded _ hp' g rfl)
  simp only [Holds, hc, List.mem_append, or_imp, forall_and]
  exact and_congr_left' (forall₂_congr fun p hp' => by rw [old p hp'])

@[simp] theorem holds_assert (e : Engine S) (c : Constraint S) (σ : Int → S) :
    (e.assert c).Holds σ ↔ e.Holds σ ∧ c.Holds σ := by
  simpa [enabled] using @holds_of_extend _ e (e.assert c) _ σ rfl fun _ _ => rfl

/-- Issuing a group changes nothing that is already asserted. -/
@[simp] theorem holds_newGroup (e : Engine S) (σ : Int → S) :
    e.newGroup.Holds σ ↔ e.Holds σ := by
  simpa using @holds_of_extend _ e e.newGroup [] σ (by simp [newGroup])
    fun g hg => Function.update_noteq hg.ne _ _

@[simp] theorem holds_assertIn_newest (e : Engine S) (c : Constraint S) (σ : Int → S) :
    (e.newGroup.assertIn c e.newest).Holds σ ↔ e.Holds σ ∧ c.Holds σ := by
  simpa [enabled, assertIn, newGroup, newest] using
    @holds_of_extend _ e (e.newGroup.assertIn c e.newest) _ σ rfl
      fun g hg => Function.update_noteq hg.ne _ _

/-- Inverting the group just issued retracts what was asserted under it. -/
@[simp] theorem holds_invertLastGroup_newest (e : Engine S) (c : Constraint S) (σ : Int → S) :
    ((e.newGroup.assertIn c e.newest).invertLastGroup).Holds σ ↔ e.Holds σ := by
  have hp : ∀ g < e.ngroups,
      ((e.newGroup.assertIn c e.newest).invertLastGroup).polarity g = e.polarity g := by
    intro g hg
    simp [invertLastGroup, assertIn, newGroup, Function.update_noteq hg.ne]
  simpa [enabled, invertLastGroup, assertIn, newGroup, newest] using
    @holds_of_extend _ e _ _ σ rfl hp

/-! ### The assertions of the strategies

`assert_formula` asserts a compiled unit, here the state predicate it denotes;
the `assert_fsm_*` calls assert the model's INIT, TRANS and INVAR, and the
uniqueness of two frames, all under `MAINGROUP` unless a group is given. -/

/-- Modelled from the spec: `assert_formula(engine, t, cu)`. -/
def assertFormula (e : Engine S) (t : Int) (cu : S → Bool) : Engine S := e.assert (.state cu t)

/-- Modelled from the spec: `assert_fsm_init(engine, t, g)`. -/
def assertFsmInit (M : Fsm S) (e : Engine S) (t : Int) (g : Fin e.ngroups) : Engine S :=
  e.assertIn (.state M.init t) g

/-- Modelled from the spec: `assert_fsm_trans(engine, t)`, TRANS from frame `t` to frame `t + 1`. -/
def assertFsmTrans (M : Fsm S) (e : Engine S) (t : Int) : Engine S := e.assert (.step M.trans t)

/-- Modelled from the spec: `assert_fsm_invar(engine, t)`. -/
def assertFsmInvar (M : Fsm S) (e : Engine S) (t : Int) : Engine S := e.assert (.state M.invar t)

/-- Modelled from the spec: `assert_fsm_uniqueness(engine, tj, tk)`, the states at `tj` and `tk` differ. -/
def assertFsmUniqueness (e : Engine S) (tj tk : Int) : Engine S := e.assert (.distinct tj tk)

@[simp] theorem holds_assertFormula (e : Engine S) (t : Int) (cu : S → Bool) (σ : Int → S) :
    (e.assertFormula t cu).Holds σ ↔ e.Holds σ ∧ cu (σ t) = true := by
  simp [assertFormula]

@[simp] theorem holds_assertFsmTrans (M : Fsm S) (e : Engine S) (t : Int) (σ : Int → S) :
    (e.assertFsmTrans M t).Holds σ ↔ e.Holds σ ∧ M.trans (σ t) (σ (t + 1)) = true := by
  simp [assertFsmTrans]

@[simp] theorem holds_assertFsmInvar (M : Fsm S) (e : Engine S) (t : Int) (σ : Int → S) :
    (e.assertFsmInvar M t).Holds σ ↔ e.Holds σ ∧ M.invar (σ t) = true := by
  simp [assertFsmInvar]

@[simp] theorem holds_assertFsmUniqueness (e : Engine S) (tj tk : Int) (σ : Int → S) :
    (e.assertFsmUniqueness tj tk).Holds σ ↔ e.Holds σ ∧ σ tj ≠ σ tk := by
  simp [assertFsmUniqueness]

@[simp] theorem holds_assertFsmInit_newest (M : Fsm S) (e : Engine S) (t : Int) (σ : Int → S) :
    (e.newGroup.assertFsmInit M t e.newest).Holds σ ↔ e.Holds σ ∧ M.init (σ t) = true := by
  simp [assertFsmInit]

@[simp] theorem holds_invertLastGroup_assertFsmInit (M : Fsm S) (e : Engine S) (t : Int)
    (σ : Int → S) : ((e.newGroup.assertFsmInit M t e.newest).invertLastGroup).Holds σ ↔ e.Holds σ :=
  holds_invertLastGroup_newest e _ σ

/-- Asserting along a list, as the strategies' `for_each` loops do. -/
theorem holds_foldl {α : Type} (f : Engine S → α → Engine S) (c : α → Constraint S)
    (hf : ∀ e a σ, (f e a).Holds σ ↔ e.Holds σ ∧ (c a).Holds σ) (l : List α) (e : Engine S)
    (σ : Int → S) : (l.foldl f e).Holds σ ↔ e.Holds σ ∧ ∀ a ∈ l, (c a).Holds σ := by
  induction l generalizing e with
  | nil => simp
  | cons a l ih => simp [ih, hf, and_assoc]

end Engine

/-! ### Solvers -/

/-- Modelled from the spec: the answers of `solve()` (`status_t`). -/
inductive SolveStatus where
  /-- `STATUS_SAT`. -/
  | sat
  /-- `STATUS_UNSAT`. -/
  | unsat
  /-- `STATUS_UNKNOWN`: the solver was interrupted. -/
  | unknown
  deriving DecidableEq, Repr

/-- Modelled from the spec: a SAT oracle for engines over `S`: when it answers, its answer is right. -/
structure Solver (S : Type) where
  /-- `solve()`. -/
  solve : Engine S → SolveStatus
  /-- `SAT` only on satisfiable engines. -/
  sat_sound : ∀ e, solve e = .sat → e.Satisfiable
  /-- `UNSAT` only on unsatisfiable engines. -/
  unsat_sound : ∀ e, solve e = .unsat → ¬ e.Satisfiable

/-- A solver that is never interrupted: it answers `SAT` exactly on the
satisfiable engines. -/
def Solver.Complete (O : Solver S) : Prop := ∀ e, O.solve e ≠ .unknown

theorem Solver.solve_eq_unsat {O : Solver S} (hO : O.Complete) {e : Engine S}
    (h : ¬ e.Satisfiable) : O.solve e = .unsat := by
  cases hs : O.solve e with
  | sat => exact absurd (O.sat_sound e hs) h
  | unsat => rfl
  | unknown => exact absurd hs (hO e)

theorem Solver.solve_eq_sat {O : Solver S} (hO : O.Complete) {e : Engine S}
    (h : e.Satisfiable) : O.solve e = .sat := by
  cases hs : O.solve e with
  | sat => rfl
  | unsat => exact absurd h (O.unsat_sound e hs)
  | unknown => exact absurd hs (hO e)

/-! ### A complete solver for finite state spaces

Only the frames an engine mentions matter, so a finite state space is searched
by trying every valuation of those frames. -/

namespace Constraint

/-- The frames a constraint reads. -/
def frames : Constraint S → List Int
  | state _ t => [t]
  | step _ t => [t, t + 1]
  | distinct tj tk => [tj, tk]

/-- Decide `Holds`. -/
def check [DecidableEq S] (σ : Int → S) : Constraint S → Bool
  | state p t => p (σ t)
  | step r t => r (σ t) (σ (t + 1))
  | distinct tj tk => σ tj != σ tk

theorem check_iff [DecidableEq S] (σ : Int → S) (c : Constraint S) :
    c.check σ = true ↔ c.Holds σ := by
  cases c <;> simp [check]

theorem holds_congr {σ σ' : Int → S} {c : Constraint S} (h : ∀ t ∈ c.frames, σ t = σ' t) :
    c.Holds σ ↔ c.Holds σ' := by
  cases c <;> simp_all [frames]

end Constraint

namespace Engine

/-- The frames an engine mentions. -/
def frames (e : Engine S) : List Int := e.clauses.flatMap fun p => p.2.frames

/-- Decide `Holds`. -/
def check [DecidableEq S] (e : Engine S) (σ : Int → S) : Bool :=
  e.clauses.all fun p => !e.enabled p.1 || p.2.check σ

theorem check_iff [DecidableEq S] (e : Engine S) (σ : Int → S) :
    e.check σ = true ↔ e.Holds σ := by
  simp [check, Holds, Constraint.check_iff, imp_iff_not_or]

theorem holds_congr {σ σ' : Int → S} {e : Engine S} (h : ∀ t ∈ e.frames, σ t = σ' t) :
    e.Holds σ ↔ e.Holds σ' :=
  forall₂_congr fun p hp => imp_congr_right fun _ =>
    Constraint.holds_congr fun t ht => h t (List.mem_flatMap.2 ⟨p, hp, ht⟩)

end Engine

/-- Every valuation of the frames `ts` by the states `elems`, `d` elsewhere. -/
def valuations (elems : List S) (d : S) : List Int → List (Int → S)
  | [] => [fun _ => d]
  | t :: ts => (valuations elems d ts).flatMap fun σ => elems.map (Function.update σ t)

theorem exists_mem_valuations {elems : List S} (helems : ∀ s, s ∈ elems) (d : S)
    (σ : Int → S) (ts : List Int) : ∃ σ' ∈ valuations elems d ts, ∀ t ∈ ts, σ' t = σ t := by
  induction ts with
  | nil => exact ⟨_, List.mem_singleton_self _, by simp⟩
  | cons t ts ih =>
    obtain ⟨σ', hσ', hag⟩ := ih
    refine ⟨Function.update σ' t (σ t), List.mem_flatMap.2 ⟨σ', hσ', List.mem_map_of_mem _ (helems _)⟩, ?_⟩
    intro t' ht'
    by_cases h : t' = t
    · rw [h, Function.update_same]
    · simp only [Function.update_noteq h]
      exact hag t' ((List.mem_cons.1 ht').resolve_left h)

/-- Search every valuation of the frames an engine mentions, over a state space
listed by `elems`. -/
def bruteForce [DecidableEq S] (elems : List S) (d : S) (helems : ∀ s, s ∈ elems) :
    Solver S where
  solve e := if (valuations elems d e.frames).any e.check then .sat else .unsat
  sat_sound e h := by
    simp only [ite_eq_left_iff, reduceCtorEq, imp_false, not_not, List.any_eq_true] at h
    obtain ⟨σ, -, hσ⟩ := h
    exact ⟨σ, (e.check_iff σ).1 hσ⟩
  unsat_sound e h := by
    rintro ⟨σ, hσ⟩
    obtain ⟨σ', hσ', hag⟩ := exists_mem_valuations helems d σ e.frames
    have : (valuations elems d e.frames).any e.check = true :=
      List.any_eq_true.2 ⟨σ', hσ', (e.check_iff σ').2 ((Engine.holds_congr hag).2 hσ)⟩
    simp [this] at h

theorem bruteForce_complete [DecidableEq S] (elems : List S) (d : S) (helems : ∀ s, s ∈ elems) :
    (bruteForce elems d helems).Complete := by
  intro e
  simp only [bruteForce]
  split <;> simp

end GnuSmv
