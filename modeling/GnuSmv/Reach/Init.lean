import GnuSmv.Reach.Engine

/-!
# The initial-state consistency check

`CheckInitConsistency::process(constraints)` (`src/algorithms/fsm/init.cc`)
asks whether the model has an initial state at all.  It compiles each
constraint it is given and appends the unit to its member `f_constraint_cus`,
then builds a fresh engine, asserts INIT and INVAR at frame `0` and every unit
of `f_constraint_cus` at frame `0`, all under `MAINGROUP`, and maps the
solver's answer to `FSM_CONSISTENCY_OK`, `FSM_CONSISTENCY_KO` or
`FSM_CONSISTENCY_UNDECIDED` in `f_status`.

`f_constraint_cus` is never cleared, so each call checks the constraints of
every earlier call as well.  A compiled constraint is read, as in the
reachability strategies, as the state predicate it denotes.

## Main definitions

* `FsmConsistency` — the status of the check.
* `Engine.assertFsmInitMain` — `assert_fsm_init(engine, t)` under the default `MAINGROUP`.
* `CheckInitConsistency`, `CheckInitConsistency.process` — the checker's state and its one call.

## Main results

* `CheckInitConsistency.process_run` — **after any sequence of calls, `OK`
  only when some initial state satisfies INVAR and every constraint given so
  far, `KO` only when none does**, and `UNDECIDED` only from an interrupted
  solver.
-/

namespace GnuSmv

variable {S : Type}

/-- Modelled from the spec: `fsm_consistency_t`. -/
inductive FsmConsistency where
  /-- `FSM_CONSISTENCY_UNDECIDED`. -/
  | undecided
  /-- `FSM_CONSISTENCY_OK`. -/
  | ok
  /-- `FSM_CONSISTENCY_KO`. -/
  | ko
  deriving DecidableEq, Repr

/-- Modelled from the spec: `assert_fsm_init(engine, t)`, whose group defaults to `MAINGROUP`. -/
def Engine.assertFsmInitMain (M : Fsm S) (e : Engine S) (t : Int) : Engine S := e.assert (.state M.init t)

@[simp] theorem Engine.holds_assertFsmInitMain (M : Fsm S) (e : Engine S) (t : Int) (σ : Int → S) :
    (e.assertFsmInitMain M t).Holds σ ↔ e.Holds σ ∧ M.init (σ t) = true := by
  simp [Engine.assertFsmInitMain]

/-- The state of a `CheckInitConsistency` algorithm. -/
structure CheckInitConsistency (S : Type) where
  /-- `f_constraint_cus`: every constraint compiled so far. -/
  constraintCus : List (S → Bool)
  /-- `f_status`. -/
  status : FsmConsistency

namespace CheckInitConsistency

section Check

variable (O : Solver S) (M : Fsm S)

/-- The constructor: no constraint, `FSM_CONSISTENCY_UNDECIDED`. -/
def create : CheckInitConsistency S := ⟨[], .undecided⟩

/-- The engine `process` solves: INIT and INVAR at frame `0`, then each unit of
`f_constraint_cus` at frame `0`. -/
def initEngine (cus : List (S → Bool)) : Engine S :=
  cus.foldl (fun e cu => e.assertFormula 0 cu) ((Engine.empty.assertFsmInitMain M 0).assertFsmInvar M 0)

/-- `CheckInitConsistency::process(constraints)`. -/
def process (st : CheckInitConsistency S) (constraints : List (S → Bool)) : CheckInitConsistency S :=
  let cus := st.constraintCus ++ constraints
  ⟨cus, match O.solve (initEngine M cus) with
    | .unknown => .undecided
    | .unsat => .ko
    | .sat => .ok⟩

/-- The engine of `process` is satisfiable exactly when some state is initial
and satisfies INVAR and every unit: its constraints all read frame `0`. -/
theorem satisfiable_initEngine (cus : List (S → Bool)) :
    (initEngine M cus).Satisfiable ↔
      ∃ s, M.init s = true ∧ M.invar s = true ∧ ∀ cu ∈ cus, cu s = true := by
  have hholds : ∀ σ : Int → S, (initEngine M cus).Holds σ ↔
      M.init (σ 0) = true ∧ M.invar (σ 0) = true ∧ ∀ cu ∈ cus, cu (σ 0) = true := by
    intro σ
    rw [initEngine, Engine.holds_foldl _ (fun cu => .state cu 0)
      (fun e cu σ => Engine.holds_assertFormula e 0 cu σ)]
    simp [and_assoc]
  constructor
  · rintro ⟨σ, hσ⟩
    exact ⟨σ 0, (hholds σ).1 hσ⟩
  · rintro ⟨s, hs⟩
    exact ⟨fun _ => s, (hholds _).2 hs⟩

/-- A run of calls accumulates its constraints. -/
theorem constraintCus_run (calls : List (List (S → Bool))) (st : CheckInitConsistency S) :
    (calls.foldl (process O M) st).constraintCus = st.constraintCus ++ calls.flatten := by
  induction calls generalizing st with
  | nil => simp
  | cons c calls ih => simp [ih, process]

/-- What one call answers, from the constraints it ends up with. -/
theorem status_process (st : CheckInitConsistency S) (constraints : List (S → Bool)) :
    ((st.process O M constraints).status = .ok →
        ∃ s, M.init s = true ∧ M.invar s = true ∧
          ∀ cu ∈ (st.process O M constraints).constraintCus, cu s = true) ∧
      ((st.process O M constraints).status = .ko →
        ¬ ∃ s, M.init s = true ∧ M.invar s = true ∧
          ∀ cu ∈ (st.process O M constraints).constraintCus, cu s = true) ∧
      (O.Complete → (st.process O M constraints).status ≠ .undecided) := by
  simp only [process, ← satisfiable_initEngine]
  cases h : O.solve (initEngine M (st.constraintCus ++ constraints))
  · exact ⟨fun _ => O.sat_sound _ h, nofun, fun _ => nofun⟩
  · exact ⟨nofun, fun _ => O.unsat_sound _ h, fun _ => nofun⟩
  · exact ⟨nofun, nofun, fun hO => absurd h (hO _)⟩

/-- **Every answer of the check is right, for the constraints of every call so
far.**  After any sequence of calls from the constructed state, `OK` means
some initial state satisfies INVAR and every constraint given to any of the
calls, `KO` that none does, and with a solver that is never interrupted the
status is decided once a call has been made. -/
theorem process_run (calls : List (List (S → Bool))) :
    ((calls.foldl (process O M) create).status = .ok →
        ∃ s, M.init s = true ∧ M.invar s = true ∧ ∀ cu ∈ calls.flatten, cu s = true) ∧
      ((calls.foldl (process O M) create).status = .ko →
        ¬ ∃ s, M.init s = true ∧ M.invar s = true ∧ ∀ cu ∈ calls.flatten, cu s = true) ∧
      (O.Complete → calls ≠ [] → (calls.foldl (process O M) create).status ≠ .undecided) := by
  -- the status is the last call's, on the constraints of every call
  obtain rfl | ⟨calls, c, rfl⟩ := calls.eq_nil_or_concat
  · simp [create]
  · have hcus := constraintCus_run O M (calls.concat c) create
    rw [List.concat_eq_append, List.foldl_append, List.foldl_cons, List.foldl_nil] at hcus ⊢
    obtain ⟨hok, hko, hund⟩ := status_process O M (calls.foldl (process O M) create) c
    rw [hcus] at hok hko
    simp only [create, List.nil_append] at hok hko
    exact ⟨hok, hko, fun hO _ => hund hO⟩

end Check

end CheckInitConsistency

end GnuSmv
