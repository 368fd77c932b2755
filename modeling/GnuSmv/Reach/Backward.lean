import GnuSmv.Reach.Engine
import Mathlib.Data.Fintype.Card

/-!
# The backward BMC strategy

`Reachability::backward_strategy` (`src/unnamed/part_001`, `bmc/backward.cc`)
unrolls the model backwards from the target.  The target, INVAR and the
backward and global constraints are asserted at `UINT_MAX`; then, at each
value of its counter `k`, the strategy asks for a witness — INIT at
`UINT_MAX - k` under a fresh group — and, if there is none, retracts that
group, unrolls one more frame (TRANS, INVAR, the global constraints and
uniqueness against every frame already visited) and asks whether the backward
frontier is empty.

The strategy shares its status with the other strategies through
`sync_status` and `sync_set_status`, which are not under `src/`.  The spec
(§5) makes `sync_set_status` a compare-and-set that succeeds only while the
status is unknown; the other strategies are a schedule `peer`, where `peer n`
is the status some other strategy sets right before the backward strategy's
`n`-th synchronisation.

## Main definitions

* `backwardStrategy` — the strategy, run with `fuel` iterations of its do-loop.
* `backwardEngine k`, `Frontier k` — the engine at counter `k`, and what it enforces.
* `Decided` — a run that ended on its own `sync_set_status` decision.
* `IsPath s n` — an `n`-step path from INIT to the target.

## Main results

* `backwardStrategy_sound` — **every `sync_set_status` call is sound**:
  `UNREACHABLE` only when no path exists, `REACHABLE` at counter `k` only
  when a `k`-step path exists.
* `holds_backwardEngine` — the engine the do-loop holds at counter `k`
  enforces the frontier at `k`.
* `backwardStrategy_decides` — **on `N` states the strategy decides with
  `k ≤ N`**, given a complete solver and no interference: its last call sets
  the status it ends with.
-/

namespace GnuSmv

/-- The shared status of a reachability analysis (`reachability_status_t`). -/
inductive ReachabilityStatus where
  /-- `REACHABILITY_UNKNOWN`. -/
  | unknown
  /-- `REACHABILITY_REACHABLE`. -/
  | reachable
  /-- `REACHABILITY_UNREACHABLE`. -/
  | unreachable
  /-- `REACHABILITY_ERROR`. -/
  | error
  deriving DecidableEq, Repr

/-- The state the strategies share: the status, and how many times the backward
strategy has synchronised on it. -/
structure Shared where
  /-- The shared status. -/
  status : ReachabilityStatus
  /-- The backward strategy's synchronisations so far. -/
  tick : Nat
  deriving DecidableEq, Repr

namespace Shared

/-- Modelled from the spec: the compare-and-set of the shared status, which
takes `s` only while the status is unknown. -/
def cas (st s : ReachabilityStatus) : ReachabilityStatus :=
  if st = .unknown then s else st

/-- The other strategies run up to the backward strategy's next synchronisation. -/
def interleave (peer : Nat → Option ReachabilityStatus) (w : Shared) : Shared where
  status := match peer w.tick with
    | some s => cas w.status s
    | none => w.status
  tick := w.tick + 1

/-- Modelled from the spec: `sync_status()`. -/
def syncStatus (peer : Nat → Option ReachabilityStatus) (w : Shared) :
    ReachabilityStatus × Shared :=
  let w := w.interleave peer
  (w.status, w)

/-- Modelled from the spec: `sync_set_status(s)` sets the status only while it
is unknown, and says whether this call set it. -/
def syncSetStatus (peer : Nat → Option ReachabilityStatus) (s : ReachabilityStatus)
    (w : Shared) : Bool × Shared :=
  let w := w.interleave peer
  if w.status = .unknown then (true, { w with status := s }) else (false, w)

end Shared

/-- What a run of the strategy leaves behind. -/
structure Outcome where
  /-- The `sync_set_status` calls made, each with the counter `k` at the call. -/
  calls : List (ReachabilityStatus × Nat)
  /-- The counter `k` when the strategy stops. -/
  k : Nat
  /-- The shared state when it stops. -/
  shared : Shared
  /-- Whether it reached `cleanup` within the fuel. -/
  done : Bool
  deriving DecidableEq, Repr

variable {S : Type}

/-- The frame of the `k`-th backward step, `UINT_MAX - k`. -/
def frame (k : Nat) : Int := UINT_MAX - k

@[simp] theorem frame_zero : frame 0 = UINT_MAX := by simp [frame]

theorem frame_succ_add_one (k : Nat) : frame (k + 1) + 1 = frame k := by
  simp [frame]; omega

theorem frame_injective : Function.Injective frame := by
  intro a b h; simp [frame] at h; exact_mod_cast h

section Strategy

variable (O : Solver S) (M : Fsm S) (target : S → Bool) (negative globally : List (S → Bool))
  (peer : Nat → Option ReachabilityStatus)

/-- The goal state constraints of lines 41-54, all at `UINT_MAX`. -/
def assertGoal (e : Engine S) : Engine S :=
  let e := (e.assertFormula UINT_MAX target).assertFsmInvar M UINT_MAX
  let e := negative.foldl (fun e cu => e.assertFormula UINT_MAX cu) e
  globally.foldl (fun e cu => e.assertFormula UINT_MAX cu) e

/-- Lines 136-148, once the counter has become `k`: TRANS, INVAR and the global
constraints at `UINT_MAX - k`, and uniqueness against every frame `j < k`. -/
def unrollTo (k : Nat) (e : Engine S) : Engine S :=
  let e := (e.assertFsmTrans M (frame k)).assertFsmInvar M (frame k)
  let e := globally.foldl (fun e cu => e.assertFormula (frame k) cu) e
  (List.range k).foldl (fun e j => e.assertFsmUniqueness (frame j) (frame k)) e

/-- The witness query at counter `k`: INIT at `UINT_MAX - k` under a fresh group. -/
def witnessQuery (k : Nat) (e : Engine S) : Engine S := e.newGroup.assertFsmInit M (frame k) e.newest

/-- The engine the do-loop holds at counter `k`, outside the witness query's
group: the goal of lines 41-54, then, at each refuted witness query, that
group retracted and one more frame unrolled. -/
def backwardEngine : Nat → Engine S
  | 0 => assertGoal M target negative globally Engine.empty
  | k + 1 => unrollTo M globally (k + 1) (witnessQuery M k (backwardEngine k)).invertLastGroup

/-- The loop condition `while (sync_status() == REACHABILITY_UNKNOWN)`. -/
def loopCondition (next : Shared → Outcome) (calls : List (ReachabilityStatus × Nat))
    (k : Nat) (w : Shared) : Outcome :=
  let (st, w) := w.syncStatus peer
  if st = .unknown then next w else ⟨calls, k, w, true⟩

/-- The do-loop of lines 78-184, for at most `fuel` iterations, from counter
`k`, engine `e`, shared state `w` and the calls made so far. -/
def backwardLoop : Nat → Nat → Engine S → Shared → List (ReachabilityStatus × Nat) → Outcome
  | 0, k, _, w, calls => ⟨calls, k, w, false⟩
  | fuel + 1, k, e, w, calls =>
    -- looking for a witness: INIT at `UINT_MAX - k` under a fresh group
    let e := witnessQuery M k e
    match O.solve e with
    | .unknown => ⟨calls, k, w, true⟩
    | .sat =>
      let (won, w) := w.syncSetStatus peer .reachable
      let calls := calls ++ [(.reachable, k)]
      if won then ⟨calls, k, w, true⟩
      else loopCondition peer (fun w => backwardLoop fuel k e w calls) calls k w
    | .unsat =>
      -- retract INIT, unroll one more frame
      let e := unrollTo M globally (k + 1) e.invertLastGroup
      let (st, w) := w.syncStatus peer
      if st ≠ .unknown then ⟨calls, k + 1, w, true⟩
      else
        -- looking for an unreachability proof
        match O.solve e with
        | .unknown => ⟨calls, k + 1, w, true⟩
        | .sat => loopCondition peer (fun w => backwardLoop fuel (k + 1) e w calls) calls (k + 1) w
        | .unsat =>
          let (_, w) := w.syncSetStatus peer .unreachable
          ⟨calls ++ [(.unreachable, k + 1)], k + 1, w, true⟩

/-- `Reachability::backward_strategy()`, with `fuel` iterations of its do-loop. -/
def backwardStrategy (fuel : Nat) : Outcome :=
  let w : Shared := ⟨.unknown, 0⟩
  let e := assertGoal M target negative globally Engine.empty
  match O.solve e with
  | .unknown => ⟨[], 0, w, true⟩
  | .unsat =>
    let (_, w) := w.syncSetStatus peer .unreachable
    ⟨[(.unreachable, 0)], 0, w, true⟩
  | .sat => backwardLoop O M globally peer fuel 0 e w []

end Strategy

/-! ### Paths and the backward frontier -/

section Semantics

variable (M : Fsm S) (target : S → Bool) (negative globally : List (S → Bool))

/-- `s` is an `n`-step path from an initial state to the target: TRANS between
consecutive states, INVAR and the global constraints at every state, the target
and the backward constraints at the last one. -/
def IsPath (s : Nat → S) (n : Nat) : Prop :=
  M.init (s 0) = true ∧ (∀ i < n, M.trans (s i) (s (i + 1)) = true) ∧
    (∀ i ≤ n, M.invar (s i) = true ∧ ∀ cu ∈ globally, cu (s i) = true) ∧
    target (s n) = true ∧ ∀ cu ∈ negative, cu (s n) = true

/-- What the engine enforces, outside the INIT groups, once the counter is `k`:
the goal at `UINT_MAX`, INVAR and the global constraints at every visited frame,
TRANS between consecutive frames, and uniqueness of every pair of frames. -/
def Frontier (k : Nat) (σ : Int → S) : Prop :=
  (target (σ UINT_MAX) = true ∧ ∀ cu ∈ negative, cu (σ UINT_MAX) = true) ∧
    (∀ i ≤ k, M.invar (σ (frame i)) = true ∧ ∀ cu ∈ globally, cu (σ (frame i)) = true) ∧
    (∀ i < k, M.trans (σ (frame (i + 1))) (σ (frame i)) = true) ∧
    ∀ j i, j < i → i ≤ k → σ (frame j) ≠ σ (frame i)

/-- No state repeats along the first `n` steps of `s`. -/
def Simple (s : Nat → S) (n : Nat) : Prop := ∀ i j, i < j → j ≤ n → s i ≠ s j

/-- The run ended on its own decision at the counter it stopped at: its last
`sync_set_status` call set the status it ends with, `REACHABLE` with the
witness query at that counter satisfiable, or `UNREACHABLE` with the engine at
that counter unsatisfiable. -/
def Decided (out : Outcome) : Prop :=
  out.done = true ∧
    ((out.shared.status = .reachable ∧ out.calls.getLast? = some (.reachable, out.k) ∧
        (witnessQuery M out.k (backwardEngine M target negative globally out.k)).Satisfiable) ∨
      (out.shared.status = .unreachable ∧ out.calls.getLast? = some (.unreachable, out.k) ∧
        ¬ (backwardEngine M target negative globally out.k).Satisfiable))

variable {M target negative globally}

theorem frontier_succ {k : Nat} {σ : Int → S} :
    Frontier M target negative globally (k + 1) σ ↔
      Frontier M target negative globally k σ ∧
        M.trans (σ (frame (k + 1))) (σ (frame k)) = true ∧
        (M.invar (σ (frame (k + 1))) = true ∧ ∀ cu ∈ globally, cu (σ (frame (k + 1))) = true) ∧
        ∀ j < k + 1, σ (frame j) ≠ σ (frame (k + 1)) := by
  constructor
  · rintro ⟨hg, hinv, htr, hu⟩
    exact ⟨⟨hg, fun i hi => hinv i (by omega), fun i hi => htr i (by omega),
      fun j i hji hik => hu j i hji (by omega)⟩, htr k (by omega), hinv (k + 1) le_rfl,
      fun j hj => hu j (k + 1) hj le_rfl⟩
  · rintro ⟨⟨hg, hinv, htr, hu⟩, ht, hi, hu'⟩
    refine ⟨hg, fun i hi' => ?_, fun i hi' => ?_, fun j i hji hik => ?_⟩
    · rcases Nat.le_succ_iff.1 hi' with h | rfl
      exacts [hinv i h, hi]
    · rcases Nat.lt_succ_iff_lt_or_eq.1 hi' with h | rfl
      exacts [htr i h, ht]
    · rcases Nat.le_succ_iff.1 hik with h | rfl
      exacts [hu j i hji h, hu' j hji]

/-- On `N` states, `k + 1` pairwise distinct frames need `k < N`. -/
theorem Frontier.lt_card [Fintype S] {k : Nat} {σ : Int → S}
    (h : Frontier M target negative globally k σ) : k < Fintype.card S := by
  have hinj : Function.Injective fun i : Fin (k + 1) => σ (frame i) := by
    intro a b hab
    by_contra hne
    rcases Nat.lt_or_gt_of_ne (Fin.val_ne_of_ne hne) with hlt | hlt
    · exact h.2.2.2 a b hlt (by omega) hab
    · exact h.2.2.2 b a hlt (by omega) hab.symm
  simpa using Fintype.card_le_of_injective _ hinj

theorem frame_toNat (i : Nat) : (UINT_MAX - frame i).toNat = i := by simp [frame]

/-- A frontier that meets INIT is a path, read from `UINT_MAX - k` up to `UINT_MAX`. -/
theorem isPath_of_frontier {k : Nat} {σ : Int → S}
    (h : Frontier M target negative globally k σ) (hinit : M.init (σ (frame k)) = true) :
    IsPath M target negative globally (fun i => σ (frame (k - i))) k := by
  obtain ⟨⟨ht, hn⟩, hinv, htr, -⟩ := h
  refine ⟨by simpa using hinit, fun i hi => ?_, fun i hi => hinv (k - i) (by omega), ?_⟩
  · have := htr (k - (i + 1)) (by omega)
    rwa [show k - (i + 1) + 1 = k - i by omega] at this
  · simpa using And.intro ht hn

/-- The last `k + 1` states of a simple path satisfy the frontier at `k`. -/
theorem frontier_of_isPath {s : Nat → S} {n k : Nat}
    (h : IsPath M target negative globally s n) (hs : Simple s n) (hk : k ≤ n) :
    Frontier M target negative globally k (fun t => s (n - (UINT_MAX - t).toNat)) := by
  obtain ⟨-, htr, hinv, ht, hn⟩ := h
  dsimp only [Frontier]
  simp only [frame_toNat]
  refine ⟨by simpa [UINT_MAX] using And.intro ht hn, fun i hi => hinv (n - i) (by omega),
    fun i hi => ?_, fun j i hji hik => hs (n - i) (n - j) (by omega) (by omega) ∘ Eq.symm⟩
  have := htr (n - (i + 1)) (by omega)
  rwa [show n - (i + 1) + 1 = n - i by omega] at this

/-- Cutting the loop between two equal states `s a = s b` (`a < b`) out of a path. -/
theorem IsPath.splice {s : Nat → S} {n a b : Nat} (h : IsPath M target negative globally s n)
    (hab : a < b) (hbn : b ≤ n) (heq : s a = s b) :
    IsPath M target negative globally (fun m => if m ≤ a then s m else s (m + (b - a)))
      (n - (b - a)) := by
  obtain ⟨hi, htr, hinv, ht, hn⟩ := h
  have hlast : (if n - (b - a) ≤ a then s (n - (b - a)) else s (n - (b - a) + (b - a))) = s n := by
    split_ifs with h
    · rw [show n - (b - a) = a by omega, heq, show b = n by omega]
    · rw [show n - (b - a) + (b - a) = n by omega]
  refine ⟨by simpa using hi, fun m hm => ?_, fun m hm => ?_, by dsimp only; rw [hlast]; exact ht,
    by dsimp only; rw [hlast]; exact hn⟩
  · by_cases h1 : m + 1 ≤ a
    · simpa [h1, show m ≤ a by omega] using htr m (by omega)
    · by_cases h2 : m ≤ a
      · have hm : m = a := by omega
        subst hm
        simpa [h1, heq, show m + 1 + (b - m) = b + 1 by omega] using htr b (by omega)
      · simpa [h1, h2, show m + 1 + (b - a) = m + (b - a) + 1 by omega] using
          htr (m + (b - a)) (by omega)
  · dsimp only
    split_ifs
    · exact hinv m (by omega)
    · exact hinv _ (by omega)

/-- A shortest path is simple: every path can be shortened to a simple one. -/
theorem exists_simple_path : ∀ (n : Nat) (s : Nat → S), IsPath M target negative globally s n →
    ∃ s' n', n' ≤ n ∧ IsPath M target negative globally s' n' ∧ Simple s' n' := by
  intro n
  induction n using Nat.strong_induction_on with
  | _ n ih =>
    intro s hs
    by_cases hsimp : Simple s n
    · exact ⟨s, n, le_rfl, hs, hsimp⟩
    · simp only [Simple, not_forall, not_not] at hsimp
      obtain ⟨a, b, hab, hbn, heq⟩ := hsimp
      obtain ⟨s', n', hn', hs', hsimp'⟩ :=
        ih (n - (b - a)) (by omega) _ (hs.splice hab hbn heq)
      exact ⟨s', n', by omega, hs', hsimp'⟩

/-- **The recurrence-diameter argument.**  If the frontier at `k` is empty and no
shorter frontier met INIT, there is no path at all. -/
theorem not_isPath_of_refuted {k : Nat}
    (hk : ¬ ∃ σ, Frontier M target negative globally k σ)
    (hw : ∀ j < k, ¬ ∃ σ, Frontier M target negative globally j σ ∧ M.init (σ (frame j)) = true) :
    ¬ ∃ s n, IsPath M target negative globally s n := by
  rintro ⟨s, n, hs⟩
  obtain ⟨s', n', -, hs', hsimp⟩ := exists_simple_path n s hs
  by_cases hn : n' < k
  · refine hw n' hn ⟨_, frontier_of_isPath hs' hsimp le_rfl, ?_⟩
    simpa [frame_toNat] using hs'.1
  · exact hk ⟨_, frontier_of_isPath hs' hsimp (by omega)⟩

end Semantics

/-! ### The engine along a run -/

namespace Shared

variable {peer : Nat → Option ReachabilityStatus} {w : Shared}

/-- A decided status stays decided. -/
theorem interleave_status_of_ne (h : w.status ≠ .unknown) :
    (w.interleave peer).status = w.status := by
  simp only [interleave]
  split <;> simp [cas, h]

@[simp] theorem interleave_status_none : (w.interleave fun _ => none).status = w.status := rfl

theorem syncSetStatus_status_of_false {s : ReachabilityStatus}
    (h : (w.syncSetStatus peer s).1 = false) : (w.syncSetStatus peer s).2.status ≠ .unknown := by
  by_cases hu : (w.interleave peer).status = .unknown <;> simp_all [syncSetStatus]

end Shared

section Run

variable {O : Solver S} {M : Fsm S} {target : S → Bool} {negative globally : List (S → Bool)}
  {peer : Nat → Option ReachabilityStatus}

theorem holds_assertGoal_empty (σ : Int → S) :
    (assertGoal M target negative globally Engine.empty).Holds σ ↔
      Frontier M target negative globally 0 σ := by
  simp only [assertGoal, Frontier, Engine.holds_foldl _ (fun cu => Constraint.state cu _)
    (fun e cu σ => Engine.holds_assertFormula e _ cu σ), Engine.holds_assertFsmInvar,
    Engine.holds_assertFormula, Engine.holds_empty, Constraint.holds_state, Nat.le_zero,
    forall_eq, frame_zero, Nat.not_lt_zero, false_imp_iff, implies_true, true_and, and_true]
  constructor
  · rintro ⟨⟨⟨ht, hi⟩, hn⟩, hg⟩
    exact ⟨⟨ht, hn⟩, ⟨hi, hg⟩, fun j i hji hi0 => absurd hji (by omega)⟩
  · rintro ⟨⟨ht, hn⟩, ⟨hi, hg⟩, -⟩
    exact ⟨⟨⟨ht, hi⟩, hn⟩, hg⟩

theorem holds_unrollTo_succ {k : Nat} {e : Engine S}
    (h : ∀ σ, e.Holds σ ↔ Frontier M target negative globally k σ) (σ : Int → S) :
    (unrollTo M globally (k + 1) e).Holds σ ↔ Frontier M target negative globally (k + 1) σ := by
  simp only [unrollTo, Engine.holds_foldl _ (fun j => Constraint.distinct (frame j) (frame (k + 1)))
    (fun e j σ => Engine.holds_assertFsmUniqueness e _ _ σ),
    Engine.holds_foldl _ (fun cu => Constraint.state cu _)
    (fun e cu σ => Engine.holds_assertFormula e _ cu σ), Engine.holds_assertFsmInvar,
    Engine.holds_assertFsmTrans, Constraint.holds_state, Constraint.holds_distinct, List.mem_range,
    frame_succ_add_one, h, frontier_succ, and_assoc]

/-- **The engine at counter `k` enforces the frontier at `k`.** -/
theorem holds_backwardEngine : ∀ (k : Nat) (σ : Int → S),
    (backwardEngine M target negative globally k).Holds σ ↔ Frontier M target negative globally k σ
  | 0 => holds_assertGoal_empty
  | k + 1 => holds_unrollTo_succ fun σ => by simp [witnessQuery, holds_backwardEngine k σ]

theorem backwardEngine_succ (k : Nat) :
    backwardEngine M target negative globally (k + 1) =
      unrollTo M globally (k + 1) (witnessQuery M k (backwardEngine M target negative globally k)).invertLastGroup :=
  rfl

/-- The invariant of the do-loop at counter `k`: the engine enforces exactly
the frontier at `k`, and no shorter frontier met INIT. -/
structure LoopInv (M : Fsm S) (target : S → Bool) (negative globally : List (S → Bool))
    (k : Nat) (e : Engine S) : Prop where
  holds : ∀ σ, e.Holds σ ↔ Frontier M target negative globally k σ
  refuted : ∀ j < k, ¬ ∃ σ, Frontier M target negative globally j σ ∧ M.init (σ (frame j)) = true

theorem LoopInv.init_holds {k : Nat} {e : Engine S} (h : LoopInv M target negative globally k e)
    (σ : Int → S) : (witnessQuery M k e).Holds σ ↔
      Frontier M target negative globally k σ ∧ M.init (σ (frame k)) = true := by
  simp [witnessQuery, h.holds]

/-- One unrolling keeps the invariant once the witness query at `k` is refuted. -/
theorem LoopInv.unroll {k : Nat} {e : Engine S} (h : LoopInv M target negative globally k e)
    (hw : ¬ (witnessQuery M k e).Satisfiable) :
    LoopInv M target negative globally (k + 1)
      (unrollTo M globally (k + 1) (witnessQuery M k e).invertLastGroup) where
  holds := holds_unrollTo_succ fun σ => by simp [witnessQuery, h.holds]
  refuted j hj := by
    rcases Nat.lt_succ_iff_lt_or_eq.1 hj with hj | rfl
    · exact h.refuted j hj
    · rintro ⟨σ, hσ⟩
      exact hw ⟨σ, (h.init_holds σ).2 hσ⟩

/-- A `sync_set_status` call is sound: `UNREACHABLE` only when there is no path,
`REACHABLE` at counter `k` only when there is a `k`-step path. -/
def SoundCall (M : Fsm S) (target : S → Bool) (negative globally : List (S → Bool))
    (c : ReachabilityStatus × Nat) : Prop :=
  (c.1 = .unreachable → ¬ ∃ s n, IsPath M target negative globally s n) ∧
    (c.1 = .reachable → ∃ s, IsPath M target negative globally s c.2)

theorem loopCondition_calls (P : List (ReachabilityStatus × Nat) → Prop) {next : Shared → Outcome}
    {calls : List (ReachabilityStatus × Nat)} {k : Nat} {w : Shared} (hc : P calls)
    (hn : ∀ w, P (next w).calls) : P (loopCondition peer next calls k w).calls := by
  simp only [loopCondition]
  split
  · exact hn _
  · exact hc

theorem loopCondition_of_ne {next : Shared → Outcome} {calls : List (ReachabilityStatus × Nat)}
    {k : Nat} {w : Shared} (h : w.status ≠ .unknown) :
    loopCondition peer next calls k w = ⟨calls, k, w.interleave peer, true⟩ := by
  simp [loopCondition, Shared.syncStatus, Shared.interleave_status_of_ne h, h]

/-- Every call the do-loop makes is sound. -/
theorem backwardLoop_sound : ∀ (fuel k : Nat) (e : Engine S) (w : Shared)
    (calls : List (ReachabilityStatus × Nat)), LoopInv M target negative globally k e →
    (∀ c ∈ calls, SoundCall M target negative globally c) →
    ∀ c ∈ (backwardLoop O M globally peer fuel k e w calls).calls,
      SoundCall M target negative globally c := by
  intro fuel
  induction fuel with
  | zero => intro k e w calls _ hc; simpa [backwardLoop] using hc
  | succ fuel ih =>
    intro k e w calls hinv hc
    cases hs : O.solve (witnessQuery M k e) with
    | unknown => simpa [backwardLoop, hs] using hc
    | sat =>
      -- the witness query is satisfiable: a `k`-step path exists
      obtain ⟨σ, hσ⟩ := O.sat_sound _ hs
      obtain ⟨hf, hi⟩ := (hinv.init_holds σ).1 hσ
      have hc' : ∀ c ∈ calls ++ [(.reachable, k)], SoundCall M target negative globally c := by
        simp only [List.mem_append, List.mem_singleton]
        rintro c (hc0 | rfl)
        · exact hc c hc0
        · exact ⟨by simp, fun _ => ⟨_, isPath_of_frontier hf hi⟩⟩
      simp only [backwardLoop, hs]
      split
      · exact hc'
      · rename_i hwon
        rw [loopCondition_of_ne (Shared.syncSetStatus_status_of_false (Bool.eq_false_iff.2 hwon))]
        exact hc'
    | unsat =>
      have hinv' := hinv.unroll (O.unsat_sound _ hs)
      simp only [backwardLoop, hs]
      split
      · exact hc
      · split
        · exact hc
        · exact loopCondition_calls (fun l => ∀ c ∈ l, SoundCall M target negative globally c) hc
            fun w => ih _ _ _ _ hinv' hc
        · -- the frontier at `k + 1` is empty: no path at all
          have hk : ¬ ∃ σ, Frontier M target negative globally (k + 1) σ := fun ⟨σ, hσ⟩ =>
            O.unsat_sound _ ‹_› ⟨σ, (hinv'.holds σ).2 hσ⟩
          simp only [List.mem_append, List.mem_singleton]
          rintro c (hc0 | rfl)
          · exact hc c hc0
          · exact ⟨fun _ => not_isPath_of_refuted hk hinv'.refuted, by simp⟩

/-- The engine of lines 41-54 enforces the frontier at counter `0`. -/
theorem loopInv_assertGoal :
    LoopInv M target negative globally 0 (assertGoal M target negative globally Engine.empty) :=
  ⟨holds_assertGoal_empty, fun j hj => absurd hj (Nat.not_lt_zero j)⟩

/-- Without interference and with a complete solver, the do-loop started at
counter `k` on the engine of counter `k`, whose frontier is not empty, ends on
its own decision within the fuel, below the number of states: by the time its
counter would pass it, the frontier is empty. -/
theorem backwardLoop_decides [Fintype S] (hO : O.Complete) : ∀ (fuel k : Nat) (w : Shared)
    (calls : List (ReachabilityStatus × Nat)), (backwardEngine M target negative globally k).Satisfiable →
    w.status = .unknown → Fintype.card S ≤ k + fuel →
    Decided M target negative globally
        (backwardLoop O M globally (fun _ => none) fuel k (backwardEngine M target negative globally k) w calls) ∧
      (backwardLoop O M globally (fun _ => none) fuel k (backwardEngine M target negative globally k) w
        calls).k ≤ Fintype.card S := by
  intro fuel
  induction fuel with
  | zero => intro k w calls ⟨σ, hσ⟩ _ hN; have := ((holds_backwardEngine k σ).1 hσ).lt_card; omega
  | succ fuel ih =>
    intro k w calls ⟨σ, hσ⟩ hw hN
    have hk := ((holds_backwardEngine k σ).1 hσ).lt_card
    by_cases hsat : (witnessQuery M k (backwardEngine M target negative globally k)).Satisfiable
    · -- a witness: `REACHABLE` is set at `k`
      simp only [backwardLoop, O.solve_eq_sat hO hsat, Shared.syncSetStatus,
        Shared.interleave_status_none, hw]
      simp [Decided, hsat]; omega
    · by_cases hsat' : (backwardEngine M target negative globally (k + 1)).Satisfiable
      · -- the frontier at `k + 1` is not empty: one more iteration
        simp only [backwardLoop, O.solve_eq_unsat hO hsat, ← backwardEngine_succ, O.solve_eq_sat hO hsat',
          Shared.syncStatus, Shared.interleave_status_none, hw, loopCondition]
        exact ih _ _ _ hsat' hw (by omega)
      · -- the frontier at `k + 1` is empty: `UNREACHABLE` is set at `k + 1`
        simp only [backwardLoop, O.solve_eq_unsat hO hsat, ← backwardEngine_succ,
          O.solve_eq_unsat hO hsat', Shared.syncStatus, Shared.syncSetStatus,
          Shared.interleave_status_none, hw]
        simp [Decided, hsat']; omega

end Run

/-! ### The strategy -/

/-- **Every `sync_set_status` call of the backward strategy is sound**, for every
solver whose answers are right, every model, target and constraints, every
schedule of the other strategies and every number of iterations: it sets
`UNREACHABLE` only when no path of any length reaches the target, and
`REACHABLE` at counter `k` only when a `k`-step path does. -/
theorem backwardStrategy_sound (O : Solver S) (M : Fsm S) (target : S → Bool)
    (negative globally : List (S → Bool)) (peer : Nat → Option ReachabilityStatus) (fuel : Nat) :
    ∀ c ∈ (backwardStrategy O M target negative globally peer fuel).calls,
      (c.1 = .unreachable → ¬ ∃ s n, IsPath M target negative globally s n) ∧
        (c.1 = .reachable → ∃ s, IsPath M target negative globally s c.2) := by
  have hgoal := @loopInv_assertGoal S M target negative globally
  cases hs : O.solve (assertGoal M target negative globally Engine.empty) with
  | unknown => simp [backwardStrategy, hs]
  | unsat =>
    simp only [backwardStrategy, hs, List.mem_singleton]
    rintro c rfl
    refine ⟨fun _ => not_isPath_of_refuted (fun ⟨σ, hσ⟩ => ?_) hgoal.refuted, by simp⟩
    exact O.unsat_sound _ hs ⟨σ, (hgoal.holds σ).2 hσ⟩
  | sat =>
    simp only [backwardStrategy, hs]
    exact @backwardLoop_sound S O M target negative globally peer fuel 0 _ _ [] hgoal (by simp)

/-- Spec scenario 1: one boolean, initially false, toggled at every step. -/
def toggle : Fsm Bool := ⟨fun x => !x, fun x x' => x' == !x, fun _ => true⟩

/-- A complete solver over boolean state valuations. -/
def boolSolver : Solver Bool := bruteForce [false, true] false (by decide)

/-- On the toggle, the strategy finds the target `x` at `k = 1`. -/
theorem backwardStrategy_sound_toggle :
    (ReachabilityStatus.reachable, 1) ∈
        (backwardStrategy boolSolver toggle id [] [] (fun _ => none) 2).calls ∧
      ∃ s, IsPath toggle id [] [] s 1 :=
  ⟨by decide, (backwardStrategy_sound boolSolver toggle id [] [] (fun _ => none) 2
    (.reachable, 1) (by decide)).2 rfl⟩

/-- **On `N` states the backward strategy decides before its counter passes
`N`**: with a solver that is never interrupted and no other strategy changing
the status, `N` iterations of the do-loop end it on its own decision
(`Decided`) with `k ≤ N`.  The engine the loop holds at counter `k` enforces
the frontier at `k`, uniqueness of every pair of its `k + 1` frames included;
once `k ≥ N`, its unreachability solve is `UNSAT`. -/
theorem backwardStrategy_decides [Fintype S] (O : Solver S) (hO : O.Complete) (M : Fsm S)
    (target : S → Bool) (negative globally : List (S → Bool)) (fuel : Nat)
    (hfuel : Fintype.card S ≤ fuel) :
    Decided M target negative globally (backwardStrategy O M target negative globally (fun _ => none) fuel) ∧
      (backwardStrategy O M target negative globally (fun _ => none) fuel).k ≤ Fintype.card S ∧
      (∀ k σ, (backwardEngine M target negative globally k).Holds σ ↔ Frontier M target negative globally k σ) ∧
      ∀ k, Fintype.card S ≤ k → O.solve (backwardEngine M target negative globally k) = .unsat := by
  have hrun : Decided M target negative globally
        (backwardStrategy O M target negative globally (fun _ => none) fuel) ∧
      (backwardStrategy O M target negative globally (fun _ => none) fuel).k ≤ Fintype.card S := by
    -- the engine of lines 41-54 is the engine at counter `0`
    by_cases hsat : (backwardEngine M target negative globally 0).Satisfiable
    · have hs : O.solve (assertGoal M target negative globally Engine.empty) = .sat := O.solve_eq_sat hO hsat
      simp only [backwardStrategy, hs]
      exact backwardLoop_decides hO fuel 0 _ [] hsat rfl (by omega)
    · have hs : O.solve (assertGoal M target negative globally Engine.empty) = .unsat :=
        O.solve_eq_unsat hO hsat
      simp [backwardStrategy, hs, Shared.syncSetStatus, Shared.interleave, Decided, hsat]
  refine ⟨hrun.1, hrun.2, holds_backwardEngine, fun k hk => O.solve_eq_unsat hO fun ⟨σ, hσ⟩ => ?_⟩
  have := ((holds_backwardEngine k σ).1 hσ).lt_card
  omega

/-- On the toggle, `2` iterations end the strategy on its own decision. -/
theorem backwardStrategy_decides_toggle :
    boolSolver.Complete ∧ Fintype.card Bool ≤ 2 ∧
      Decided toggle id [] [] (backwardStrategy boolSolver toggle id [] [] (fun _ => none) 2) :=
  ⟨bruteForce_complete _ _ _, by decide,
    (backwardStrategy_decides boolSolver (bruteForce_complete _ _ _) toggle id [] [] 2 (by decide)).1⟩

end GnuSmv
