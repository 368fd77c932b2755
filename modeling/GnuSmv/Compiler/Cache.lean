import GnuSmv.Compiler.Walker

/-!
# The memoization cache over runs of the compiler

`f_cache` is filled by `post_node_hook` and read by `cache_miss`, and nothing
removes an entry from it: `std::unordered_map::insert` keeps the entry a key
already has, and `clear_internals` clears the stacks and the descriptor tables
but not the cache.  A run of the compiler is any sequence of its walks and of
the services of `internals.cc` (`Step`); an entry, once cached, is what every
later `cache_miss` of its key replays, whole.

## Main definitions

* `BECompiler.Step` — one walk, or one service of the compiler's state.

## Main results

* `BECompiler.lookup_run` — a cached entry persists over every run.
* `BECompiler.cacheMiss_postNodeHook` — a hit replays the whole descriptor
  buffer that was current when the entry was cached.
-/

namespace GnuSmv

namespace BECompiler

open Compiler

section Run

variable (typeOf : Expr → Expr → SmvType) (resolve : Expr → Expr → Option Symbol)
  (encoding : FQExpr → List ADD) (W : Nat)

/-- One step of the compiler's state: a walk that returns, the stacks
`process(ctx, body, time)` starts its walk from, or one of the services of
`internals.cc` where its assertions hold. -/
inductive Step : Compiler → Compiler → Prop
  /-- A walk of `BECompiler`. -/
  | walk {fuel : Nat} {expr : Expr} {st st' : Compiler} :
    BECompiler.walk typeOf resolve encoding W fuel expr st = some st' → Step st st'
  /-- `process(ctx, body, time)` clears the stacks and pushes `ctx` and `time`. -/
  | processStart (ctx : Expr) (time : Int) (st : Compiler) :
    Step st { st with addStack := [], typeStack := [], ctxStack := [ctx], timeStack := [time] }
  /-- `post_node_hook(expr)`. -/
  | postNodeHook {expr : Expr} {st st' : Compiler} : st.postNodeHook expr = some st' → Step st st'
  /-- `cache_miss(expr)`. -/
  | cacheMiss (expr : Expr) (st : Compiler) : Step st (st.cacheMiss typeOf expr).2
  /-- `push_dds(enc, type)`. -/
  | pushDds {dds : List ADD} {type : SmvType} {st st' : Compiler} :
    st.pushDds dds type = some st' → Step st st'
  /-- `register_microdescriptor(...)`. -/
  | registerMicrodescriptor (md : MicroDescriptor) (st : Compiler) : Step st (st.registerMicrodescriptor md)
  /-- `register_muxdescriptor(...)`. -/
  | registerMuxdescriptor (toplevel : Expr) (md : MuxDescriptor) (st : Compiler) :
    Step st (st.registerMuxdescriptor toplevel md)
  /-- `post_process_muxes()`. -/
  | postProcessMuxes (st : Compiler) : Step st st.postProcessMuxes
  /-- `clear_internals()`, which leaves `f_cache` alone. -/
  | clearInternals (st : Compiler) : Step st st.clearInternals

theorem cache_pushDds {dds : List ADD} {type : SmvType} {st st' : Compiler}
    (h : st.pushDds dds type = some st') : st'.cache = st.cache := by
  unfold Compiler.pushDds at h
  -- every branch pushes onto the type and DD stacks, or fails
  repeat' split at h
  all_goals first | (cases h; rfl) | cases h

variable {typeOf resolve encoding W}

/-- **No step drops or replaces a cached entry.** -/
theorem lookup_step {st st' : Compiler} (h : Step typeOf resolve encoding W st st') {k : FQExpr}
    {u : CompilationUnit} (hk : st.cache.lookup k = some u) : st'.cache.lookup k = some u := by
  cases h with
  | walk h => rwa [(walk_frames typeOf resolve encoding W _ _ _ _ h).2.2]
  | postNodeHook h => exact lookup_postNodeHook_of_eq_some h hk
  | cacheMiss expr st => unfold Compiler.cacheMiss; split <;> exact hk
  | pushDds h => rwa [cache_pushDds h]
  | processStart | registerMicrodescriptor | registerMuxdescriptor | postProcessMuxes | clearInternals =>
    exact hk

/-- **A cached entry persists over every run of the compiler.** -/
theorem lookup_run {st st' : Compiler} (h : Relation.ReflTransGen (Step typeOf resolve encoding W) st st')
    {k : FQExpr} {u : CompilationUnit} (hk : st.cache.lookup k = some u) : st'.cache.lookup k = some u := by
  induction h with
  | refl => exact hk
  | tail _ step ih => exact lookup_step step ih

/-- **A hit replays the whole buffer cached with the entry.**  Once
`post_node_hook` has cached `expr` in state `st₀`, outside preprocessing and
under a key with no entry yet, every later `cache_miss(expr)` in the same
context and time, whatever the compiler ran in between, answers `false`, pushes
the DDs that were on top of the stack in `st₀` and appends to
`f_micro_descriptors` every descriptor of `st₀`'s buffer. -/
theorem cacheMiss_postNodeHook {expr : Expr} {st₀ st₁ st : Compiler} (hpre : st₀.preprocess = false)
    (hnew : st₀.cache.lookup (st₀.key expr) = none) (hhook : st₀.postNodeHook expr = some st₁)
    (hrun : Relation.ReflTransGen (Step typeOf resolve encoding W) st₁ st)
    (hkey : st.key expr = st₀.key expr) :
    ∃ ty, st₀.typeStack.head? = some ty ∧ (st.cacheMiss typeOf expr).1 = false ∧
      (st.cacheMiss typeOf expr).2.addStack = st₀.addStack.take ty.width ++ st.addStack ∧
      (st.cacheMiss typeOf expr).2.microDescriptors = st.microDescriptors ++ st₀.microDescriptors := by
  obtain ⟨ty, hty, hcached⟩ := lookup_postNodeHook hpre hnew hhook
  have hhit := lookup_run hrun hcached
  rw [← hkey] at hhit
  rw [cacheMiss_of_lookup typeOf hhit]
  exact ⟨ty, hty, rfl, rfl, rfl⟩

end Run

/-- `x` cached with the DD `1` and a descriptor in the buffer; then
`clear_internals`, and `process` in the same context and time walking `y`: a
hit on `x` replays the DD and the descriptor. -/
theorem cacheMiss_postNodeHook_after_clear :
    let st₀ := ((start (.ident "main") 0).registerMicrodescriptor (addDescriptor 0)).pushResult ADD.one .boolean
    let st₁ := { st₀ with cache := [(st₀.key (.ident "x"), ⟨[ADD.one], [addDescriptor 0], []⟩)] }
    let st₂ := { st₁.clearInternals with
      addStack := [], typeStack := [], ctxStack := [.ident "main"], timeStack := [0] }
    let st := { st₂ with addStack := [bitVar 0] }
    Relation.ReflTransGen (Step (fun _ _ => .boolean) (fun _ _ => some (.variable .boolean)) (fun _ => [bitVar 0]) 1)
        st₁ st ∧
      ∃ ty, st₀.typeStack.head? = some ty ∧ (st.cacheMiss (fun _ _ => .boolean) (.ident "x")).1 = false ∧
        (st.cacheMiss (fun _ _ => .boolean) (.ident "x")).2.addStack = st₀.addStack.take ty.width ++ st.addStack ∧
        (st.cacheMiss (fun _ _ => .boolean) (.ident "x")).2.microDescriptors =
          st.microDescriptors ++ st₀.microDescriptors := by
  intro st₀ st₁ st₂ st
  have hrun : Relation.ReflTransGen
      (Step (fun _ _ => .boolean) (fun _ _ => some (.variable .boolean)) (fun _ => [bitVar 0]) 1) st₁ st :=
    .tail (.tail (.single (.clearInternals st₁)) (.processStart (.ident "main") 0 _))
      (@Step.walk _ _ _ _ 1 (.ident "y") _ _ (by decide))
  exact ⟨hrun, cacheMiss_postNodeHook rfl rfl (by decide) hrun rfl⟩

end BECompiler

end GnuSmv
