import GnuSmv.Enc.Encoding
import GnuSmv.Expr.Expr
import Mathlib.Data.List.Nodup

/-!
# Enumerative encodings

`EnumEncoding(lits)` sizes a monolithic encoding with
`MonolithicEncoding::range_repr_bits(|lits|)` and numbers the literals of the
set, in its iteration order, in the two maps `f_v2e_map` and `f_e2v_map`;
`EnumEncoding::expr` evaluates `f_dv[0]` and maps its value back to a literal.

The literal set `ExprSet` is a duplicate-free list in iteration order.  The two
maps are functions, `none` off their keys: `operator[]` on a missing key yields
a null expression.  Reading `f_dv[0]` of an empty vector gives `none` as well.

## Main definitions

* `MonolithicEncoding.rangeReprBits`.
* `EnumEncoding`, `EnumEncoding.make`, `EnumEncoding.expr`.

## Main results

* `MonolithicEncoding.rangeReprBits_least` — `range_repr_bits(n)` is the least
  `b` with `n < 2 ^ b`, one more than `⌊log₂ n⌋`.
* `EnumEncoding.make_spec` — the constructor allocates the bits of the
  monolithic encoding but drops its DD, so `f_dv` stays empty; the two maps are
  inverse bijections between `[0, n)` and the literals.
-/

namespace GnuSmv

namespace MonolithicEncoding

/-- The while loop of `range_repr_bits`: `++res; range /= 2` while `range` is
nonzero, for at most `fuel` iterations. -/
def rangeReprBitsLoop : Nat → Nat → Nat → Nat
  | 0, _, res => res
  | fuel + 1, range, res => if range = 0 then res else rangeReprBitsLoop fuel (range / 2) (res + 1)

/-- `MonolithicEncoding::range_repr_bits(range)`: `0 < range` is asserted; the
loop halves `range`, so `range` iterations always suffice. -/
def rangeReprBits (range : Nat) : Option Nat :=
  if 0 < range then some (rangeReprBitsLoop range range 0) else none

/-- With enough fuel the loop counts the bits of `range`: it adds the least
`k` with `range < 2 ^ k`. -/
theorem rangeReprBitsLoop_spec : ∀ (fuel range res : Nat), range ≤ fuel →
    ∃ k, rangeReprBitsLoop fuel range res = res + k ∧ ∀ c, k ≤ c ↔ range < 2 ^ c
  | 0, range, res, h => ⟨0, rfl, fun c => by simp [show range = 0 by omega, Nat.pos_pow_of_pos]⟩
  | fuel + 1, range, res, h => by
    unfold rangeReprBitsLoop
    split_ifs with h0
    · exact ⟨0, rfl, fun c => by simp [h0, Nat.pos_pow_of_pos]⟩
    · obtain ⟨k, hk, hmin⟩ := rangeReprBitsLoop_spec fuel (range / 2) (res + 1) (by omega)
      refine ⟨k + 1, by rw [hk]; omega, fun c => ?_⟩
      cases c with
      | zero => simp; omega
      | succ c => rw [pow_succ, Nat.add_le_add_iff_right, hmin c]; omega

/-- **`range_repr_bits(n)` is the least `b` with `n < 2 ^ b`.**  For every
`n ≥ 1` it returns `b` such that `b ≤ c` exactly when `n < 2 ^ c`: one bit more
than `⌊log₂ n⌋`. -/
theorem rangeReprBits_least {n : Nat} (h : 0 < n) :
    ∃ b, rangeReprBits n = some b ∧ ∀ c, b ≤ c ↔ n < 2 ^ c := by
  obtain ⟨k, hk, hmin⟩ := rangeReprBitsLoop_spec n n 0 le_rfl
  exact ⟨k, by simp [rangeReprBits, h, hk], hmin⟩

/-- Two literals fit in one bit, `2 ≤ 2 ^ 1`, but `range_repr_bits(2)` is `2`. -/
theorem rangeReprBits_two : rangeReprBits 2 = some 2 ∧ 2 ≤ 2 ^ 1 := by
  decide

/-- `range_repr_bits` of a nonempty range is at least `1`. -/
theorem one_le_of_rangeReprBits {n b : Nat} (h : 0 < n) (hb : rangeReprBits n = some b) : 1 ≤ b := by
  obtain ⟨b', hb', hmin⟩ := rangeReprBits_least h
  rw [hb, Option.some_inj] at hb'
  subst hb'
  by_contra h0
  have := (hmin 0).1 (by omega)
  omega

end MonolithicEncoding

/-! ### Enumerative encodings -/

/-- The loop of the `EnumEncoding` constructor from value `v`:
`f_v2e_map[v] = lit; f_e2v_map[lit] = v` for each literal in turn. -/
def mapsLoop : List Expr → Int → (Int → Option Expr) × (Expr → Option Int) →
    (Int → Option Expr) × (Expr → Option Int)
  | [], _, maps => maps
  | l :: ls, v, maps =>
    mapsLoop ls (v + 1) (fun x => if x = v then some l else maps.1 x, fun e => if e = l then some v else maps.2 e)

/-- After the loop, `f_v2e_map` sends the values from `v` on to the literals in turn. -/
theorem mapsLoop_fst : ∀ (ls : List Expr) (v : Int) (maps : (Int → Option Expr) × (Expr → Option Int)) (x : Int),
    (mapsLoop ls v maps).1 x = if v ≤ x ∧ x < v + ls.length then ls[(x - v).toNat]? else maps.1 x
  | [], v, maps, x => by
    rw [mapsLoop, if_neg (by simp only [List.length_nil, Nat.cast_zero, add_zero]; omega)]
  | l :: ls, v, maps, x => by
    rw [mapsLoop, mapsLoop_fst ls]
    by_cases hx : x = v
    · subst hx; simp
    · by_cases hr : v + 1 ≤ x ∧ x < v + 1 + ls.length
      · have ht : (x - v).toNat = (x - (v + 1)).toNat + 1 := by omega
        simp only [hr, and_self, if_true, List.length_cons, ht, List.getElem?_cons_succ]
        rw [if_pos (by omega)]
      · simp only [hr, if_false, hx, List.length_cons]
        rw [if_neg (by omega)]

/-- After the loop over distinct literals, `f_e2v_map` sends each to `v` plus its position. -/
theorem mapsLoop_snd : ∀ (ls : List Expr), ls.Nodup → ∀ (v : Int) (maps : (Int → Option Expr) × (Expr → Option Int)) (e : Expr),
    (mapsLoop ls v maps).2 e = if e ∈ ls then some (v + ls.indexOf e) else maps.2 e
  | [], _, v, maps, e => by simp [mapsLoop]
  | l :: ls, hnd, v, maps, e => by
    rw [List.nodup_cons] at hnd
    rw [mapsLoop, mapsLoop_snd ls hnd.2]
    by_cases he : e = l
    · subst he; simp [hnd.1]
    · by_cases hm : e ∈ ls
      · simp [hm, he, List.indexOf_cons_ne _ (Ne.symm he)]; omega
      · simp [hm, he]

/-- An `EnumEncoding`: its bits, its DDVector and its two maps. -/
structure EnumEncoding where
  /-- `f_bits`. -/
  bits : List ADD
  /-- `f_dv`. -/
  dv : List ADD
  /-- `f_v2e_map`, from values to literals. -/
  v2e : Int → Option Expr
  /-- `f_e2v_map`, from literals to values. -/
  e2v : Expr → Option Int

namespace EnumEncoding

/-- `EnumEncoding(lits)`, from the DD package's next free variable: the
`range_repr_bits(|lits|)` bits of `make_monolithic_encoding` are allocated and
the ADD it returns is dropped, so `f_dv` stays empty; then literal `v` of the
set's iteration order gets value `v` in both maps.  Returns the package's next
free variable too. -/
def make (lits : List Expr) (next : Nat) : Option (EnumEncoding × Nat) :=
  (MonolithicEncoding.rangeReprBits lits.length).map fun nbits =>
    let st := (BitAlloc.makeMonolithicEncoding nbits ⟨next, []⟩).2
    let maps := mapsLoop lits 0 (fun _ => none, fun _ => none)
    (⟨st.bits, [], maps.1, maps.2⟩, st.next)

/-- `EnumEncoding::expr(assignment)`: the literal of the value of `f_dv[0]`. -/
def expr (enc : EnumEncoding) (ρ : Nat → Bool) : Option Expr :=
  enc.dv.head?.bind fun d => enc.v2e (d.eval ρ)

/-- **What `EnumEncoding(lits)` builds.**  For a set of `n ≥ 1` literals it
allocates the `range_repr_bits(n)` variables after the package's last one, but
`f_dv` stays empty, so `expr` finds no DD under any assignment.  The two maps
are inverse to each other, `f_v2e_map` defined exactly on `[0, n)` and
`f_e2v_map` exactly on the literals. -/
theorem make_spec {lits : List Expr} (hnd : lits.Nodup) (hne : lits ≠ []) (next : Nat) :
    ∃ enc nbits, make lits next = some (enc, next + nbits) ∧
      MonolithicEncoding.rangeReprBits lits.length = some nbits ∧
      enc.bits = (List.range nbits).map (fun j => bitVar (next + j)) ∧ enc.dv = [] ∧
      (∀ ρ, enc.expr ρ = none) ∧
      (∀ v l, enc.v2e v = some l ↔ enc.e2v l = some v) ∧
      (∀ v, (enc.v2e v).isSome ↔ 0 ≤ v ∧ v < lits.length) ∧
      (∀ l, (enc.e2v l).isSome ↔ l ∈ lits) := by
  have hpos : 0 < lits.length := List.length_pos.mpr hne
  obtain ⟨nbits, hr, -⟩ := MonolithicEncoding.rangeReprBits_least hpos
  have hst := (BitAlloc.makeMonolithicEncoding_eq ⟨next, []⟩
    (MonolithicEncoding.one_le_of_rangeReprBits hpos hr)).1
  have hv2e := mapsLoop_fst lits 0 (fun _ => none, fun _ => none)
  have he2v := mapsLoop_snd lits hnd 0 (fun _ => none, fun _ => none)
  refine ⟨⟨(List.range nbits).map (bitVar <| next + ·), [], (mapsLoop lits 0 (fun _ => none, fun _ => none)).1,
    (mapsLoop lits 0 (fun _ => none, fun _ => none)).2⟩, nbits, by simp [make, hr, hst], hr, rfl, rfl,
    fun _ => rfl, fun v l => ?_, fun v => ?_, fun l => ?_⟩
  · simp only [hv2e, he2v, sub_zero, zero_add]
    constructor
    · intro h
      split_ifs at h with hv
      obtain ⟨hlt, rfl⟩ := List.getElem?_eq_some_iff.mp h
      rw [if_pos (List.getElem_mem hlt), List.indexOf_getElem hnd]
      simp [Int.toNat_of_nonneg hv.1]
    · intro h
      split_ifs at h with hl
      cases h
      have := List.indexOf_lt_length.mpr hl
      rw [if_pos ⟨by omega, by omega⟩]
      simp [hl]
  · simp only [hv2e, sub_zero, zero_add]
    split_ifs with hv
    · simp [hv]
    · simpa using hv
  · simp only [he2v]
    split_ifs with hl <;> simp [hl]

/-- Two literals `a`, `b`: `range_repr_bits(2) = 2` bits, an empty `f_dv`, and
the maps `0 ↔ a`, `1 ↔ b`. -/
theorem make_spec_two :
    ∃ enc nbits, make [.ident "a", .ident "b"] 0 = some (enc, 0 + nbits) ∧
      MonolithicEncoding.rangeReprBits [Expr.ident "a", .ident "b"].length = some nbits ∧
      enc.bits = (List.range nbits).map (fun j => bitVar (0 + j)) ∧ enc.dv = [] ∧
      (∀ ρ, enc.expr ρ = none) ∧
      (∀ v l, enc.v2e v = some l ↔ enc.e2v l = some v) ∧
      (∀ v, (enc.v2e v).isSome ↔ 0 ≤ v ∧ v < [Expr.ident "a", .ident "b"].length) ∧
      (∀ l, (enc.e2v l).isSome ↔ l ∈ [Expr.ident "a", .ident "b"]) :=
  make_spec (by decide) (by simp) 0

/-- One literal: the constructor allocates one bit but leaves `f_dv` empty, so
`expr` finds no DD to evaluate under any assignment. -/
theorem make_one_literal :
    ((make [.ident "a"] 0).map fun r => r.1.dv) = some [] ∧
      ∀ ρ, ((make [.ident "a"] 0).bind fun r => r.1.expr ρ) = none :=
  ⟨rfl, fun _ => rfl⟩

end EnumEncoding

end GnuSmv
