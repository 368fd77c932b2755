import GnuSmv.Dd.Add
import Mathlib.Algebra.BigOperators.Group.Finset
import Mathlib.Tactic.Positivity
import Mathlib.Tactic.Ring

/-!
# Encodings

`src/enc/enc.cc` builds the boolean encoding of each variable out of fresh ADD
bits: `make_bit` allocates one and records it in `f_bits`,
`make_monolithic_encoding(nbits)` packs `nbits` of them into one integer ADD,
an `AlgebraicEncoding` keeps one nibble-monolithic ADD per hex digit in its
DDVector `f_dv`, and an `ArrayEncoding` concatenates its elements' vectors.
`expr` reads an encoding back under an assignment of the DD variables.
Enumerative encodings are in `GnuSmv.Enc.Enum`.

The DD package's fresh variables are numbered: the state of an encoding under
construction is the next free index and `f_bits`.  `NIBBLE_SIZE` is not under
`src/`; it is the spec's 4 bits per digit.  `AlgebraicEncoding`'s `f_fract` and
`f_signed` are read by nothing modelled here and are left out.

## Main definitions

* `BitAlloc.makeBit`, `BitAlloc.makeMonolithicEncoding`.
* `BooleanEncoding`, `BooleanEncoding.make`, `BooleanEncoding.expr`, `BooleanEncoding.bit`.
* `bitsValue` — the value of consecutive bits, most significant first.
* `AlgebraicEncoding`, `AlgebraicEncoding.make`, `AlgebraicEncoding.bitsBegin`,
  `AlgebraicEncoding.bitsEnd`, `AlgebraicEncoding.expr`.
* `ArrayEncoding`, `ArrayEncoding.make`.
* `leValue` — the base-16 value of digits listed least significant first.

## Main results

* `BitAlloc.makeMonolithicEncoding_spec` — `nbits` fresh bits, appended in
  order, packed most significant first: a bijection onto `[0, 2 ^ nbits)`.
* `AlgebraicEncoding.make_fresh_spec` — on fresh bits, digit `k` is the nibble
  over `f_bits[4k .. 4k+3]`, which `bits_begin(k)` and `bits_end(k)` delimit.
* `AlgebraicEncoding.expr_eq` — `expr` reads `f_dv[0]` as the **most**
  significant digit: it returns the value of the digits reversed.
* `ArrayEncoding.make_dv` — the elements' vectors concatenated, element `0` first.
-/

namespace GnuSmv

/-- `NIBBLE_SIZE`: the bits of one algebraic digit. -/
def NIBBLE_SIZE : Nat := 4

/-- The DD variable `i` as a 0-1 ADD, as the package's `bit()` returns it. -/
def bitVar (i : Nat) : ADD := .node i (.const 1) (.const 0)

@[simp] theorem eval_bitVar (ρ : Nat → Bool) (i : Nat) : (bitVar i).eval ρ = ADD.ofBool (ρ i) := by
  simp [bitVar, ADD.ofBool]

/-- An encoding's bits under construction: the DD package's next fresh variable,
and `f_bits`. -/
structure BitAlloc where
  /-- The index the next `bit()` allocates. -/
  next : Nat
  /-- `f_bits`, in creation order. -/
  bits : List ADD

namespace BitAlloc

/-- `Encoding::make_bit()`. -/
def makeBit (st : BitAlloc) : ADD × BitAlloc :=
  (bitVar st.next, ⟨st.next + 1, st.bits ++ [bitVar st.next]⟩)

/-- The while loop of `make_monolithic_encoding`, with `n` iterations left:
`res *= two; res += make_bit();`. -/
def monolithicLoop : Nat → ADD → BitAlloc → ADD × BitAlloc
  | 0, res, st => (res, st)
  | n + 1, res, st =>
    let res := res.times (.const 2)
    let (b, st) := st.makeBit
    monolithicLoop n (res.plus b) st

/-- `Encoding::make_monolithic_encoding(nbits)`: one bit, then `nbits - 1` more
shifted in. -/
def makeMonolithicEncoding (nbits : Nat) (st : BitAlloc) : ADD × BitAlloc :=
  let (res, st) := st.makeBit
  monolithicLoop (nbits - 1) res st

end BitAlloc

/-! ### Boolean encodings -/

/-- A `BooleanEncoding`: its DDVector `f_dv`. -/
structure BooleanEncoding where
  /-- `f_dv`. -/
  dv : List ADD

namespace BooleanEncoding

/-- `BooleanEncoding()`: a single fresh bit. -/
def make (st : BitAlloc) : BooleanEncoding × BitAlloc :=
  let (b, st) := st.makeBit
  (⟨[b]⟩, st)

/-- `expr(assignment)`: `FALSE` where `f_dv[0]` evaluates to `0` and `TRUE`
elsewhere; `f_dv[0]` of an empty vector fails. -/
def expr (enc : BooleanEncoding) (ρ : Nat → Bool) : Option Bool :=
  enc.dv.head?.map fun d => d.eval ρ != 0

/-- `bit()`: `f_dv[0]`, asserting that the vector holds one DD. -/
def bit (enc : BooleanEncoding) : Option ADD :=
  if enc.dv.length = 1 then enc.dv.head? else none

@[simp] theorem make_dv (st : BitAlloc) : (make st).1.dv = [bitVar st.next] := rfl

/-- A boolean encoding reads back the value its fresh bit has. -/
@[simp] theorem expr_make (st : BitAlloc) (ρ : Nat → Bool) : (make st).1.expr ρ = some (ρ st.next) := by
  cases h : ρ st.next <;> simp [expr, h]

end BooleanEncoding

/-! ### Values of monolithic encodings -/

/-- The value of the `n` DD variables from `k` on under `ρ`, most significant
first. -/
def bitsValue (ρ : Nat → Bool) (k : Nat) : Nat → Int
  | 0 => 0
  | n + 1 => ADD.ofBool (ρ k) * 2 ^ n + bitsValue ρ (k + 1) n

/-- `bitsValue` is the sum `Σ_j b_j * 2^(n-1-j)` over the bits `b_j = ρ (k + j)`. -/
theorem bitsValue_eq_sum (ρ : Nat → Bool) : ∀ k n,
    bitsValue ρ k n = ∑ j in Finset.range n, ADD.ofBool (ρ (k + j)) * 2 ^ (n - 1 - j)
  | _, 0 => rfl
  | k, n + 1 => by
    rw [bitsValue, bitsValue_eq_sum ρ (k + 1) n, Finset.sum_range_succ', add_comm]
    refine congrArg₂ (· + ·) (Finset.sum_congr rfl fun j hj => ?_) (by simp)
    rw [Finset.mem_range] at hj
    rw [show k + 1 + j = k + (j + 1) by omega, show n - 1 - j = n + 1 - 1 - (j + 1) by omega]

theorem bitsValue_bounds (ρ : Nat → Bool) : ∀ k n, 0 ≤ bitsValue ρ k n ∧ bitsValue ρ k n < 2 ^ n
  | _, 0 => by simp [bitsValue]
  | k, n + 1 => by
    have ih := bitsValue_bounds ρ (k + 1) n
    have hp : (0 : Int) < 2 ^ n := by positivity
    rw [bitsValue, pow_succ]
    cases ρ k <;> simp <;> omega

/-- `bitsValue` reads only the bits `k, ..., k + n - 1`. -/
theorem bitsValue_congr {ρ ρ' : Nat → Bool} : ∀ {k n : Nat},
    (∀ j < n, ρ (k + j) = ρ' (k + j)) → bitsValue ρ k n = bitsValue ρ' k n
  | _, 0, _ => rfl
  | k, n + 1, h => by
    rw [bitsValue, bitsValue, bitsValue_congr fun j hj => by
      simpa [Nat.add_right_comm, Nat.add_assoc] using h (j + 1) (by omega)]
    simpa using congrArg (fun b => ADD.ofBool b * 2 ^ n + bitsValue ρ' (k + 1) n) (h 0 (by omega))

/-- The value of `n` bits determines them. -/
theorem bitsValue_inj {ρ ρ' : Nat → Bool} : ∀ {k n : Nat},
    bitsValue ρ k n = bitsValue ρ' k n → ∀ j < n, ρ (k + j) = ρ' (k + j)
  | k, n + 1, h, j, hj => by
    rw [bitsValue, bitsValue] at h
    have hb := bitsValue_bounds ρ (k + 1) n
    have hb' := bitsValue_bounds ρ' (k + 1) n
    have hk : ρ k = ρ' k := by
      cases hρ : ρ k <;> cases hρ' : ρ' k <;> simp [hρ, hρ'] at h ⊢ <;> omega
    rw [hk, add_right_inj] at h
    cases j with
    | zero => simpa using hk
    | succ j => simpa [Nat.add_right_comm, Nat.add_assoc] using bitsValue_inj h j (by omega)

/-- Every value in `[0, 2^n)` is the value of some assignment of `n` bits. -/
theorem exists_bitsValue_eq : ∀ (k n : Nat) (v : Int), 0 ≤ v → v < 2 ^ n →
    ∃ ρ : Nat → Bool, bitsValue ρ k n = v
  | _, 0, v, h0, h1 => ⟨fun _ => false, by simp [bitsValue] at h1 ⊢; omega⟩
  | k, n + 1, v, h0, h1 => by
    rw [pow_succ] at h1
    have frame : ∀ (ρ : Nat → Bool) (b : Bool),
        bitsValue (Function.update ρ k b) (k + 1) n = bitsValue ρ (k + 1) n :=
      fun ρ b => bitsValue_congr fun j _ => Function.update_noteq (by omega) _ _
    by_cases hv : (2 : Int) ^ n ≤ v
    · obtain ⟨ρ, hρ⟩ := exists_bitsValue_eq (k + 1) n (v - 2 ^ n) (by omega) (by omega)
      exact ⟨Function.update ρ k true, by rw [bitsValue, frame, hρ]; simp⟩
    · obtain ⟨ρ, hρ⟩ := exists_bitsValue_eq (k + 1) n v h0 (by omega)
      exact ⟨Function.update ρ k false, by rw [bitsValue, frame, hρ]; simp⟩

namespace BitAlloc

/-- The loop invariant of `make_monolithic_encoding`: `n` more iterations
append the next `n` variables to `f_bits` and shift their bits into `res`. -/
theorem monolithicLoop_eq : ∀ (n : Nat) (res : ADD) (st : BitAlloc),
    (monolithicLoop n res st).2 =
        ⟨st.next + n, st.bits ++ (List.range n).map fun j => bitVar (st.next + j)⟩ ∧
      ∀ ρ, (monolithicLoop n res st).1.eval ρ = res.eval ρ * 2 ^ n + bitsValue ρ st.next n
  | 0, res, st => by simp [monolithicLoop, bitsValue]
  | n + 1, res, st => by
    obtain ⟨h2, h1⟩ := monolithicLoop_eq n ((res.times (.const 2)).plus (bitVar st.next))
      ⟨st.next + 1, st.bits ++ [bitVar st.next]⟩
    simp only [monolithicLoop, makeBit]
    refine ⟨?_, fun ρ => ?_⟩
    · rw [h2, List.range_succ_eq_map]
      simp [Nat.add_assoc, Nat.add_comm 1]
    · rw [h1, bitsValue]
      simp [pow_succ]
      ring

/-- `make_monolithic_encoding(nbits)` for `nbits ≥ 1`: the next `nbits`
variables, and the ADD of their value. -/
theorem makeMonolithicEncoding_eq (st : BitAlloc) {nbits : Nat} (h : 1 ≤ nbits) :
    (makeMonolithicEncoding nbits st).2 =
        ⟨st.next + nbits, st.bits ++ (List.range nbits).map fun j => bitVar (st.next + j)⟩ ∧
      ∀ ρ, (makeMonolithicEncoding nbits st).1.eval ρ = bitsValue ρ st.next nbits := by
  obtain ⟨n, rfl⟩ : ∃ n, nbits = n + 1 := ⟨nbits - 1, by omega⟩
  obtain ⟨h2, h1⟩ := monolithicLoop_eq n (bitVar st.next) ⟨st.next + 1, st.bits ++ [bitVar st.next]⟩
  simp only [makeMonolithicEncoding, makeBit, Nat.add_sub_cancel]
  refine ⟨?_, fun ρ => ?_⟩
  · rw [h2, List.range_succ_eq_map]
    simp [Nat.add_assoc, Nat.add_comm 1]
  · rw [h1, bitsValue, eval_bitVar]

/-- **`make_monolithic_encoding(nbits)` packs `nbits` fresh bits.**  For every
`nbits ≥ 1` it appends the variables `b_0, ..., b_{nbits-1}` that follow the
package's last one to `f_bits`, in creation order, and returns an ADD whose
value under every assignment is `Σ_j b_j * 2^(nbits-1-j)`.  These values are
exactly `[0, 2^nbits)`, and each is the value of one assignment of the bits. -/
theorem makeMonolithicEncoding_spec (st : BitAlloc) {nbits : Nat} (h : 1 ≤ nbits) :
    (makeMonolithicEncoding nbits st).2 =
        ⟨st.next + nbits, st.bits ++ (List.range nbits).map fun j => bitVar (st.next + j)⟩ ∧
      (∀ ρ, (makeMonolithicEncoding nbits st).1.eval ρ =
        ∑ j in Finset.range nbits, ADD.ofBool (ρ (st.next + j)) * 2 ^ (nbits - 1 - j)) ∧
      (∀ ρ, 0 ≤ (makeMonolithicEncoding nbits st).1.eval ρ ∧
        (makeMonolithicEncoding nbits st).1.eval ρ < 2 ^ nbits) ∧
      (∀ v : Int, 0 ≤ v → v < 2 ^ nbits → ∃ ρ, (makeMonolithicEncoding nbits st).1.eval ρ = v) ∧
      (∀ ρ ρ', (makeMonolithicEncoding nbits st).1.eval ρ = (makeMonolithicEncoding nbits st).1.eval ρ' →
        ∀ j < nbits, ρ (st.next + j) = ρ' (st.next + j)) := by
  obtain ⟨hbits, hval⟩ := makeMonolithicEncoding_eq st h
  refine ⟨hbits, fun ρ => ?_, fun ρ => ?_, fun v h0 h1 => ?_, fun ρ ρ' he => ?_⟩
  · rw [hval, bitsValue_eq_sum]
  · rw [hval]
    exact bitsValue_bounds ρ st.next nbits
  · obtain ⟨ρ, hρ⟩ := exists_bitsValue_eq st.next nbits v h0 h1
    exact ⟨ρ, (hval ρ).trans hρ⟩
  · rw [hval, hval] at he
    exact bitsValue_inj he

/-- A nibble on fresh bits takes the digit value `9`. -/
theorem makeMonolithicEncoding_nibble : ∃ ρ, (makeMonolithicEncoding 4 ⟨0, []⟩).1.eval ρ = 9 :=
  (makeMonolithicEncoding_spec ⟨0, []⟩ (by decide : 1 ≤ 4)).2.2.2.1 9 (by decide) (by decide)

end BitAlloc

/-! ### Digit values -/

/-- The base-16 value of digits listed least significant first. -/
def leValue : List Int → Int
  | [] => 0
  | v :: vs => v + 16 * leValue vs

@[simp] theorem leValue_nil : leValue [] = 0 := rfl
@[simp] theorem leValue_cons (v : Int) (vs : List Int) : leValue (v :: vs) = v + 16 * leValue vs := rfl

theorem leValue_append (vs ws : List Int) :
    leValue (vs ++ ws) = leValue vs + 16 ^ vs.length * leValue ws := by
  induction vs with
  | nil => simp
  | cons v vs ih => simp [ih, pow_succ]; ring

/-! ### Algebraic encodings -/

/-- An `AlgebraicEncoding`: `f_width` digits, whether it wraps pre-existing DDs,
its bits and its DDVector. -/
structure AlgebraicEncoding where
  /-- `f_width`, the number of hex digits. -/
  width : Nat
  /-- `f_temporary`. -/
  temporary : Bool
  /-- `f_bits`. -/
  bits : List ADD
  /-- `f_dv`. -/
  dv : List ADD

namespace AlgebraicEncoding

/-- The fresh-bits loop of the constructor: `width` nibble-monolithic digits. -/
def freshDigits : Nat → BitAlloc → List ADD → List ADD × BitAlloc
  | 0, st, dv => (dv, st)
  | n + 1, st, dv =>
    let (d, st) := st.makeMonolithicEncoding NIBBLE_SIZE
    freshDigits n st (dv ++ [d])

/-- `AlgebraicEncoding(width, fract, is_signed, dds)`, from the DD package's next
free variable: around the array `dds` when it is given, on fresh bits otherwise.
Returns the package's next free variable too. -/
def make (width : Nat) (dds : Option (Nat → ADD)) (next : Nat) : AlgebraicEncoding × Nat :=
  match dds with
  | some dds => (⟨width, true, [], (List.range width).map dds⟩, next)
  | none =>
    let (dv, st) := freshDigits width ⟨next, []⟩ []
    (⟨width, false, st.bits, dv⟩, st.next)

/-- `bits_begin(k)`: `f_bits.begin()` advanced past the `k * NIBBLE_SIZE` bits
of the previous digits, as an offset into `f_bits`; `k < f_width` is asserted. -/
def bitsBegin (enc : AlgebraicEncoding) (k : Nat) : Option Nat :=
  if k < enc.width then some (k * NIBBLE_SIZE) else none

/-- `bits_end(k)`: `bits_begin(k)` advanced past the digit's `NIBBLE_SIZE` bits. -/
def bitsEnd (enc : AlgebraicEncoding) (k : Nat) : Option Nat :=
  if k < enc.width then (enc.bitsBegin k).map (· + NIBBLE_SIZE) else none

/-- The fresh-bits loop: `n` more nibbles on the next `n * NIBBLE_SIZE`
variables, digit `k` on the `NIBBLE_SIZE` of them from `k * NIBBLE_SIZE` on. -/
theorem freshDigits_eq : ∀ (n : Nat) (st : BitAlloc) (dv : List ADD),
    (freshDigits n st dv).2 = ⟨st.next + n * NIBBLE_SIZE,
        st.bits ++ (List.range (n * NIBBLE_SIZE)).map fun i => bitVar (st.next + i)⟩ ∧
      ∃ ds, (freshDigits n st dv).1 = dv ++ ds ∧ ds.length = n ∧
        ∀ k < n, ∀ ρ, (ds.getD k ADD.zero).eval ρ = bitsValue ρ (st.next + k * NIBBLE_SIZE) NIBBLE_SIZE
  | 0, st, dv => ⟨by simp [freshDigits], [], by simp [freshDigits]⟩
  | n + 1, st, dv => by
    obtain ⟨h2, h1⟩ := BitAlloc.makeMonolithicEncoding_eq st (by decide : 1 ≤ NIBBLE_SIZE)
    obtain ⟨hst, ds, hds, hlen, hval⟩ := freshDigits_eq n (st.makeMonolithicEncoding NIBBLE_SIZE).2
      (dv ++ [(st.makeMonolithicEncoding NIBBLE_SIZE).1])
    simp only [freshDigits]
    refine ⟨?_, (st.makeMonolithicEncoding NIBBLE_SIZE).1 :: ds, by simp [hds], by simp [hlen],
      fun k hk ρ => ?_⟩
    · rw [hst, h2, Nat.succ_mul, Nat.add_comm (n * _), List.range_add]
      simp [Nat.add_assoc, Function.comp_def]
    · cases k with
      | zero => simpa using h1 ρ
      | succ k => rw [List.getD_cons_succ, hval k (by omega) ρ, h2, Nat.succ_mul, Nat.add_assoc,
          Nat.add_comm NIBBLE_SIZE]

/-- The DDVector of an `AlgebraicEncoding` holds its `f_width` digits, in both
construction modes. -/
theorem length_make_dv (W : Nat) (dds : Option (Nat → ADD)) (next : Nat) :
    (make W dds next).1.dv.length = W := by
  cases dds with
  | some dds => simp [make]
  | none =>
    obtain ⟨-, ds, hds, hlen, -⟩ := freshDigits_eq W ⟨next, []⟩ []
    simp [make, hds, hlen]

/-- **A fresh algebraic encoding.**  For every width `W`, `f_dv` holds `W`
digits and `f_bits` the `4 W` variables after the package's last one; for every
`k < W`, `bits_begin(k)` and `bits_end(k)` delimit `f_bits[4k .. 4k+3]`, within
`f_bits`, and digit `k` is the nibble-monolithic ADD over exactly those bits. -/
theorem make_fresh_spec (W next : Nat) :
    (make W none next).1.dv.length = W ∧
      (make W none next).1.bits = (List.range (W * NIBBLE_SIZE)).map (fun i => bitVar (next + i)) ∧
      ∀ k < W, (make W none next).1.bitsBegin k = some (k * NIBBLE_SIZE) ∧
        (make W none next).1.bitsEnd k = some (k * NIBBLE_SIZE + NIBBLE_SIZE) ∧
        k * NIBBLE_SIZE + NIBBLE_SIZE ≤ (make W none next).1.bits.length ∧
        ∀ ρ, ((make W none next).1.dv.getD k ADD.zero).eval ρ =
          ∑ j in Finset.range NIBBLE_SIZE,
            ((make W none next).1.bits.getD (k * NIBBLE_SIZE + j) ADD.zero).eval ρ *
              2 ^ (NIBBLE_SIZE - 1 - j) := by
  obtain ⟨hst, ds, hds, hlen, hval⟩ := freshDigits_eq W ⟨next, []⟩ []
  have hbits : (make W none next).1.bits = (List.range (W * NIBBLE_SIZE)).map (bitVar <| next + ·) := by
    simp [make, hst]
  have hdv : (make W none next).1.dv = ds := by simp [make, hds]
  have hwidth : (make W none next).1.width = W := rfl
  refine ⟨by rw [hdv, hlen], hbits, fun k hk => ?_⟩
  have hend : k * NIBBLE_SIZE + NIBBLE_SIZE ≤ W * NIBBLE_SIZE := by
    rw [← Nat.succ_mul]; exact Nat.mul_le_mul_right _ hk
  refine ⟨by simp [bitsBegin, hwidth, hk], by simp [bitsEnd, bitsBegin, hwidth, hk],
    by simpa [hbits] using hend, fun ρ => ?_⟩
  rw [hdv, hval k hk ρ, bitsValue_eq_sum]
  refine Finset.sum_congr rfl fun j hj => ?_
  rw [Finset.mem_range] at hj
  rw [hbits, List.getD_eq_getElem _ _ (by simp; omega), List.getElem_map, List.getElem_range,
    eval_bitVar, Nat.add_assoc]

/-- A temporary of width `1` wraps one DD and allocates no bit, so `bits_end(0)`
lies `NIBBLE_SIZE` places past the end of its empty `f_bits`. -/
theorem make_temporary_bitsEnd :
    (make 1 (some fun _ => ADD.zero) 0).1.bitsEnd 0 = some 4 ∧
      (make 1 (some fun _ => ADD.zero) 0).1.bits.length = 0 := by
  decide

/-- The do-loop of `AlgebraicEncoding::expr` at digit `i`, with `rest` digits
after it: `res += f_dv[i]`, then `res *= 0x10` unless `++i` reached `f_width`. -/
def exprLoop (ρ : Nat → Bool) (dv : List ADD) : Nat → Nat → Int → Int
  | rest, i, res =>
    let res := res + (dv.getD i ADD.zero).eval ρ
    match rest with
    | 0 => res
    | r + 1 => exprLoop ρ dv r (i + 1) (res * 0x10)

/-- `AlgebraicEncoding::expr(assignment)`: the integer the encoding holds. -/
def expr (enc : AlgebraicEncoding) (ρ : Nat → Bool) : Int :=
  exprLoop ρ enc.dv (enc.width - 1) 0 0

/-- The values of the `n` digits from `i` on under `ρ`. -/
def digitValues (ρ : Nat → Bool) (dv : List ADD) : Nat → Nat → List Int
  | _, 0 => []
  | i, n + 1 => (dv.getD i ADD.zero).eval ρ :: digitValues ρ dv (i + 1) n

theorem digitValues_succ (ρ : Nat → Bool) (dv : List ADD) (i n : Nat) :
    digitValues ρ dv i (n + 1) = (dv.getD i ADD.zero).eval ρ :: digitValues ρ dv (i + 1) n := rfl

@[simp] theorem length_digitValues (ρ : Nat → Bool) (dv : List ADD) :
    ∀ (i n : Nat), (digitValues ρ dv i n).length = n := by
  intro i n
  induction n generalizing i with
  | zero => rfl
  | succ n ih => simp [digitValues, ih]

theorem exprLoop_eq (ρ : Nat → Bool) (dv : List ADD) : ∀ (rest i : Nat) (res : Int),
    exprLoop ρ dv rest i res =
      res * 16 ^ rest + leValue (digitValues ρ dv i (rest + 1)).reverse := by
  intro rest
  induction rest with
  | zero => intro i res; simp [exprLoop, digitValues]
  | succ r ih =>
    intro i res
    simp only [exprLoop]
    rw [ih, digitValues_succ ρ dv i (r + 1), List.reverse_cons, leValue_append]
    simp only [List.length_reverse, length_digitValues, leValue_cons, leValue_nil, pow_succ]
    ring

/-- Two fresh digits with `f_dv[0] = 1` and `f_dv[1] = 0` (only bit 3, the low
bit of digit 0, set): `expr` returns `0x10`, where the little-endian reading of
I4 gives `1`. -/
theorem expr_make_two_digits :
    ((make 2 none 0).1.dv.map fun d => d.eval fun i => i == 3) = [1, 0] ∧
      (make 2 none 0).1.expr (fun i => i == 3) = 16 ∧ leValue [1, 0] = 1 := by
  decide

end AlgebraicEncoding

/-! ### Array encodings -/

/-- An `ArrayEncoding`: the DDVectors of its elements, element `0` first, and
its own `f_dv`. -/
structure ArrayEncoding where
  /-- The elements' DDVectors, `f_elements[i]->dv()`. -/
  elements : List (List ADD)
  /-- `f_dv`. -/
  dv : List ADD

namespace ArrayEncoding

/-- `ArrayEncoding(elements)`: `0 < elements.size()` is asserted, then each
element's DDVector is appended to `f_dv` in turn. -/
def make (elements : List (List ADD)) : Option ArrayEncoding :=
  if elements.length = 0 then none
  else some ⟨elements, elements.foldl (fun dv dds => dv ++ dds) []⟩

theorem foldl_append_eq (elements : List (List ADD)) : ∀ acc : List ADD,
    elements.foldl (fun dv dds => dv ++ dds) acc = acc ++ elements.flatten := by
  induction elements with
  | nil => simp
  | cons dds elements ih => intro acc; simp [ih]

theorem length_flatten_of_width {W : Nat} : ∀ {elements : List (List ADD)},
    (∀ dds ∈ elements, dds.length = W) → elements.flatten.length = elements.length * W
  | [], _ => by simp
  | dds :: elements, hw => by
    rw [List.flatten_cons, List.length_append, hw dds (List.mem_cons_self _ _),
      length_flatten_of_width fun d hd => hw d (List.mem_cons_of_mem _ hd), List.length_cons,
      Nat.succ_mul, Nat.add_comm]

/-- **An array encoding concatenates its elements.**  Over `n ≥ 1` elements of
`W` DDs each, `f_dv` is the elements' DDVectors one after the other, element
`0` first: `n * W` DDs. -/
theorem make_dv {elements : List (List ADD)} {W : Nat} (hn : elements ≠ [])
    (hw : ∀ dds ∈ elements, dds.length = W) :
    ∃ enc, make elements = some enc ∧ enc.dv = elements.flatten ∧ enc.dv.length = elements.length * W :=
  ⟨⟨elements, elements.flatten⟩, by simp [make, hn, foldl_append_eq], rfl, length_flatten_of_width hw⟩

end ArrayEncoding

end GnuSmv
