import GnuSmv.Enc.Encoding
import Mathlib.Tactic.LinearCombination

/-!
# The algebraic branches of the postorder routines

An algebraic operand occupies `W = f_enc.width()` entries of `f_add_stack`.
Every `is_binary_algebraic` branch of `compiler.cc` pops the right operand into
`rhs[W], ..., rhs[1]` and then the left one into `lhs[W], ..., lhs[1]`, runs a
loop `for (i = width; (i); -- i)` over the digit pairs, and pushes its results.
An operand is here the list of its popped DDs, `arr[W]` first: the entries as
they lay on the stack, top first.  The carry chain of `walk_add_postorder`
starts at `arr[W]`, so that entry is the least significant digit and an
operand's value is `leValue` of its list.

The arrays of the source are declared `ADD* arr[width]` and written through
uninitialised pointers at indices `1..W`, `arr[W]` one past the array's end:
undefined behaviour.  The model gives them the meaning the loops evidently
intend, `arr[i]` the `i`-th digit, and is exact only under that reading.  The
relational branches write `ADD tmp += ...` (`*=` for `==`) inside the loop,
which is a declaration of a new `tmp` local to the loop body: the `tmp` the
branch pushes keeps the value it is given before the loop.

## Main definitions

* `walkAddAlgebraic` — the carry loop of `walk_add_postorder`.
* `bitwiseLoop` and its members `walkAndAlgebraic`, ..., `walkImpliesAlgebraic`.
* `relationalLoop` and its members `walkLtAlgebraic`, ..., `walkNeAlgebraic`.

## Main results

* `bitwiseLoop_eq`, `addLoop_eq` — results are pushed `arr[W]` first, so the
  result digit of `arr[1]`, the most significant, ends on top.
* `addValues_value` — the carry loop loses `16 ^ (i + 1)` at every column
  whose sum is exactly the base.
* `walkBitwiseAlgebraic_digits`, `walkBitwiseAlgebraic_value` — the digits of
  `&` and `^` are the digit-wise operations, whose values are the bitwise
  operations on the operands' values; those of `|` are the digit-wise `&`.
* `walkRelationalAlgebraic_eq` — an algebraic `<`, `<=`, `>`, `>=` pushes
  `zero()`, `==` pushes `one()` and `!=` its complement, whatever the operands.
-/

namespace GnuSmv

namespace BECompiler

/-! ### Digit-wise loops -/

/-- The digit loop shared by the algebraic branches of the bitwise postorders:
for `i = W` down to `1`, push `op(lhs[i], rhs[i])`. -/
def bitwiseLoop (op : ADD → ADD → ADD) : List ADD → List ADD → List ADD → List ADD
  | l :: ls, r :: rs, stack => bitwiseLoop op ls rs (op l r :: stack)
  | _, _, stack => stack

/-- `walk_and_postorder`, algebraic branch: `lhs[i].BWTimes(rhs[i])`. -/
def walkAndAlgebraic : List ADD → List ADD → List ADD → List ADD := bitwiseLoop ADD.bwTimes

/-- `walk_or_postorder`, algebraic branch: the source also uses
`lhs[i].BWTimes(rhs[i])` here. -/
def walkOrAlgebraic : List ADD → List ADD → List ADD → List ADD := bitwiseLoop ADD.bwTimes

/-- `walk_xor_postorder`, algebraic branch: `lhs[i].BWXor(rhs[i])`. -/
def walkXorAlgebraic : List ADD → List ADD → List ADD → List ADD := bitwiseLoop ADD.bwXor

/-- `walk_xnor_postorder`, algebraic branch: `lhs[i].BWXnor(rhs[i])`. -/
def walkXnorAlgebraic : List ADD → List ADD → List ADD → List ADD := bitwiseLoop ADD.bwXnor

/-- `walk_implies_postorder`, algebraic branch: `lhs[i].BWCmpl().BWXOr(rhs[i])`. -/
def walkImpliesAlgebraic : List ADD → List ADD → List ADD → List ADD :=
  bitwiseLoop fun l r => l.bwCmpl.bwXor r

/-- The carry loop of `walk_add_postorder`, algebraic branch:
`tmp = lhs[i] + rhs[i] + carry`, `carry = base.LT(tmp)`, push `tmp % base`. -/
def addLoop : ADD → List ADD → List ADD → List ADD → List ADD
  | carry, l :: ls, r :: rs, stack =>
    let tmp := (l.plus r).plus carry
    addLoop (ADD.base.lt tmp) ls rs (tmp.modulus ADD.base :: stack)
  | _, _, _, stack => stack

/-- `walk_add_postorder`, algebraic branch, from `carry = 0`. -/
def walkAddAlgebraic (lhs rhs stack : List ADD) : List ADD := addLoop ADD.zero lhs rhs stack

/-- The result digits of the carry loop, `arr[W]` first. -/
def addDigits : ADD → List ADD → List ADD → List ADD
  | carry, l :: ls, r :: rs =>
    let tmp := (l.plus r).plus carry
    tmp.modulus ADD.base :: addDigits (ADD.base.lt tmp) ls rs
  | _, _, _ => []

/-- **The bitwise branches push their results reversed.**  The digits are
computed `arr[W]` first and pushed in that order, so the stack holds them
`arr[1]` first. -/
theorem bitwiseLoop_eq (op : ADD → ADD → ADD) : ∀ (ls rs stack : List ADD),
    bitwiseLoop op ls rs stack = (List.zipWith op ls rs).reverse ++ stack
  | l :: ls, r :: rs, stack => by simp [bitwiseLoop, bitwiseLoop_eq op ls rs]
  | [], _, _ | _ :: _, [], _ => rfl

/-- **The carry loop pushes its result reversed**, as the bitwise loops do. -/
theorem addLoop_eq : ∀ (carry : ADD) (ls rs stack : List ADD),
    addLoop carry ls rs stack = (addDigits carry ls rs).reverse ++ stack
  | carry, l :: ls, r :: rs, stack => by simp [addLoop, addDigits, addLoop_eq _ ls rs]
  | _, [], _, _ | _, _ :: _, [], _ => rfl

/-- Two operands `x = y = 1` of width `2` (`arr[2] = 1`, `arr[1] = 0`): the
result of `x & y` is pushed with its digit `arr[1] = 0` on top, where the next
routine reads the least significant digit. -/
theorem walkAndAlgebraic_one_one :
    walkAndAlgebraic [.const 1, .const 0] [.const 1, .const 0] [] = [.const 0, .const 1] ∧
      leValue [1, 0] = 1 ∧ leValue [0, 1] = 16 := by
  decide

/-! ### The carry loop on digit values -/

/-- The column sums `x_i + y_i + carry` the carry loop forms on digit values,
`arr[W]` first, with the code's rule `carry = base.LT(tmp)`. -/
def columnSums : Int → List Int → List Int → List Int
  | c, x :: xs, y :: ys => (x + y + c) :: columnSums (ADD.ofBool (decide (16 < x + y + c))) xs ys
  | _, _, _ => []

/-- The carry loop evaluates column by column: its digits are the column sums
modulo the base. -/
theorem addDigits_eval (ρ : Nat → Bool) : ∀ (carry : ADD) (ls rs : List ADD),
    (addDigits carry ls rs).map (ADD.eval ρ) =
      (columnSums (carry.eval ρ) (ls.map (ADD.eval ρ)) (rs.map (ADD.eval ρ))).map (Int.tmod · 16)
  | carry, l :: ls, r :: rs => by
    simp [addDigits, columnSums, addDigits_eval ρ _ ls rs]
  | _, [], _ | _, _ :: _, [] => rfl

/-- One column: its sum is the digit, `16` times the code's carry, and `16`
more when the sum is exactly the base. -/
theorem column_eq (t : Int) (h0 : 0 ≤ t) (h1 : t < 32) :
    t.tmod 16 + 16 * ADD.ofBool (decide (16 < t)) + 16 * (if t = 16 then 1 else 0) = t := by
  rw [Int.tmod_eq_emod h0 (by decide)]
  by_cases h : 16 < t <;> by_cases h' : t = 16 <;> simp [ADD.ofBool, h, h'] <;> omega

/-- Digit values in `[0, 16)`. -/
def IsDigits (xs : List Int) : Prop := ∀ x ∈ xs, 0 ≤ x ∧ x < 16

instance (xs : List Int) : Decidable (IsDigits xs) :=
  inferInstanceAs (Decidable (∀ x ∈ xs, 0 ≤ x ∧ x < 16))

@[simp] theorem isDigits_cons (x : Int) (xs : List Int) :
    IsDigits (x :: xs) ↔ (0 ≤ x ∧ x < 16) ∧ IsDigits xs := List.forall_mem_cons

/-- **What the carry loop adds.**  For digit vectors of one length and a carry
in `{0, 1}`, the digits of the code's sum, a final carry `cout`, and `16` times
the value of the columns whose sum is exactly the base add up to `x + y + c`:
at every such column the code drops a carry of `16 ^ (i + 1)`. -/
theorem addValues_value : ∀ (c : Int) (xs ys : List Int), IsDigits xs → IsDigits ys →
    xs.length = ys.length → 0 ≤ c → c ≤ 1 →
    ∃ cout, 0 ≤ cout ∧ cout ≤ 1 ∧
      leValue ((columnSums c xs ys).map (Int.tmod · 16)) + 16 ^ xs.length * cout +
        16 * leValue ((columnSums c xs ys).map fun t => if t = 16 then 1 else 0) =
          leValue xs + leValue ys + c
  | c, [], [], _, _, _, h0, h1 => ⟨c, h0, h1, by simp [columnSums]⟩
  | c, x :: xs, y :: ys, hx, hy, hlen, h0, h1 => by
    have hx0 := hx x (List.mem_cons_self _ _)
    have hy0 := hy y (List.mem_cons_self _ _)
    obtain ⟨cout, hc0, hc1, ih⟩ := addValues_value (ADD.ofBool (decide (16 < x + y + c))) xs ys
      (fun z hz => hx z (List.mem_cons_of_mem _ hz)) (fun z hz => hy z (List.mem_cons_of_mem _ hz))
      (by simpa using hlen) (ADD.ofBool_nonneg _) (ADD.ofBool_le_one _)
    have hcol := column_eq (x + y + c) (by omega) (by omega)
    refine ⟨cout, hc0, hc1, ?_⟩
    simp only [columnSums, List.map_cons, leValue_cons, List.length_cons, pow_succ] at ih ⊢
    linear_combination hcol + 16 * ih

/-- **The code's algebraic sum.**  For operands whose digits lie in `[0, 16)`,
the digits `walk_add_postorder` pushes, read least significant first, add up
to `x + y` less `16 ^ (i + 1)` for every column `i` whose sum is exactly the
base, modulo the dropped final carry. -/
theorem walkAddAlgebraic_value (ρ : Nat → Bool) (lhs rhs : List ADD)
    (hl : IsDigits (lhs.map (ADD.eval ρ))) (hr : IsDigits (rhs.map (ADD.eval ρ)))
    (hlen : lhs.length = rhs.length) :
    ∃ cout, 0 ≤ cout ∧ cout ≤ 1 ∧
      leValue ((walkAddAlgebraic lhs rhs []).reverse.map (ADD.eval ρ)) + 16 ^ lhs.length * cout +
        16 * leValue ((columnSums 0 (lhs.map (ADD.eval ρ)) (rhs.map (ADD.eval ρ))).map
          fun t => if t = 16 then 1 else 0) =
        leValue (lhs.map (ADD.eval ρ)) + leValue (rhs.map (ADD.eval ρ)) := by
  rw [walkAddAlgebraic, addLoop_eq, List.append_nil, List.reverse_reverse, addDigits_eval]
  simpa using addValues_value 0 _ _ hl hr (by simpa using hlen) le_rfl zero_le_one

/-- Operands `x = y = 8` of width `2`: one column sums to `16`, so the code's
digits and its final carry fall `16` short of `x + y`. -/
theorem walkAddAlgebraic_value_eight :
    ∃ cout, 0 ≤ cout ∧ cout ≤ 1 ∧
      leValue ((walkAddAlgebraic [.const 8, .const 0] [.const 8, .const 0] []).reverse.map
          (ADD.eval fun _ => false)) + 16 ^ [ADD.const 8, .const 0].length * cout +
        16 * leValue ((columnSums 0 ([ADD.const 8, .const 0].map (ADD.eval fun _ => false))
          ([ADD.const 8, .const 0].map (ADD.eval fun _ => false))).map fun t => if t = 16 then 1 else 0) =
        leValue ([ADD.const 8, .const 0].map (ADD.eval fun _ => false)) +
          leValue ([ADD.const 8, .const 0].map (ADD.eval fun _ => false)) :=
  walkAddAlgebraic_value (fun _ => false) [.const 8, .const 0] [.const 8, .const 0] (by decide) (by decide) rfl

/-- Two operands `x = y = 8` of width `2` (`arr[2] = 8`, `arr[1] = 0`): the
column sum `16` does not carry, and the code's sum has digits `0, 0` where
`8 + 8 = 16` has digits `0, 1`. -/
theorem walkAddAlgebraic_eight_eight :
    walkAddAlgebraic [.const 8, .const 0] [.const 8, .const 0] [] = [.const 0, .const 0] ∧
      leValue [8, 0] + leValue [8, 0] = leValue [0, 1] := by
  decide

/-! ### Bitwise digits -/

/-- Read `arr[W]` first, the digits a bitwise loop computes are its operator
applied position by position. -/
theorem bitwiseLoop_eval (ρ : Nat → Bool) {op : ADD → ADD → ADD} {f : Int → Int → Int}
    (hop : ∀ a b, (op a b).eval ρ = f (a.eval ρ) (b.eval ρ)) (lhs rhs : List ADD) :
    (bitwiseLoop op lhs rhs []).reverse.map (ADD.eval ρ) =
      List.zipWith f (lhs.map (ADD.eval ρ)) (rhs.map (ADD.eval ρ)) := by
  simp [bitwiseLoop_eq, List.map_zipWith, List.zipWith_map, hop]

/-- The `&` and the `^` of two digits are digits. -/
theorem land_xor_digit {a b : Int} (ha : 0 ≤ a ∧ a < 16) (hb : 0 ≤ b ∧ b < 16) :
    (0 ≤ Int.land a b ∧ Int.land a b < 16) ∧ (0 ≤ Int.xor a b ∧ Int.xor a b < 16) := by
  lift a to Nat using ha.1
  lift b to Nat using hb.1
  have hand : a &&& b ≤ a := Nat.and_le_left
  have hxor : a ^^^ b < 2 ^ 4 := Nat.xor_lt_two_pow (by omega) (by omega)
  change (0 ≤ ((a &&& b : Nat) : Int) ∧ ((a &&& b : Nat) : Int) < 16) ∧
    (0 ≤ ((a ^^^ b : Nat) : Int) ∧ ((a ^^^ b : Nat) : Int) < 16)
  omega

/-- A digit-wise operator that keeps digits in `[0, 16)` gives digit vectors. -/
theorem isDigits_zipWith {f : Int → Int → Int}
    (hf : ∀ a b, 0 ≤ a ∧ a < 16 → 0 ≤ b ∧ b < 16 → 0 ≤ f a b ∧ f a b < 16) :
    ∀ {xs ys : List Int}, IsDigits xs → IsDigits ys → IsDigits (List.zipWith f xs ys)
  | x :: xs, y :: ys, hx, hy => by
    rw [isDigits_cons] at hx hy
    exact (isDigits_cons _ _).mpr ⟨hf x y hx.1 hy.1, isDigits_zipWith hf hx.2 hy.2⟩
  | [], _, _, _ | _ :: _, [], _, _ => by simp [IsDigits]

/-- **The digits of the algebraic `&`, `|` and `^`.**  Read `arr[W]` first, the
digits `walk_and_postorder` and `walk_xor_postorder` push are the digit-wise `&`
and `^` of the operands' digits, digits again; the digits `walk_or_postorder`
pushes are their digit-wise `&` as well, not their `|`. -/
theorem walkBitwiseAlgebraic_digits (ρ : Nat → Bool) (lhs rhs : List ADD) :
    (walkAndAlgebraic lhs rhs []).reverse.map (ADD.eval ρ) =
        List.zipWith Int.land (lhs.map (ADD.eval ρ)) (rhs.map (ADD.eval ρ)) ∧
      (walkOrAlgebraic lhs rhs []).reverse.map (ADD.eval ρ) =
        List.zipWith Int.land (lhs.map (ADD.eval ρ)) (rhs.map (ADD.eval ρ)) ∧
      (walkXorAlgebraic lhs rhs []).reverse.map (ADD.eval ρ) =
        List.zipWith Int.xor (lhs.map (ADD.eval ρ)) (rhs.map (ADD.eval ρ)) ∧
      (IsDigits (lhs.map (ADD.eval ρ)) → IsDigits (rhs.map (ADD.eval ρ)) →
        IsDigits (List.zipWith Int.land (lhs.map (ADD.eval ρ)) (rhs.map (ADD.eval ρ))) ∧
          IsDigits (List.zipWith Int.xor (lhs.map (ADD.eval ρ)) (rhs.map (ADD.eval ρ)))) :=
  ⟨bitwiseLoop_eval ρ (ADD.eval_bwTimes ρ) lhs rhs, bitwiseLoop_eval ρ (ADD.eval_bwTimes ρ) lhs rhs,
    bitwiseLoop_eval ρ (ADD.eval_bwXor ρ) lhs rhs, fun hl hr =>
      ⟨isDigits_zipWith (fun _ _ ha hb => (land_xor_digit ha hb).1) hl hr,
        isDigits_zipWith (fun _ _ ha hb => (land_xor_digit ha hb).2) hl hr⟩⟩

/-- Splitting off the low nibble commutes with `&&&` and `^^^`. -/
theorem nibble_split {a b c d : Nat} (ha : a < 16) (hc : c < 16) :
    (a + 16 * b) &&& (c + 16 * d) = (a &&& c) + 16 * (b &&& d) ∧
      (a + 16 * b) ^^^ (c + 16 * d) = (a ^^^ c) + 16 * (b ^^^ d) := by
  have split : ∀ {x : Nat} (y : Nat), x < 2 ^ 4 → ∀ j,
      (x + 16 * y).testBit j = if j < 4 then x.testBit j else y.testBit (j - 4) := fun y hx j => by
    rw [show _ + 16 * y = 2 ^ 4 * y + _ by ring]
    exact Nat.testBit_mul_pow_two_add y hx j
  have ha' : a < 2 ^ 4 := ha
  have hc' : c < 2 ^ 4 := hc
  constructor <;> refine Nat.eq_of_testBit_eq fun j => ?_
  · rw [split _ (Nat.and_lt_two_pow _ hc'), Nat.testBit_and, split _ ha', split _ hc']
    split_ifs <;> simp
  · rw [split _ (Nat.xor_lt_two_pow ha' hc'), Nat.testBit_xor, split _ ha', split _ hc']
    split_ifs <;> simp

/-- The same split for integer digits over nonnegative rests. -/
theorem land_xor_nibble {x y X Y : Int} (hx : 0 ≤ x ∧ x < 16) (hy : 0 ≤ y ∧ y < 16) (hX : 0 ≤ X)
    (hY : 0 ≤ Y) :
    Int.land (x + 16 * X) (y + 16 * Y) = Int.land x y + 16 * Int.land X Y ∧
      Int.xor (x + 16 * X) (y + 16 * Y) = Int.xor x y + 16 * Int.xor X Y := by
  lift x to Nat using hx.1
  lift y to Nat using hy.1
  lift X to Nat using hX
  lift Y to Nat using hY
  have hcast : ∀ m n : Nat, (m : Int) + 16 * n = ((m + 16 * n : Nat) : Int) := by intros; push_cast; ring
  have hland : ∀ m n : Nat, Int.land m n = ((m &&& n : Nat) : Int) := fun _ _ => rfl
  have hxor : ∀ m n : Nat, Int.xor m n = ((m ^^^ n : Nat) : Int) := fun _ _ => rfl
  obtain ⟨h1, h2⟩ := @nibble_split x X y Y (by omega) (by omega)
  rw [hcast, hcast, hland, hland, hland, hxor, hxor, hxor, h1, h2]
  push_cast
  exact ⟨rfl, rfl⟩

theorem leValue_nonneg : ∀ {xs : List Int}, IsDigits xs → 0 ≤ leValue xs
  | [], _ => le_rfl
  | x :: xs, h => by
    rw [isDigits_cons] at h
    have := leValue_nonneg h.2
    rw [leValue_cons]
    omega

/-- Digit-wise `&` and `^` of digit vectors are the bitwise operations on their values. -/
theorem leValue_zipWith_land_xor : ∀ {xs ys : List Int}, IsDigits xs → IsDigits ys →
    xs.length = ys.length →
    leValue (List.zipWith Int.land xs ys) = Int.land (leValue xs) (leValue ys) ∧
      leValue (List.zipWith Int.xor xs ys) = Int.xor (leValue xs) (leValue ys)
  | [], [], _, _, _ => ⟨rfl, rfl⟩
  | x :: xs, y :: ys, hx, hy, hlen => by
    rw [isDigits_cons] at hx hy
    obtain ⟨ih₁, ih₂⟩ := leValue_zipWith_land_xor hx.2 hy.2 (by simpa using hlen)
    obtain ⟨h₁, h₂⟩ := land_xor_nibble hx.1 hy.1 (leValue_nonneg hx.2) (leValue_nonneg hy.2)
    simp only [List.zipWith_cons_cons, leValue_cons, ih₁, ih₂, h₁, h₂, and_self]

/-- **The algebraic `&` and `^` are bitwise on the values.**  For digit vectors
of one length, the digits `walk_and_postorder` and `walk_xor_postorder` push,
read `arr[W]` first, have the values `val(x) & val(y)` and `val(x) ^ val(y)`;
those `walk_or_postorder` pushes have the value `val(x) & val(y)` as well. -/
theorem walkBitwiseAlgebraic_value (ρ : Nat → Bool) (lhs rhs : List ADD)
    (hl : IsDigits (lhs.map (ADD.eval ρ))) (hr : IsDigits (rhs.map (ADD.eval ρ)))
    (hlen : lhs.length = rhs.length) :
    leValue ((walkAndAlgebraic lhs rhs []).reverse.map (ADD.eval ρ)) =
        Int.land (leValue (lhs.map (ADD.eval ρ))) (leValue (rhs.map (ADD.eval ρ))) ∧
      leValue ((walkOrAlgebraic lhs rhs []).reverse.map (ADD.eval ρ)) =
        Int.land (leValue (lhs.map (ADD.eval ρ))) (leValue (rhs.map (ADD.eval ρ))) ∧
      leValue ((walkXorAlgebraic lhs rhs []).reverse.map (ADD.eval ρ)) =
        Int.xor (leValue (lhs.map (ADD.eval ρ))) (leValue (rhs.map (ADD.eval ρ))) := by
  obtain ⟨hand, hor, hxor, -⟩ := walkBitwiseAlgebraic_digits ρ lhs rhs
  obtain ⟨h₁, h₂⟩ := leValue_zipWith_land_xor hl hr (by simpa using hlen)
  rw [hand, hor, hxor, h₁, h₂]
  exact ⟨rfl, rfl, rfl⟩

/-- Operands `x = 1` and `y = 2` of width `1`: `&` and `|` both give `0`, `^` gives `3`. -/
theorem walkBitwiseAlgebraic_value_one_two :
    leValue ((walkAndAlgebraic [.const 1] [.const 2] []).reverse.map (ADD.eval fun _ => false)) =
        Int.land (leValue ([ADD.const 1].map (ADD.eval fun _ => false)))
          (leValue ([ADD.const 2].map (ADD.eval fun _ => false))) ∧
      leValue ((walkOrAlgebraic [.const 1] [.const 2] []).reverse.map (ADD.eval fun _ => false)) =
        Int.land (leValue ([ADD.const 1].map (ADD.eval fun _ => false)))
          (leValue ([ADD.const 2].map (ADD.eval fun _ => false))) ∧
      leValue ((walkXorAlgebraic [.const 1] [.const 2] []).reverse.map (ADD.eval fun _ => false)) =
        Int.xor (leValue ([ADD.const 1].map (ADD.eval fun _ => false)))
          (leValue ([ADD.const 2].map (ADD.eval fun _ => false))) :=
  walkBitwiseAlgebraic_value (fun _ => false) [.const 1] [.const 2] (by decide) (by decide) rfl

/-! ### Relational branches -/

/-- The accumulation loop of the algebraic relational branches,
`for (i = width; (i); -- i) { ADD tmp += ...; }` (`*=` for `==` and `!=`).
The statement in the body is read as what it is written as, a declaration: each
iteration declares a `tmp` of its own, local to the body, and the `tmp`
declared before the loop, the one the branch pushes, keeps its value. -/
def relationalLoop (tmp : ADD) : List ADD → List ADD → ADD
  | _ :: ls, _ :: rs => relationalLoop tmp ls rs
  | _, _ => tmp

/-- The relational loop leaves the accumulator it starts from. -/
@[simp] theorem relationalLoop_eq (tmp : ADD) : ∀ ls rs : List ADD, relationalLoop tmp ls rs = tmp
  | _ :: ls, _ :: rs => relationalLoop_eq tmp ls rs
  | [], _ | _ :: _, [] => rfl

/-- `walk_lt_postorder`, algebraic branch: `ADD tmp = f_enc.zero();`, then
`ADD tmp += (*lhs[i]).LT(*rhs[i]);` in the loop. -/
def walkLtAlgebraic (lhs rhs : List ADD) : ADD := relationalLoop ADD.zero lhs rhs

/-- `walk_le_postorder`, algebraic branch: `ADD tmp = f_enc.zero();`, then
`ADD tmp += (*lhs[i]).LEQ(*rhs[i]);` in the loop. -/
def walkLeAlgebraic (lhs rhs : List ADD) : ADD := relationalLoop ADD.zero lhs rhs

/-- `walk_gt_postorder`, algebraic branch: `ADD tmp = f_enc.zero();`, then
`ADD tmp += (*rhs[i]).LT(*lhs[i]);` in the loop. -/
def walkGtAlgebraic (lhs rhs : List ADD) : ADD := relationalLoop ADD.zero lhs rhs

/-- `walk_ge_postorder`, algebraic branch: `ADD tmp = f_enc.zero();`, then
`ADD tmp += (*rhs[i]).LEQ(*lhs[i]);` in the loop. -/
def walkGeAlgebraic (lhs rhs : List ADD) : ADD := relationalLoop ADD.zero lhs rhs

/-- `walk_eq_postorder`, algebraic branch: `ADD tmp = f_enc.one();`, then
`ADD tmp *= (*lhs[i]).Equals(*rhs[i]);` in the loop. -/
def walkEqAlgebraic (lhs rhs : List ADD) : ADD := relationalLoop ADD.one lhs rhs

/-- `walk_ne_postorder`, algebraic branch: the loop of `walk_eq_postorder`,
then `f_add_stack.push_back(tmp.Cmpl())`. -/
def walkNeAlgebraic (lhs rhs : List ADD) : ADD := (relationalLoop ADD.one lhs rhs).cmpl

/-- **The algebraic relationals push their initial accumulator.**  Whatever the
operands, `<`, `<=`, `>` and `>=` push `f_enc.zero()`, `==` pushes
`f_enc.one()` and `!=` its complement. -/
theorem walkRelationalAlgebraic_eq (lhs rhs : List ADD) :
    walkLtAlgebraic lhs rhs = ADD.zero ∧ walkLeAlgebraic lhs rhs = ADD.zero ∧
      walkGtAlgebraic lhs rhs = ADD.zero ∧ walkGeAlgebraic lhs rhs = ADD.zero ∧
      walkEqAlgebraic lhs rhs = ADD.one ∧ walkNeAlgebraic lhs rhs = ADD.one.cmpl := by
  simp only [walkLtAlgebraic, walkLeAlgebraic, walkGtAlgebraic, walkGeAlgebraic, walkEqAlgebraic,
    walkNeAlgebraic, relationalLoop_eq, and_self]

/-- Operands `x = 0` and `y = 0x11` of width `2`: the algebraic `<` evaluates
to `0`, although `x < y`. -/
theorem walkLtAlgebraic_zero_seventeen :
    (walkLtAlgebraic [.const 0, .const 0] [.const 1, .const 1]).eval (fun _ => false) = 0 ∧
      leValue [0, 0] < leValue [1, 1] := by
  decide

end BECompiler

end GnuSmv
