import DownSample.IntegerVector.Arithmetic

/-! # Products of integer vectors

`iv_mult` computes the product column by column. The products of a column are added up in
two 64-bit accumulators, one of low and one of high halves, and only the top words of the
operands count with their signs. As long as a column has fewer than `2 ^ 29` products no
accumulator overflows, and the destination holds the product of the operands, cut to its
length (`DownSample.Iv.vec_mult`).
-/

namespace DownSample

namespace Iv

open Finset

/-- `mult_u_u(a, b)`. -/
def multUU (a b : Word) : BitVec 64 := zext a * zext b

/-- `mult_u_s(a, b)`. -/
def multUS (a b : Word) : BitVec 64 := zext a * sext b

/-- `mult_s_u(a, b)`. -/
def multSU (a b : Word) : BitVec 64 := sext a * zext b

/-- `mult_s_s(a, b)`. -/
def multSS (a b : Word) : BitVec 64 := sext a * sext b

/-- The accumulators `l1` and `l2`. -/
structure Acc where
  l1 : BitVec 64
  l2 : BitVec 64
deriving DecidableEq

/-- `accumulate(a, l1, l2)` on a `Slong` or on a `Ulong`. -/
def accumulate (arith : Bool) (a : BitVec 64) (s : Acc) : Acc :=
  ⟨s.l1 + zext (a.setWidth 32), s.l2 + shr arith a⟩

/-- `l2 += (Ulong) (unsigned) (l1 >> 32)`. -/
def carried (s : Acc) : BitVec 64 := s.l2 + zext ((s.l1 >>> 32).setWidth 32)

/-- The end of a column: its low word is stored and the rest is carried. -/
def storeColumn (k : ℕ) (s : Acc × Words) : Acc × Words :=
  (⟨zext ((carried s.1).setWidth 32), (carried s.1).sshiftRight 32⟩,
    Function.update s.2 k (s.1.l1.setWidth 32))

/-- The products `OP1[k-i] * OP2[i]` for `count` indices from `i` on. -/
def accumulateUU (op1 op2 : Words) (k i count : ℕ) (s : Acc) : Acc :=
  rounds (fun j => accumulate false (multUU (op1 (k - (i + j))) (op2 (i + j)))) count s

/-- A column below the top word of the shorter operand. -/
def multLow (op1 op2 : Words) (k : ℕ) (s : Acc) : Acc := accumulateUU op1 op2 k 0 (k + 1) s

/-- A column below the top word of the longer operand. -/
def multMiddle (m2 : ℕ) (op1 op2 : Words) (k : ℕ) (s : Acc) : Acc :=
  let s := accumulate true (multUS (op1 (k + 1 - m2)) (op2 (m2 - 1))) s
  accumulateUU op1 op2 k 0 (m2 - 1) s

/-- A column with the top words of both operands. -/
def multHigh (m1 m2 t2 : ℕ) (op1 op2 : Words) (k : ℕ) (s : Acc) : Acc :=
  let s := accumulate true (multUS (op1 (k + 1 - m2)) (op2 (m2 - 1))) s
  let s := accumulateUU op1 op2 k (k - t2 + 1) (m2 - 1 - (k - t2 + 1)) s
  accumulate true (multSU (op1 (m1 - 1)) (op2 (k + 1 - m1))) s

/-- `for(int k=start; k < start + count; k++)` over the columns. -/
def columns (body : ℕ → Acc → Acc) (start count : ℕ) (s : Acc × Words) : Acc × Words :=
  rounds (fun j s => storeColumn (start + j) (body (start + j) s.1, s.2)) count s

/-- The top column, the word above it and the extension, as far as the destination goes. -/
def multTop (m1 m2 nr : ℕ) (op1 op2 : Words) (s : Acc × Words) : Words :=
  if m1 + m2 - 1 ≤ nr then
    let a := accumulate true (multSS (op1 (m1 - 1)) (op2 (m2 - 1))) s.1
    let r := Function.update s.2 (m1 + m2 - 2) (a.l1.setWidth 32)
    if m1 + m2 ≤ nr then
      let r := Function.update r (m1 + m2 - 1) ((carried a).setWidth 32)
      extend (nr - (m1 + m2)) r (m1 + m2) (ones (isNeg (r (m1 + m2 - 1))))
    else r
  else s.2

/-- `iv_mult<N1, N2, Nr>`. An overflow of the single-word product, undefined in C++, wraps
here. -/
def mult (n1 n2 nr : ℕ) (op1 op2 r : Words) : Words :=
  if nr = 1 then Function.update r 0 (op1 0 * op2 0)
  else if n1 = 1 ∧ n2 = 1 then assignInt64 nr r (sext (op1 0) * sext (op2 0))
  else
    let m1 := max n1 n2
    let m2 := min n1 n2
    let p1 := if n2 ≤ n1 then op1 else op2
    let p2 := if n2 ≤ n1 then op2 else op1
    let t1 := min (m2 - 1) nr
    let t2 := min (m1 - 1) nr
    let t3 := min (m1 + m2 - 2) nr
    let s := columns (multLow p1 p2) 0 t1 (⟨0, 0⟩, r)
    let s := columns (multMiddle m2 p1 p2) t1 (t2 - t1) s
    let s := columns (multHigh m1 m2 t2 p1 p2) t2 (t3 - t2) s
    multTop m1 m2 nr p1 p2 s

/-! ## Accumulators -/

/-- A product as a `Slong` or as a `Ulong`. -/
def readAs (arith : Bool) (a : BitVec 64) : ℤ := if arith then a.toInt else a.toNat

/-- The accumulators hold a number after a count of products. -/
structure Holds (s : Acc) (count : ℕ) (total : ℤ) : Prop where
  value : s.l1.toInt + 2 ^ 32 * s.l2.toInt = total
  low : 0 ≤ s.l1.toInt ∧ s.l1.toInt ≤ (count + 1) * 2 ^ 32
  high : -((count + 1) * 2 ^ 32) ≤ s.l2.toInt ∧ s.l2.toInt ≤ (count + 1) * 2 ^ 32

/-- The lower word of a `Slong` is its remainder by the range of a word. -/
theorem toNat_low (a : BitVec 64) : ((a.setWidth 32).toNat : ℤ) = a.toInt % 2 ^ 32 := by
  rw [setWidth_eq_ofInt, BitVec.toNat_ofInt, Int.toNat_of_nonneg (by omega)]
  omega

/-- An unsigned shift by a word divides the unsigned number. -/
theorem toInt_ushiftRight (a : BitVec 64) : (a >>> 32).toInt = a.toNat / 2 ^ 32 := by
  have below := a.isLt
  have low : (a >>> 32).toNat = a.toNat / 2 ^ 32 := by
    rw [BitVec.toNat_ushiftRight, Nat.shiftRight_eq_div_pow]
  rw [BitVec.toInt_eq_toNat_of_lt (by omega), low]
  rfl

/-- Shifting by a word divides, in either reading. -/
theorem toInt_shr_readAs (arith : Bool) (a : BitVec 64) :
    (shr arith a).toInt = readAs arith a / 2 ^ 32 := by
  cases arith with
  | true => exact toInt_shr (.inl rfl)
  | false => exact toInt_ushiftRight a

/-- Both readings have the same lower word. -/
theorem readAs_emod (arith : Bool) (a : BitVec 64) :
    readAs arith a % 2 ^ 32 = a.toInt % 2 ^ 32 := by
  cases arith with
  | true => rfl
  | false =>
      unfold readAs
      rw [BitVec.toInt_eq_toNat_cond]
      split <;> omega

/-- Either reading lies in the union of the two ranges. -/
theorem readAs_bounds (arith : Bool) (a : BitVec 64) :
    -2 ^ 63 ≤ readAs arith a ∧ readAs arith a < 2 ^ 64 := by
  have below := a.isLt
  have least := BitVec.le_toInt a
  have most := BitVec.toInt_lt (x := a)
  unfold readAs
  split <;> omega

/-- Adding a product to accumulators that have not taken many does not overflow them. -/
theorem Holds.accumulate {s : Acc} {count : ℕ} {total : ℤ} (holds : Holds s count total)
    (few : count < 2 ^ 29) (arith : Bool) (a : BitVec 64) :
    Holds (accumulate arith a s) (count + 1) (total + readAs arith a) := by
  obtain ⟨value, low, high⟩ := holds
  have bounds := readAs_bounds arith a
  have same := readAs_emod arith a
  have l1 : (s.l1 + zext (a.setWidth 32)).toInt = s.l1.toInt + readAs arith a % 2 ^ 32 := by
    rw [toInt_add_of_fits, toInt_zext, toNat_low, same]
    rw [toInt_zext, toNat_low]
    omega
  have l2 : (s.l2 + shr arith a).toInt = s.l2.toInt + readAs arith a / 2 ^ 32 := by
    rw [toInt_add_of_fits, toInt_shr_readAs]
    rw [toInt_shr_readAs]
    omega
  constructor
  · change (s.l1 + zext (a.setWidth 32)).toInt + 2 ^ 32 * (s.l2 + shr arith a).toInt = _
    omega
  · change 0 ≤ (s.l1 + zext (a.setWidth 32)).toInt ∧ (s.l1 + zext (a.setWidth 32)).toInt ≤ _
    push_cast
    omega
  · change _ ≤ (s.l2 + shr arith a).toInt ∧ (s.l2 + shr arith a).toInt ≤ _
    push_cast
    omega

/-- What goes to the next column is the number divided by the range of a word. -/
theorem toInt_carried {s : Acc} {count : ℕ} {total : ℤ} (holds : Holds s count total)
    (few : count < 2 ^ 29) : (carried s).toInt = total / 2 ^ 32 := by
  obtain ⟨value, low, high⟩ := holds
  have unsigned : (s.l1.toNat : ℤ) = s.l1.toInt := by
    have below := s.l1.isLt
    rw [BitVec.toInt_eq_toNat_cond] at low ⊢
    split
    · rfl
    · rename_i large
      rw [if_neg large] at low
      omega
  have half : ((s.l1 >>> 32).setWidth 32).toNat = s.l1.toInt / 2 ^ 32 := by
    rw [toNat_low, toInt_ushiftRight, unsigned]
    omega
  rw [carried, toInt_add_of_fits, toInt_zext, half]
  · omega
  · rw [toInt_zext, half]
    omega

/-- Storing a column writes the lowest word and leaves the rest in the accumulators. -/
theorem Holds.store {s : Acc × Words} {count : ℕ} {total : ℤ} (holds : Holds s.1 count total)
    (few : count < 2 ^ 29) (k : ℕ) :
    Holds (storeColumn k s).1 0 (total / 2 ^ 32) ∧
      (storeColumn k s).2 = Function.update s.2 k (BitVec.ofInt 32 (total % 2 ^ 32)) := by
  have quotient := toInt_carried holds few
  obtain ⟨value, low, high⟩ := holds
  have l1 : (storeColumn k s).1.l1.toInt = total / 2 ^ 32 % 2 ^ 32 := by
    change (zext ((carried s.1).setWidth 32)).toInt = _
    rw [toInt_zext, toNat_low, quotient]
  have l2 : (storeColumn k s).1.l2.toInt = total / 2 ^ 32 / 2 ^ 32 := by
    change ((carried s.1).sshiftRight 32).toInt = _
    rw [BitVec.toInt_sshiftRight, Int.shiftRight_eq_div_pow, quotient]
    rfl
  refine ⟨⟨?_, ?_, ?_⟩, ?_⟩
  · omega
  · omega
  · omega
  · change Function.update s.2 k (s.1.l1.setWidth 32) = _
    have word : s.1.l1.toInt % 2 ^ 32 = total % 2 ^ 32 := by omega
    rw [setWidth_eq_ofInt, word]

/-! ## Products of words -/

/-- A word is the same unsigned number in 64 bits. -/
theorem toNat_zext (w : Word) : (zext w).toNat = w.toNat := by
  have small := w.isLt
  rw [zext, BitVec.toNat_setWidth, Nat.mod_eq_of_lt (by omega)]

/-- The `Ulong` product of two words without signs is exact. -/
theorem readAs_multUU (a b : Word) : readAs false (multUU a b) = a.toNat * b.toNat := by
  have bound : a.toNat * b.toNat < 2 ^ 64 :=
    (Nat.mul_lt_mul'' a.isLt b.isLt).trans_eq (by norm_num)
  change (((zext a * zext b).toNat : ℕ) : ℤ) = _
  rw [BitVec.toNat_mul, toNat_zext, toNat_zext, Nat.mod_eq_of_lt bound, Nat.cast_mul]

/-- A product that fits a `Slong` is exact. -/
theorem toInt_mul_of_fits {x y : BitVec 64}
    (fits : -2 ^ 63 ≤ x.toInt * y.toInt ∧ x.toInt * y.toInt < 2 ^ 63) :
    (x * y).toInt = x.toInt * y.toInt := by
  rw [BitVec.toInt_mul]
  exact Int.bmod_eq_of_le_mul_two (by omega) (by omega)

/-- A word with a sign times any word fits 64 bits. -/
theorem product_fits {x y : ℤ} (word : -2 ^ 31 ≤ x ∧ x < 2 ^ 32)
    (signed : -2 ^ 31 ≤ y ∧ y < 2 ^ 31) :
    -2 ^ 63 ≤ x * y ∧ x * y < 2 ^ 63 := by
  constructor <;> nlinarith

/-- A word without a sign times one with a sign. -/
theorem readAs_multUS (a b : Word) : readAs true (multUS a b) = a.toNat * b.toInt := by
  have left := toNat_word a
  have right := toInt_word b
  change (zext a * sext b).toInt = _
  rw [toInt_mul_of_fits, toInt_zext, toInt_sext]
  rw [toInt_zext, toInt_sext]
  exact product_fits (by omega) right

/-- A word with a sign times one without. -/
theorem readAs_multSU (a b : Word) : readAs true (multSU a b) = a.toInt * b.toNat := by
  have left := toInt_word a
  have right := toNat_word b
  change (sext a * zext b).toInt = _
  rw [toInt_mul_of_fits, toInt_sext, toInt_zext]
  rw [toInt_sext, toInt_zext, mul_comm]
  exact product_fits (by omega) left

/-- The product of two words with signs. -/
theorem readAs_multSS (a b : Word) : readAs true (multSS a b) = a.toInt * b.toInt := by
  have left := toInt_word a
  have right := toInt_word b
  change (sext a * sext b).toInt = _
  rw [toInt_mul_of_fits, toInt_sext, toInt_sext]
  rw [toInt_sext, toInt_sext]
  exact product_fits (by omega) right

/-! ## Columns -/

/-- The inner loop adds its products one by one. -/
theorem Holds.accumulateUU {s : Acc} {done : ℕ} {total : ℤ} (holds : Holds s done total)
    (op1 op2 : Words) (k i count : ℕ) (few : done + count ≤ 2 ^ 29) :
    Holds (accumulateUU op1 op2 k i count s) (done + count)
      (total + ∑ j ∈ range count, ((op2 (i + j)).toNat : ℤ) * (op1 (k - (i + j))).toNat) := by
  induction count with
  | zero =>
      rw [sum_range_zero, Int.add_zero]
      exact holds
  | succ count ih =>
      have next := (ih (by omega)).accumulate (by omega) false
        (multUU (op1 (k - (i + count))) (op2 (i + count)))
      rw [readAs_multUU] at next
      rw [sum_range_succ, ← Int.add_assoc, mul_comm ((op2 (i + count)).toNat : ℤ)]
      exact next

/-- The product of two vectors at a column. -/
def productColumn (m1 m2 : ℕ) (op1 op2 : Words) (k : ℕ) : ℤ :=
  Radix.column (digit m2 op2) (digit m1 op1) k

section Columns

variable {m1 m2 k : ℕ} (op1 op2 : Words)

/-- A column below the top of the shorter operand has no sign in it. -/
theorem productColumn_low (ordered : m2 ≤ m1) (below : k + 1 < m2) :
    productColumn m1 m2 op1 op2 k =
      ∑ j ∈ range (k + 1), ((op2 (0 + j)).toNat : ℤ) * (op1 (k - (0 + j))).toNat := by
  rw [productColumn, Radix.column_eq_sum]
  refine sum_congr rfl fun j inside => ?_
  have early := mem_range.mp inside
  rw [digit_of_lt op2 (by omega), digit_of_lt op1 (by omega), zero_add]

/-- A sum whose terms vanish outside a window. -/
theorem sum_window {f : ℕ → ℤ} {total : ℕ} (before inside : ℕ) (fits : before + inside ≤ total)
    (below : ∀ i < before, f i = 0) (above : ∀ i, before + inside ≤ i → f i = 0) :
    ∑ i ∈ range total, f i = ∑ j ∈ range inside, f (before + j) := by
  obtain ⟨more, rfl⟩ := Nat.exists_eq_add_of_le fits
  have first : ∑ i ∈ range before, f i = 0 :=
    sum_eq_zero fun i member => below i (mem_range.mp member)
  have last : ∑ j ∈ range more, f (before + inside + j) = 0 :=
    sum_eq_zero fun j _ => above _ (Nat.le_add_right _ _)
  rw [sum_range_add, sum_range_add, first, last, zero_add, add_zero]

/-- A column below the top of the longer operand has the sign of the shorter one. -/
theorem productColumn_middle (positive : 0 < m2) (from_ : m2 ≤ k + 1) (below : k + 1 < m1) :
    productColumn m1 m2 op1 op2 k =
      (op1 (k + 1 - m2)).toNat * (op2 (m2 - 1)).toInt +
        ∑ j ∈ range (m2 - 1), ((op2 (0 + j)).toNat : ℤ) * (op1 (k - (0 + j))).toNat := by
  obtain ⟨n, rfl⟩ : ∃ n, m2 = n + 1 := ⟨m2 - 1, by omega⟩
  have low : ∑ j ∈ range n, digit (n + 1) op2 (0 + j) * digit m1 op1 (k - (0 + j)) =
      ∑ j ∈ range n, ((op2 (0 + j)).toNat : ℤ) * (op1 (k - (0 + j))).toNat :=
    sum_congr rfl fun j inside => by
      have early := mem_range.mp inside
      rw [digit_of_lt op2 (by omega), digit_of_lt op1 (by omega)]
  have index : k - (0 + n) = k + 1 - (n + 1) := by omega
  rw [productColumn, Radix.column_eq_sum,
    sum_window 0 (n + 1) (by omega) (fun i early => (Nat.not_lt_zero i early).elim)
      fun i beyond => by
      rw [digit_beyond op2 (by omega), zero_mul],
    sum_range_succ, low, index, digit_top op2 (by omega), digit_of_lt op1 (by omega), zero_add,
    Nat.add_sub_cancel]
  ring

/-- A column above both ends has the two signs, in different products. -/
theorem productColumn_high (positive : 0 < m2) (ordered : m2 ≤ m1) (from_ : m1 ≤ k + 1)
    (below : k + 2 < m1 + m2) :
    productColumn m1 m2 op1 op2 k =
      (op1 (k + 1 - m2)).toNat * (op2 (m2 - 1)).toInt +
        ∑ j ∈ range (m2 - 1 - (k + 2 - m1)),
          ((op2 (k + 2 - m1 + j)).toNat : ℤ) * (op1 (k - (k + 2 - m1 + j))).toNat +
        (op1 (m1 - 1)).toInt * (op2 (k + 1 - m1)).toNat := by
  have inner : ∑ j ∈ range (m2 - 1 - (k + 2 - m1)), digit m2 op2 (k + 1 - m1 + (j + 1)) *
        digit m1 op1 (k - (k + 1 - m1 + (j + 1))) =
      ∑ j ∈ range (m2 - 1 - (k + 2 - m1)),
        ((op2 (k + 2 - m1 + j)).toNat : ℤ) * (op1 (k - (k + 2 - m1 + j))).toNat :=
    sum_congr rfl fun j inside => by
      have early := mem_range.mp inside
      have index : k + 1 - m1 + (j + 1) = k + 2 - m1 + j := by omega
      rw [index, digit_of_lt op2 (by omega), digit_of_lt op1 (by omega)]
  have first : k - (k + 1 - m1 + 0) = m1 - 1 := by omega
  have last : k + 1 - m1 + (m2 - 1 - (k + 2 - m1) + 1) = m2 - 1 := by omega
  have partner : k - (m2 - 1) = k + 1 - m2 := by omega
  rw [productColumn, Radix.column_eq_sum,
    sum_window (k + 1 - m1) (m2 - 1 - (k + 2 - m1) + 1 + 1) (by omega)
      (fun i early => by rw [digit_beyond op1 (by omega), mul_zero]) fun i beyond => by
        rw [digit_beyond op2 (by omega), zero_mul],
    sum_range_succ, sum_range_succ', inner, first, last, partner,
    digit_top op1 (show m1 - 1 + 1 = m1 by omega), digit_top op2 (show m2 - 1 + 1 = m2 by omega),
    digit_of_lt op1 (show k + 1 - m2 + 1 < m1 by omega), Nat.add_zero (k + 1 - m1),
    digit_of_lt op2 (show k + 1 - m1 + 1 < m2 by omega)]
  ring

/-- The top column is the product of the two signed words. -/
theorem productColumn_top (positive : 0 < m2) (ordered : m2 ≤ m1) :
    productColumn m1 m2 op1 op2 (m1 + m2 - 2) = (op1 (m1 - 1)).toInt * (op2 (m2 - 1)).toInt := by
  have partner : m1 + m2 - 2 - (m2 - 1 + 0) = m1 - 1 := by omega
  rw [productColumn, Radix.column_eq_sum,
    sum_window (m2 - 1) 1 (by omega) (fun i early => by rw [digit_beyond op1 (by omega), mul_zero])
      fun i beyond => by rw [digit_beyond op2 (by omega), zero_mul],
    sum_range_one, partner, digit_top op1 (by omega), add_zero, digit_top op2 (by omega), mul_comm]

/-- Above the top column nothing is added. -/
theorem productColumn_beyond (beyond : m1 + m2 ≤ k + 1) : productColumn m1 m2 op1 op2 k = 0 := by
  rw [productColumn, Radix.column_eq_sum]
  refine sum_eq_zero fun i _ => ?_
  by_cases outside : m2 ≤ i
  · rw [digit_beyond op2 outside, zero_mul]
  · rw [digit_beyond op1 (by omega), mul_zero]

end Columns

/-! ## The product -/

/-- The accumulators hold the carry into a column, and the words below are stored. -/
structure Summed (d : ℕ → ℤ) (r : Words) (k : ℕ) (s : Acc × Words) : Prop where
  carry : Holds s.1 0 (Radix.carry (2 ^ 32) 0 d k)
  words : s.2 = fill k (passWord 0 d) r 0

section Summed

variable {d : ℕ → ℤ} {r : Words}

/-- The accumulators start empty. -/
theorem holds_zero : Holds ⟨0, 0⟩ 0 0 := ⟨rfl, by decide, by decide⟩

/-- A body that adds a column up to the accumulators. -/
def Adds (d : ℕ → ℤ) (k count : ℕ) (body : Acc → Acc) : Prop :=
  ∀ s total, Holds s 0 total → Holds (body s) count (total + d k)

/-- A body that adds its column and stores it goes on to the next one. -/
theorem Summed.step {k count : ℕ} {s : Acc × Words} (summed : Summed d r k s)
    (few : count < 2 ^ 29) {body : Acc → Acc} (adds : Adds d k count body) :
    Summed d r (k + 1) (storeColumn k (body s.1, s.2)) := by
  have added := adds s.1 _ summed.carry
  obtain ⟨rest, stored⟩ := Holds.store (s := (body s.1, s.2)) added few k
  refine ⟨rest, ?_⟩
  rw [stored, summed.words]
  change _ = Function.update (fill k (passWord 0 d) r 0) (0 + k) (passWord 0 d k)
  rw [zero_add]
  rfl

/-- A loop over columns sums them, whichever number of products each takes. -/
theorem Summed.columns {start : ℕ} {s : Acc × Words} (summed : Summed d r start s)
    {body : ℕ → Acc → Acc} (most : ℕ) (few : most < 2 ^ 29) (total : ℕ)
    (adds : ∀ j < total, ∃ count ≤ most, Adds d (start + j) count (body (start + j))) :
    Summed d r (start + total) (columns body start total s) := by
  induction total with
  | zero => exact summed
  | succ total ih =>
      obtain ⟨count, bounded, added⟩ := adds total (Nat.lt_succ_self total)
      exact (ih fun j below => adds j (by omega)).step (by omega) added

end Summed

section Bodies

variable {m1 m2 k : ℕ} (op1 op2 : Words)

/-- The body of the first loop adds its column. -/
theorem multLow_adds (ordered : m2 ≤ m1) (below : k + 1 < m2) (few : m2 ≤ 2 ^ 28) :
    Adds (productColumn m1 m2 op1 op2) k (k + 1) (multLow op1 op2 k) := by
  intro s total holds
  have added := holds.accumulateUU op1 op2 k 0 (k + 1) (by omega)
  rw [zero_add] at added
  rw [productColumn_low op1 op2 ordered below]
  exact added

/-- The body of the second loop adds its column. -/
theorem multMiddle_adds (positive : 0 < m2) (from_ : m2 ≤ k + 1) (below : k + 1 < m1)
    (few : m2 ≤ 2 ^ 28) :
    Adds (productColumn m1 m2 op1 op2) k m2 (multMiddle m2 op1 op2 k) := by
  intro s total holds
  have top := holds.accumulate (by decide) true (multUS (op1 (k + 1 - m2)) (op2 (m2 - 1)))
  have added := top.accumulateUU op1 op2 k 0 (m2 - 1) (by omega)
  have count : 0 + 1 + (m2 - 1) = m2 := by omega
  rw [readAs_multUS, count, Int.add_assoc] at added
  rw [productColumn_middle op1 op2 positive from_ below]
  exact added

/-- The body of the third loop adds its column. -/
theorem multHigh_adds {t2 : ℕ} (positive : 0 < m2) (ordered : m2 ≤ m1) (from_ : m1 ≤ k + 1)
    (below : k + 2 < m1 + m2) (few : m2 ≤ 2 ^ 28) (whole : t2 = m1 - 1) :
    ∃ count ≤ m2 + 1, Adds (productColumn m1 m2 op1 op2) k count
      (multHigh m1 m2 t2 op1 op2 k) := by
  refine ⟨0 + 1 + (m2 - 1 - (k + 2 - m1)) + 1, by omega, ?_⟩
  intro s total holds
  have top := holds.accumulate (by decide) true (multUS (op1 (k + 1 - m2)) (op2 (m2 - 1)))
  have inner := top.accumulateUU op1 op2 k (k + 2 - m1) (m2 - 1 - (k + 2 - m1)) (by omega)
  have added := inner.accumulate (by omega) true (multSU (op1 (m1 - 1)) (op2 (k + 1 - m1)))
  have index : k - t2 + 1 = k + 2 - m1 := by omega
  rw [readAs_multUS, readAs_multSU, Int.add_assoc, Int.add_assoc, ← Int.add_assoc (_ * _)] at added
  rw [productColumn_high op1 op2 positive ordered from_ below, multHigh, index]
  exact added

end Bodies

section Longer

variable {m1 m2 : ℕ} (positive : 0 < m2) (ordered : m2 ≤ m1) (few : m2 ≤ 2 ^ 28)
  (op1 op2 r : Words)

include positive ordered few

/-- The three loops over the columns below the top one. -/
theorem loops_summed (nr : ℕ) :
    let t1 := min (m2 - 1) nr
    let t2 := min (m1 - 1) nr
    let t3 := min (m1 + m2 - 2) nr
    let s := columns (multLow op1 op2) 0 t1 (⟨0, 0⟩, r)
    let s := columns (multMiddle m2 op1 op2) t1 (t2 - t1) s
    let s := columns (multHigh m1 m2 t2 op1 op2) t2 (t3 - t2) s
    Summed (productColumn m1 m2 op1 op2) r t3 s := by
  intro t1 t2 t3 s1 s2 s3
  have start : Summed (productColumn m1 m2 op1 op2) r 0 (⟨0, 0⟩, r) :=
    ⟨holds_zero, rfl⟩
  have low : Summed (productColumn m1 m2 op1 op2) r (0 + t1) s1 :=
    start.columns m2 (by omega) t1 fun j below =>
      ⟨0 + j + 1, by omega, multLow_adds op1 op2 ordered (by omega) few⟩
  rw [zero_add] at low
  have middle : Summed (productColumn m1 m2 op1 op2) r (t1 + (t2 - t1)) s2 :=
    low.columns m2 (by omega) (t2 - t1) fun j below =>
      ⟨m2, le_rfl, multMiddle_adds op1 op2 positive (by omega) (by omega) few⟩
  rw [show t1 + (t2 - t1) = t2 by omega] at middle
  have high : Summed (productColumn m1 m2 op1 op2) r (t2 + (t3 - t2)) s3 :=
    middle.columns (m2 + 1) (by omega) (t3 - t2) fun j below =>
      multHigh_adds op1 op2 positive ordered (by omega) (by omega) few (by omega)
  rwa [show t2 + (t3 - t2) = t3 by omega] at high

omit few in
/-- The columns of the product are worth the product. -/
theorem value_productColumn :
    Radix.value (2 ^ 32) (productColumn m1 m2 op1 op2) (m1 + m2) =
      (vec m1 op1).toInt * (vec m2 op2).toInt := by
  have product : Radix.value (2 ^ 32) (Radix.column (digit m2 op2) (digit m1 op1)) (m2 + m1) = _ :=
    Radix.value_column (fun i beyond => digit_beyond op2 beyond)
      fun i beyond => digit_beyond op1 beyond
  rw [value_digit positive, value_digit (by omega)] at product
  rw [add_comm m1, mul_comm]
  exact product

omit few in
/-- The last carry is the sign of the product. -/
theorem carry_productColumn :
    -2 ^ 31 ≤ Radix.carry (2 ^ 32) 0 (productColumn m1 m2 op1 op2) (m1 + m2 - 1) ∧
      Radix.carry (2 ^ 32) 0 (productColumn m1 m2 op1 op2) (m1 + m2 - 1) < 2 ^ 31 := by
  obtain ⟨n, top⟩ : ∃ n, m1 + m2 = n + 1 := ⟨m1 + m2 - 1, by omega⟩
  have pass := Radix.value_digit (2 ^ 32) 0 (productColumn m1 m2 op1 op2) n
  have product := value_productColumn positive ordered op1 op2
  rw [top, Radix.value_succ, productColumn_beyond op1 op2 (by omega), zero_mul, add_zero] at product
  rw [product, zero_add] at pass
  have nonnegative : 0 ≤ Radix.value (2 ^ 32)
      (Radix.digit (2 ^ 32) 0 (productColumn m1 m2 op1 op2)) n :=
    Radix.value_nonneg (by decide) fun i _ => Radix.digit_nonneg 0 (by decide) i
  have below : Radix.value (2 ^ 32) (Radix.digit (2 ^ 32) 0 (productColumn m1 m2 op1 op2)) n <
      (2 ^ 32) ^ n :=
    Radix.value_lt (by decide) fun i _ => Radix.digit_lt 0 (by decide) i
  have room : (0 : ℤ) < (2 ^ 32) ^ n := by positivity
  have width : (2 ^ (32 * m1 - 1) : ℤ) * 2 ^ (32 * m2 - 1) = 2 ^ 30 * (2 ^ 32) ^ n := by
    rw [pow_word, ← pow_add, ← pow_add]
    congr 1
    omega
  have size : |(vec m1 op1).toInt * (vec m2 op2).toInt| ≤ 2 ^ 30 * (2 ^ 32) ^ n := by
    rw [abs_mul, ← width]
    exact mul_le_mul (abs_le.mpr ⟨BitVec.le_toInt _, BitVec.toInt_lt.le⟩)
      (abs_le.mpr ⟨BitVec.le_toInt _, BitVec.toInt_lt.le⟩) (abs_nonneg _) (by positivity)
  obtain ⟨least, most⟩ := abs_le.mp size
  rw [show m1 + m2 - 1 = n by omega]
  constructor <;> nlinarith

omit few in
/-- The words of the top column, of the one above it and of the extension. -/
theorem multTop_words {n nr : ℕ} {s : Acc × Words} (last : m1 + m2 = n + 2) (longer : n + 1 ≤ nr)
    (summed : Summed (productColumn m1 m2 op1 op2) r n s) :
    (∀ i < min (n + 2) nr,
      multTop m1 m2 nr op1 op2 s i = passWord 0 (productColumn m1 m2 op1 op2) i) ∧
      ∀ i, n + 2 ≤ i → i < nr → multTop m1 m2 nr op1 op2 s i =
        ones (decide (Radix.carry (2 ^ 32) 0 (productColumn m1 m2 op1 op2) (n + 1) < 0)) := by
  have sign := carry_productColumn positive ordered op1 op2
  have column := productColumn_top op1 op2 positive ordered
  have beyond : productColumn m1 m2 op1 op2 (n + 1) = 0 := productColumn_beyond op1 op2 (by omega)
  rw [show m1 + m2 - 1 = n + 1 by omega] at sign
  rw [show m1 + m2 - 2 = n by omega] at column
  obtain ⟨a, accumulated⟩ :
    ∃ a, a = accumulate true (multSS (op1 (m1 - 1)) (op2 (m2 - 1))) s.1 := ⟨_, rfl⟩
  have added : Holds a 1 (Radix.carry (2 ^ 32) 0 (productColumn m1 m2 op1 op2) n +
      productColumn m1 m2 op1 op2 n) := by
    rw [accumulated, column, ← readAs_multSS]
    exact summed.carry.accumulate (by decide) true _
  have lower : a.l1.setWidth 32 = passWord 0 (productColumn m1 m2 op1 op2) n := by
    have value := added.value
    rw [setWidth_eq_ofInt, passWord, Radix.digit]
    congr 1
    omega
  have upper : (carried a).setWidth 32 = passWord 0 (productColumn m1 m2 op1 op2) (n + 1) := by
    rw [setWidth_eq_ofInt, toInt_carried added (by decide), passWord, Radix.digit, Radix.carry,
      beyond, add_zero]
  have negative : isNeg ((carried a).setWidth 32) =
      decide (Radix.carry (2 ^ 32) 0 (productColumn m1 m2 op1 op2) (n + 1) < 0) := by
    rw [upper, passWord, Radix.digit, beyond, add_zero, isNeg_ofInt sign]
  have below : ∀ i < n + 1, Function.update s.2 n (a.l1.setWidth 32) i =
      passWord 0 (productColumn m1 m2 op1 op2) i := fun i early => by
    by_cases here : i = n
    · subst here
      rw [Function.update_self, lower]
    · rw [Function.update_of_ne here, summed.words, fill_apply, if_pos (by omega), Nat.sub_zero]
  unfold multTop
  simp only [← accumulated, show m1 + m2 - 1 = n + 1 by omega, show m1 + m2 - 2 = n by omega,
    if_pos longer]
  by_cases whole : m1 + m2 ≤ nr
  · simp only [if_pos whole, Function.update_self, negative]
    constructor
    · intro i early
      rw [extend, fill_apply, if_neg (by omega)]
      by_cases top : i = n + 1
      · subst top
        rw [Function.update_self, upper]
      · rw [Function.update_of_ne top, below i (by omega)]
    · intro i from_ early
      rw [extend, fill_apply, if_pos (by omega)]
  · simp only [if_neg whole]
    exact ⟨fun i early => below i (by omega), fun i from_ early => by omega⟩

omit few in
/-- The columns, the top one and the extension hold the product. -/
theorem vec_multTop {nr : ℕ} {s : Acc × Words}
    (summed : Summed (productColumn m1 m2 op1 op2) r (min (m1 + m2 - 2) nr) s) :
    vec nr (multTop m1 m2 nr op1 op2 s) =
      BitVec.ofInt (32 * nr) ((vec m1 op1).toInt * (vec m2 op2).toInt) := by
  obtain ⟨n, last⟩ : ∃ n, m1 + m2 = n + 2 := ⟨m1 + m2 - 2, by omega⟩
  have product := value_productColumn positive ordered op1 op2
  have low : (2 ^ (32 * nr) : ℤ) ∣
      0 + Radix.value (2 ^ 32) (productColumn m1 m2 op1 op2) (min (n + 2) nr) -
        (vec m1 op1).toInt * (vec m2 op2).toInt := by
    rw [← product, last, zero_add, ← pow_word]
    exact Radix.value_truncated (fun _ _ => rfl) (fun _ _ => by rw [sub_self]; exact dvd_zero _)
      fun _ _ _ => rfl
  rw [← ofInt_eq_iff.mpr low]
  by_cases longer : n + 1 ≤ nr
  · rw [show min (m1 + m2 - 2) nr = n by omega] at summed
    obtain ⟨words, extension⟩ := multTop_words positive ordered op1 op2 r last longer summed
    refine vec_of_digits _ (by omega) words (fun i from_ below => extension i (by omega) below)
      fun more => ?_
    have sign := carry_productColumn positive ordered op1 op2
    rw [show m1 + m2 - 1 = n + 1 by omega] at sign
    rw [show min (n + 2) nr = n + 1 + 1 by omega, Radix.carry,
      productColumn_beyond op1 op2 (by omega),
      add_zero]
    by_cases negative : Radix.carry (2 ^ 32) 0 (productColumn m1 m2 op1 op2) (n + 1) < 0
    · rw [decide_eq_true negative, if_pos rfl]
      omega
    · rw [decide_eq_false negative, if_neg Bool.false_ne_true]
      omega
  · rw [show min (m1 + m2 - 2) nr = nr by omega] at summed
    rw [show min (n + 2) nr = nr by omega, multTop, if_neg (by omega), summed.words]
    exact vec_of_digits false le_rfl (fun i below => by
      rw [fill_apply, if_pos (by omega), Nat.sub_zero, passWord]) (fun i _ _ => by omega) (by omega)

end Longer

/-- **Products.** Whatever the lengths, `iv_mult` leaves the product of its operands, cut to
the length of the destination. -/
theorem vec_mult {n1 n2 nr : ℕ} (positive1 : 0 < n1) (positive2 : 0 < n2) (positive : 0 < nr)
    (few : min n1 n2 ≤ 2 ^ 28) (op1 op2 r : Words) :
    vec nr (mult n1 n2 nr op1 op2 r) =
      BitVec.ofInt (32 * nr) ((vec n1 op1).toInt * (vec n2 op2).toInt) := by
  rw [mult]
  split
  · rename_i one
    subst one
    apply vec_one_of_dvd
    obtain ⟨k, left⟩ := dvd_lowest positive1 op1
    obtain ⟨l, right⟩ := dvd_lowest positive2 op2
    obtain ⟨m, product⟩ := dvd_mul_word (op1 0) (op2 0)
    rw [Function.update_self]
    exact ⟨m - (vec n1 op1).toInt * l - (op2 0).toNat * k, by
      linear_combination product - (vec n1 op1).toInt * right - (op2 0).toNat * left⟩
  · split
    · rename_i single
      obtain ⟨rfl, rfl⟩ := single
      have left := toInt_word (op1 0)
      have right := toInt_word (op2 0)
      rw [vec_assignInt64 positive, toInt_vec_one, toInt_vec_one, toInt_mul_of_fits, toInt_sext,
        toInt_sext]
      rw [toInt_sext, toInt_sext]
      exact product_fits (by omega) right
    · by_cases ordered : n2 ≤ n1
      · simp only [if_pos ordered, max_eq_left ordered, min_eq_right ordered] at few ⊢
        exact vec_multTop positive2 ordered op1 op2 r
          (loops_summed positive2 ordered few op1 op2 r nr)
      · have other : n1 ≤ n2 := by omega
        simp only [if_neg ordered, max_eq_right other, min_eq_left other] at few ⊢
        rw [mul_comm (vec n1 op1).toInt]
        exact vec_multTop positive1 other op2 op1 r (loops_summed positive1 other few op2 op1 r nr)

end Iv

end DownSample
