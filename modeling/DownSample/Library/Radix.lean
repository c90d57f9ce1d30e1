import Mathlib.Algebra.BigOperators.Intervals
import Mathlib.Algebra.Polynomial.BigOperators
import Mathlib.Algebra.Polynomial.Eval.Degree
import Mathlib.Tactic.Linarith
import Mathlib.Tactic.LinearCombination
import Mathlib.Tactic.Ring

/-! # Positional numbers and carries

A sequence of integers stands for the number whose digits they are, the least significant
first. The digits need not be reduced: column sums, differences and products are digits
too. A pass from the low end reduces them, with a carry that may be negative
(`Radix.value_digit`); the product of two numbers has the antidiagonal sums as its columns
(`Radix.value_column`).
-/

namespace Radix

open Finset

variable {base : ℤ} {a b d : ℕ → ℤ}

/-- The number with the first `n` digits of a sequence. -/
def value (base : ℤ) (d : ℕ → ℤ) (n : ℕ) : ℤ := ∑ i ∈ range n, d i * base ^ i

@[simp] theorem value_zero (base : ℤ) (d : ℕ → ℤ) : value base d 0 = 0 := sum_range_zero _

theorem value_succ (base : ℤ) (d : ℕ → ℤ) (n : ℕ) :
    value base d (n + 1) = value base d n + d n * base ^ n := sum_range_succ _ _

theorem value_one (base : ℤ) (d : ℕ → ℤ) : value base d 1 = d 0 := by
  rw [value_succ, value_zero, pow_zero, mul_one, zero_add]

theorem value_congr {n : ℕ} (same : ∀ i < n, a i = b i) : value base a n = value base b n :=
  sum_congr rfl fun i below => by rw [same i (mem_range.mp below)]

/-- The low digits, and the others above them. -/
theorem value_add (base : ℤ) (d : ℕ → ℤ) (m n : ℕ) :
    value base d (m + n) = value base d m + value base (fun i => d (m + i)) n * base ^ m := by
  rw [value, sum_range_add, value, value, sum_mul]
  congr 1
  exact sum_congr rfl fun i _ => by rw [pow_add]; ring

/-- Modulo the range of its low digits, a number is their value. -/
theorem value_dvd_sub (base : ℤ) (d : ℕ → ℤ) {m n : ℕ} (fewer : m ≤ n) :
    base ^ m ∣ value base d n - value base d m := by
  obtain ⟨more, rfl⟩ := Nat.exists_eq_add_of_le fewer
  rw [value_add, add_sub_cancel_left]
  exact Dvd.intro_left _ rfl

/-- Digits above the top of a number are zero. -/
theorem value_of_zero {m n : ℕ} (fewer : m ≤ n) (zero : ∀ i, m ≤ i → d i = 0) :
    value base d n = value base d m := by
  obtain ⟨more, rfl⟩ := Nat.exists_eq_add_of_le fewer
  have nothing : value base (fun i => d (m + i)) more = 0 :=
    sum_eq_zero fun i _ => mul_eq_zero_of_left (zero _ (Nat.le_add_right m i)) _
  rw [value_add, nothing, zero_mul, add_zero]

/-- Below a length, the digit in the last position matters up to a multiple of the base. -/
theorem value_truncated {length total : ℕ}
    (low : ∀ i, i + 1 < min length total → a i = b i)
    (top : ∀ i, i + 1 = min length total → base ∣ a i - b i)
    (whole : ∀ i, i + 1 = length → length ≤ total → a i = b i) :
    base ^ total ∣ value base a (min length total) - value base b length := by
  by_cases fits : length ≤ total
  · rw [min_eq_left fits] at low ⊢
    rw [value_congr fun i below => ?_, sub_self]
    · exact dvd_zero _
    · by_cases last : i + 1 = length
      · exact whole i last fits
      · exact low i (by omega)
  · rw [min_eq_right (by omega)] at low top ⊢
    have cut := value_dvd_sub base b (show total ≤ length by omega)
    have same : base ^ total ∣ value base a total - value base b total := by
      cases total with
      | zero => rw [value_zero, value_zero, sub_self]; exact dvd_zero _
      | succ n =>
          obtain ⟨k, multiple⟩ := top n rfl
          rw [value_succ, value_succ, value_congr fun i below => low i (by omega), pow_succ]
          exact ⟨k, by linear_combination base ^ n * multiple⟩
    have total_dvd := dvd_sub same cut
    rwa [sub_sub_sub_cancel_right] at total_dvd

/-- The value of equal digits, multiplied out. -/
theorem value_const (base digit : ℤ) (n : ℕ) :
    value base (fun _ => digit) n * (base - 1) = digit * (base ^ n - 1) := by
  induction n with
  | zero => rw [value_zero, pow_zero]; ring
  | succ n ih => rw [value_succ, add_mul, ih]; ring

theorem value_sum (base : ℤ) (a b : ℕ → ℤ) (n : ℕ) :
    value base (fun i => a i + b i) n = value base a n + value base b n := by
  rw [value, value, value, ← sum_add_distrib]
  exact sum_congr rfl fun i _ => add_mul _ _ _

theorem value_neg (base : ℤ) (a : ℕ → ℤ) (n : ℕ) :
    value base (fun i => -a i) n = -value base a n := by
  rw [value, value, ← sum_neg_distrib]
  exact sum_congr rfl fun i _ => neg_mul _ _

theorem value_nonneg {n : ℕ} (positive : 0 < base) (digits : ∀ i < n, 0 ≤ d i) :
    0 ≤ value base d n :=
  sum_nonneg fun i below => mul_nonneg (digits i (mem_range.mp below)) (pow_nonneg positive.le i)

/-- Digits below the base have a value below its power. -/
theorem value_lt {n : ℕ} (positive : 0 < base) (digits : ∀ i < n, d i < base) :
    value base d n < base ^ n := by
  induction n with
  | zero => rw [value_zero, pow_zero]; exact one_pos
  | succ n ih =>
      have low := ih fun i below => digits i (by omega)
      have top : d n * base ^ n ≤ (base - 1) * base ^ n :=
        mul_le_mul_of_nonneg_right (by have := digits n (Nat.lt_succ_self n); omega)
          (pow_nonneg positive.le n)
      rw [value_succ, pow_succ]
      linarith

/-- A number splits in one way. -/
theorem eq_of_split {low low' high high' range : ℤ} (lows : 0 ≤ low ∧ low < range)
    (lows' : 0 ≤ low' ∧ low' < range) (same : low + high * range = low' + high' * range) :
    low = low' ∧ high = high' := by
  have positive : range ≠ 0 := by omega
  have quotient := congrArg (· / range) same
  simp only [Int.add_mul_ediv_right _ _ positive, Int.ediv_eq_zero_of_lt lows.1 lows.2,
    Int.ediv_eq_zero_of_lt lows'.1 lows'.2, zero_add] at quotient
  subst quotient
  exact ⟨add_right_cancel same, rfl⟩

/-- Reduced digits are determined by their number. -/
theorem value_inj {n : ℕ} (positive : 0 < base) (digitsA : ∀ i < n, 0 ≤ a i ∧ a i < base)
    (digitsB : ∀ i < n, 0 ≤ b i ∧ b i < base) (same : value base a n = value base b n) :
    ∀ i < n, a i = b i := by
  induction n with
  | zero => exact fun i below => (Nat.not_lt_zero i below).elim
  | succ n ih =>
      have lowA := fun i (below : i < n) => digitsA i (by omega)
      have lowB := fun i (below : i < n) => digitsB i (by omega)
      rw [value_succ, value_succ] at same
      obtain ⟨low, top⟩ := eq_of_split
        ⟨value_nonneg positive fun i below => (lowA i below).1,
          value_lt positive fun i below => (lowA i below).2⟩
        ⟨value_nonneg positive fun i below => (lowB i below).1,
          value_lt positive fun i below => (lowB i below).2⟩ same
      intro i below
      by_cases last : i = n
      · subst last
        exact top
      · exact ih lowA lowB low i (by omega)

/-- Reduced digits are compared from the top. -/
theorem value_lt_value {i n : ℕ} (positive : 0 < base) (inside : i < n)
    (digitsA : ∀ j < i, 0 ≤ a j ∧ a j < base) (digitsB : ∀ j < i, 0 ≤ b j ∧ b j < base)
    (above : ∀ j, i < j → j < n → a j = b j) (less : a i < b i) :
    value base a n < value base b n := by
  obtain ⟨more, rfl⟩ := Nat.exists_eq_add_of_le inside
  have high : value base (fun j => a (i.succ + j)) more =
      value base (fun j => b (i.succ + j)) more :=
    value_congr fun j below => above _ (by omega) (by omega)
  have lowA := value_lt (d := a) (n := i) positive fun j below => (digitsA j below).2
  have lowB := value_nonneg (d := b) (n := i) positive fun j below => (digitsB j below).1
  have room := pow_pos positive i
  have step : (a i + 1) * base ^ i ≤ b i * base ^ i :=
    mul_le_mul_of_nonneg_right less room.le
  rw [value_add, value_add, high, Nat.succ_eq_add_one, value_succ, value_succ]
  linarith

/-! ## Carries -/

/-- What is carried into a position by a pass over the columns from the low end. -/
def carry (base start : ℤ) (d : ℕ → ℤ) : ℕ → ℤ
  | 0 => start
  | n + 1 => (carry base start d n + d n) / base

/-- The digit that the pass leaves at a position. -/
def digit (base start : ℤ) (d : ℕ → ℤ) (n : ℕ) : ℤ := (carry base start d n + d n) % base

/-- A pass moves value upwards and loses none. -/
theorem value_digit (base start : ℤ) (d : ℕ → ℤ) (n : ℕ) :
    value base (digit base start d) n + carry base start d n * base ^ n =
      start + value base d n := by
  induction n with
  | zero => rw [value_zero, value_zero, carry, pow_zero]; ring
  | succ n ih =>
      have divided := Int.emod_add_mul_ediv (carry base start d n + d n) base
      rw [value_succ, value_succ, digit, carry, pow_succ]
      linear_combination ih + divided * base ^ n

theorem digit_nonneg (start : ℤ) (positive : 0 < base) (n : ℕ) : 0 ≤ digit base start d n :=
  Int.emod_nonneg _ positive.ne'

theorem digit_lt (start : ℤ) (positive : 0 < base) (n : ℕ) : digit base start d n < base :=
  Int.emod_lt_of_pos _ positive

/-- The carry stays between bounds that every column respects. -/
theorem carry_bounds {start low high : ℤ} {n : ℕ} (positive : 0 < base)
    (starts : low ≤ start ∧ start ≤ high)
    (columns : ∀ i < n, low * base ≤ low + d i ∧ high + d i < (high + 1) * base) :
    low ≤ carry base start d n ∧ carry base start d n ≤ high := by
  induction n with
  | zero => exact starts
  | succ n ih =>
      obtain ⟨least, most⟩ := ih fun i below => columns i (by omega)
      obtain ⟨below, above⟩ := columns n (Nat.lt_succ_self n)
      constructor
      · exact (Int.le_ediv_iff_mul_le positive).mpr (by linarith)
      · exact Int.lt_add_one_iff.mp ((Int.ediv_lt_iff_lt_mul positive).mpr (by linarith))

/-- Nothing is borrowed where no column is negative. -/
theorem carry_nonneg {start : ℤ} {n : ℕ} (positive : 0 < base) (starts : 0 ≤ start)
    (columns : ∀ i < n, 0 ≤ d i) : 0 ≤ carry base start d n := by
  induction n with
  | zero => exact starts
  | succ n ih =>
      have sum := add_nonneg (ih fun i below => columns i (by omega))
        (columns n (Nat.lt_succ_self n))
      exact Int.ediv_nonneg sum positive.le

/-- A pass can be interrupted and resumed with the carry. -/
theorem carry_add (base start : ℤ) (d : ℕ → ℤ) (m n : ℕ) :
    carry base start d (m + n) = carry base (carry base start d m) (fun i => d (m + i)) n := by
  induction n with
  | zero => rfl
  | succ n ih => rw [← Nat.add_assoc, carry, carry, ih]

theorem digit_add (base start : ℤ) (d : ℕ → ℤ) (m n : ℕ) :
    digit base start d (m + n) = digit base (carry base start d m) (fun i => d (m + i)) n := by
  rw [digit, digit, carry_add]

theorem carry_congr {start : ℤ} {n : ℕ} (same : ∀ i < n, a i = b i) :
    carry base start a n = carry base start b n := by
  induction n with
  | zero => rfl
  | succ n ih =>
      rw [carry, carry, ih fun i below => same i (by omega), same n (Nat.lt_succ_self n)]

theorem digit_congr {start : ℤ} {n : ℕ} (same : ∀ i < n + 1, a i = b i) :
    digit base start a n = digit base start b n := by
  rw [digit, digit, carry_congr fun i below => same i (by omega), same n (Nat.lt_succ_self n)]

/-! ## Products -/

/-- The column of the product at a position. -/
def column (a b : ℕ → ℤ) (k : ℕ) : ℤ := ∑ p ∈ antidiagonal k, a p.1 * b p.2

theorem column_eq_sum (a b : ℕ → ℤ) (k : ℕ) :
    column a b k = ∑ i ∈ range (k + 1), a i * b (k - i) :=
  Nat.sum_antidiagonal_eq_sum_range_succ_mk _ k

section Column

open Polynomial

private noncomputable def poly (a : ℕ → ℤ) (n : ℕ) : ℤ[X] := ∑ i ∈ range n, C (a i) * X ^ i

private theorem eval_poly (a : ℕ → ℤ) (n : ℕ) : (poly a n).eval base = value base a n := by
  simp only [poly, eval_finsetSum, eval_mul, eval_C, eval_pow, eval_X, value]

private theorem coeff_poly {a : ℕ → ℤ} {n : ℕ} (zero : ∀ i, n ≤ i → a i = 0) (i : ℕ) :
    (poly a n).coeff i = a i := by
  simp only [poly, finsetSum_coeff, coeff_C_mul_X_pow]
  rw [sum_ite_eq, ite_eq_left_iff]
  intro beyond
  exact (zero i (not_lt.mp fun below => beyond (mem_range.mpr below))).symm

private theorem natDegree_poly (a : ℕ → ℤ) (n : ℕ) : (poly a n).natDegree ≤ n :=
  natDegree_sum_le_of_forall_le _ _ fun _ below =>
    (natDegree_C_mul_X_pow_le _ _).trans (mem_range.mp below).le

private theorem column_eq_zero {m n k : ℕ} (zeroA : ∀ i, m ≤ i → a i = 0)
    (zeroB : ∀ i, n ≤ i → b i = 0) (beyond : m + n ≤ k) : column a b k = 0 := by
  refine sum_eq_zero fun p diagonal => ?_
  have total := mem_antidiagonal.mp diagonal
  by_cases left : m ≤ p.1
  · rw [zeroA _ left, zero_mul]
  · rw [zeroB _ (by omega), mul_zero]

/-- **Products of positional numbers**: the columns are the antidiagonal sums. -/
theorem value_column {m n : ℕ} (zeroA : ∀ i, m ≤ i → a i = 0) (zeroB : ∀ i, n ≤ i → b i = 0) :
    value base (column a b) (m + n) = value base a m * value base b n := by
  have degree : (poly a m * poly b n).natDegree < m + n + 1 :=
    Nat.lt_succ_of_le
      (natDegree_mul_le.trans (add_le_add (natDegree_poly a m) (natDegree_poly b n)))
  have product : value base (column a b) (m + n + 1) = value base a m * value base b n := by
    rw [← eval_poly a m, ← eval_poly b n, ← eval_mul, eval_eq_sum_range' degree, value]
    refine sum_congr rfl fun k _ => ?_
    rw [coeff_mul, column]
    congr 1
    exact sum_congr rfl fun p _ => by rw [coeff_poly zeroA, coeff_poly zeroB]
  rwa [value_succ, column_eq_zero zeroA zeroB le_rfl, zero_mul, add_zero] at product

end Column

end Radix
