import Mathlib.Data.Int.Bitwise
import Mathlib.Tactic.Linarith
import Mathlib.Tactic.Ring

/-! # Bits of an integer

An integer has infinitely many bits in two's complement; from some bit on they are those
of its sign. They determine the integer (`IntBits.ext`), and quotients by a power of two,
multiples of it and remainders shift and cut them.
-/

namespace IntBits

theorem negSucc_ediv_pow (m i : ℕ) : Int.negSucc m / 2 ^ i = Int.negSucc (m / 2 ^ i) := by
  have shifted := Int.shiftRight_eq_div_pow (Int.negSucc m) i
  rw [Nat.cast_pow, Nat.cast_ofNat] at shifted
  rw [← shifted, ← Nat.shiftRight_eq_div_pow]
  rfl

/-- A bit is the parity of a quotient. -/
theorem testBit_eq (z : ℤ) (i : ℕ) : z.testBit i = decide (z / 2 ^ i % 2 = 1) := by
  cases z with
  | ofNat m =>
      rw [show (Int.ofNat m).testBit i = m.testBit i from rfl, Nat.testBit_eq_decide_div_mod_eq]
      exact decide_eq_decide.mpr (by rw [Int.ofNat_eq_natCast]; norm_cast)
  | negSucc m =>
      rw [show (Int.negSucc m).testBit i = !m.testBit i from rfl, Nat.testBit_eq_decide_div_mod_eq,
        negSucc_ediv_pow, ← decide_not]
      exact decide_eq_decide.mpr (by omega)

/-- The bits of a quotient are those from the exponent on. -/
theorem testBit_ediv (z : ℤ) (k i : ℕ) : (z / 2 ^ k).testBit i = z.testBit (k + i) := by
  rw [testBit_eq, testBit_eq, Int.ediv_ediv_of_nonneg (by positivity), pow_add]

/-- The bits of a multiple are zeros below the exponent. -/
theorem testBit_mul (z : ℤ) (k i : ℕ) :
    (z * 2 ^ k).testBit i = (decide (k ≤ i) && z.testBit (i - k)) := by
  by_cases inside : k ≤ i
  · obtain ⟨j, rfl⟩ := Nat.exists_eq_add_of_le inside
    rw [decide_eq_true inside, Bool.true_and, Nat.add_sub_cancel_left, ← testBit_ediv,
      Int.mul_ediv_cancel _ (by positivity)]
  · obtain ⟨j, rfl⟩ := Nat.exists_eq_add_of_lt (Nat.not_le.mp inside)
    have even : z * 2 ^ (i + j + 1) = z * 2 ^ j * 2 * 2 ^ i := by ring
    rw [decide_eq_false inside, Bool.false_and, testBit_eq, even,
      Int.mul_ediv_cancel _ (by positivity)]
    exact decide_eq_false (by omega)

/-- Multiples of a power of two do not change the bits below. -/
theorem testBit_add_mul (z y : ℤ) {w i : ℕ} (below : i < w) :
    (z + y * 2 ^ w).testBit i = z.testBit i := by
  obtain ⟨j, rfl⟩ := Nat.exists_eq_add_of_lt below
  have even : y * 2 ^ (i + j + 1) = y * 2 ^ j * 2 * 2 ^ i := by ring
  rw [testBit_eq, testBit_eq, even, Int.add_mul_ediv_right _ _ (by positivity)]
  exact decide_eq_decide.mpr (by omega)

theorem testBit_of_dvd {x y : ℤ} {w i : ℕ} (same : (2 ^ w : ℤ) ∣ x - y) (below : i < w) :
    x.testBit i = y.testBit i := by
  obtain ⟨k, multiple⟩ := same
  rw [← testBit_add_mul y k below]
  congr 1
  linarith

/-- From a bound on, the bits are those of the sign. -/
theorem testBit_of_bounds {z : ℤ} {k i : ℕ} (least : -2 ^ k ≤ z) (most : z < 2 ^ k)
    (above : k ≤ i) : z.testBit i = decide (z < 0) := by
  have wider : (2 : ℤ) ^ k ≤ 2 ^ i := pow_le_pow_right₀ (by norm_num) above
  rw [testBit_eq]
  by_cases negative : z < 0
  · have quotient : z / 2 ^ i = -1 := by
      rw [Int.ediv_eq_iff_of_pos (by positivity)]
      constructor <;> linarith
    rw [quotient, decide_eq_true negative]
    rfl
  · rw [Int.ediv_eq_zero_of_lt (by omega) (by linarith), decide_eq_false negative]
    rfl

/-- Bits that are all equal are those of `0` or of `-1`. -/
theorem eq_of_testBit_const {z : ℤ} {b : Bool} (constant : ∀ i, z.testBit i = b) :
    z = if b then -1 else 0 := by
  obtain ⟨k, least, most⟩ : ∃ k : ℕ, -2 ^ k ≤ z ∧ z < 2 ^ k := by
    have large := Nat.lt_two_pow_self (n := z.natAbs)
    have cast : (z.natAbs : ℤ) < 2 ^ z.natAbs := by exact_mod_cast large
    exact ⟨z.natAbs, by omega, by omega⟩
  have sign := (testBit_of_bounds least most le_rfl).symm.trans (constant k)
  cases z with
  | ofNat m =>
      have positive : ¬ Int.ofNat m < 0 := not_lt.mpr (Int.natCast_nonneg m)
      rw [decide_eq_false positive] at sign
      subst sign
      have zero : m = 0 := Nat.zero_of_testBit_eq_false constant
      subst zero
      rfl
  | negSucc m =>
      rw [decide_eq_true (Int.negSucc_lt_zero m)] at sign
      subst sign
      have zero : m = 0 := Nat.zero_of_testBit_eq_false fun i => by
        have flipped : (!m.testBit i) = true := constant i
        simpa using flipped
      subst zero
      rfl

/-- Bits that are all equal from a position on bound the integer. -/
theorem bounds_of_testBit {z : ℤ} {k : ℕ} {b : Bool} (constant : ∀ i, k ≤ i → z.testBit i = b) :
    -2 ^ k ≤ z ∧ z < 2 ^ k ∧ (b = false → 0 ≤ z) := by
  have quotient := eq_of_testBit_const fun i =>
    (testBit_ediv z k i).trans (constant (k + i) (by omega))
  rw [Int.ediv_eq_iff_of_pos (by positivity)] at quotient
  have room : (0 : ℤ) < 2 ^ k := by positivity
  cases b with
  | true =>
      simp only [↓reduceIte] at quotient
      exact ⟨by linarith [quotient.1], by linarith [quotient.2], fun impossible => by
        cases impossible⟩
  | false =>
      simp only [Bool.false_eq_true, ↓reduceIte] at quotient
      exact ⟨by linarith [quotient.1], by linarith [quotient.2], fun _ => by
        linarith [quotient.1]⟩

/-- **An integer is determined by its bits.** -/
theorem ext {x y : ℤ} (same : ∀ i, x.testBit i = y.testBit i) : x = y := by
  have far (m n : ℕ) : ∃ i, m.testBit i = false ∧ n.testBit i = false := by
    refine ⟨m + n, Nat.testBit_lt_two_pow ?_, Nat.testBit_lt_two_pow ?_⟩
    · exact lt_of_lt_of_le Nat.lt_two_pow_self (Nat.pow_le_pow_right (by decide) (by omega))
    · exact lt_of_lt_of_le Nat.lt_two_pow_self (Nat.pow_le_pow_right (by decide) (by omega))
  cases x with
  | ofNat m =>
      cases y with
      | ofNat n => exact congrArg Int.ofNat (Nat.eq_of_testBit_eq same)
      | negSucc n =>
          obtain ⟨i, left, right⟩ := far m n
          have differ : m.testBit i = !n.testBit i := same i
          rw [left, right] at differ
          cases differ
  | negSucc m =>
      cases y with
      | ofNat n =>
          obtain ⟨i, left, right⟩ := far m n
          have differ : (!m.testBit i) = n.testBit i := same i
          rw [left, right] at differ
          cases differ
      | negSucc n =>
          refine congrArg Int.negSucc (Nat.eq_of_testBit_eq fun i => ?_)
          exact Bool.not_inj (same i)

theorem getLsbD_ofInt {w i : ℕ} (z : ℤ) (below : i < w) :
    (BitVec.ofInt w z).getLsbD i = z.testBit i := by
  have positive : (0 : ℤ) < 2 ^ w := by positivity
  have cast : ((2 ^ w : ℕ) : ℤ) = 2 ^ w := by push_cast; rfl
  have nonnegative : 0 ≤ z % 2 ^ w := Int.emod_nonneg z positive.ne'
  have low : (BitVec.ofInt w z).getLsbD i = (z % 2 ^ w).testBit i := by
    rw [← BitVec.testBit_toNat, BitVec.toNat_ofInt, cast]
    conv_rhs => rw [← Int.toNat_of_nonneg nonnegative]
    rfl
  rw [low]
  exact testBit_of_dvd Int.dvd_emod_sub_self below

end IntBits
