import DownSample.Library.Radix
import Mathlib.Data.BitVec
import Mathlib.Logic.Function.Basic

/-! # Words of an integer vector

An `iv<N>` is an array of `N` words, the least significant first, that holds a number in
two's complement. The functions on it are templates over the lengths and work on pointers.
A pointer is modelled by the words from it on, and a destination by the array and the
index that the pointer is advanced by.

`DownSample.Iv.vec` is the bit vector that `N` words stand for, and what the functions
compute is said about it. The loops that add columns with a carry are one loop
(`DownSample.Iv.pass`), which is a pass over a positional number as long as no sum leaves
64 bits (`DownSample.Iv.pass_spec`).
-/

namespace DownSample

namespace Iv

/-- An `int` of a vector. -/
abbrev Word := BitVec 32

/-- The words from a pointer on. -/
abbrev Words := ℕ → Word

/-- `op + offset`. -/
def shift (op : Words) (offset : ℕ) : Words := fun i => op (offset + i)

@[simp] theorem shift_apply (op : Words) (offset i : ℕ) : shift op offset i = op (offset + i) := rfl

/-! ## Loops -/

/-- `for(int i=0; i < n; i++)` over a state. -/
def rounds {σ : Type} (body : ℕ → σ → σ) : ℕ → σ → σ
  | 0, s => s
  | n + 1, s => body n (rounds body n s)

/-- A loop that writes `r[at + i] = f(i)`. -/
def fill (n : ℕ) (f : ℕ → Word) (r : Words) (start : ℕ) : Words :=
  rounds (fun i r => Function.update r (start + i) (f i)) n r

/-- A loop that writes a run of words leaves the others. -/
theorem fill_apply (n : ℕ) (f : ℕ → Word) (r : Words) (start j : ℕ) :
    fill n f r start j = if start ≤ j ∧ j < start + n then f (j - start) else r j := by
  induction n with
  | zero => rw [if_neg (by omega)]; rfl
  | succ n ih =>
      change Function.update (fill n f r start) (start + n) (f n) j = _
      by_cases last : j = start + n
      · subst last
        rw [Function.update_self, if_pos (by omega), Nat.add_sub_cancel_left]
      · rw [Function.update_of_ne last, ih]
        congr 1
        exact propext (by omega)

/-- `iv_copy<N>`. -/
def copy (n : ℕ) (op : Words) (r : Words) (start : ℕ) : Words := fill n op r start

/-- `iv_extend<N>`; for a negative `N` it does nothing. -/
def extend (n : ℕ) (r : Words) (start : ℕ) (ext : Word) : Words := fill n (fun _ => ext) r start

/-- `x ? ~0 : 0`. -/
def ones (b : Bool) : Word := if b then BitVec.allOnes 32 else 0

/-- `op[i] < 0`. -/
def isNeg (w : Word) : Bool := decide (w.toInt < 0)

/-! ## Bit vectors -/

/-- The number of `n` words without a sign. -/
def magnitude (n : ℕ) (v : Words) : ℤ := Radix.value (2 ^ 32) (fun i => ((v i).toNat : ℤ)) n

/-- The bit vector of `n` words. -/
def vec (n : ℕ) (v : Words) : BitVec (32 * n) := BitVec.ofInt (32 * n) (magnitude n v)

/-- A digit of the signed number of `n` words: the top word has the sign. -/
def digit (n : ℕ) (v : Words) (i : ℕ) : ℤ :=
  if i + 1 < n then (v i).toNat else if i + 1 = n then (v i).toInt else 0

theorem pow_word (n : ℕ) : ((2 ^ 32 : ℤ) ^ n) = 2 ^ (32 * n) := (pow_mul _ _ _).symm

theorem magnitude_nonneg (n : ℕ) (v : Words) : 0 ≤ magnitude n v :=
  Radix.value_nonneg (by decide) fun _ _ => Int.natCast_nonneg _

/-- A vector read without its sign is below its range. -/
theorem magnitude_lt (n : ℕ) (v : Words) : magnitude n v < 2 ^ (32 * n) := by
  rw [← pow_word]
  exact Radix.value_lt (by decide) fun i _ => by have := (v i).isLt; omega

theorem magnitude_congr {n : ℕ} {v v' : Words} (same : ∀ i < n, v i = v' i) :
    magnitude n v = magnitude n v' :=
  Radix.value_congr fun i below => by rw [same i below]

theorem vec_congr {n : ℕ} {v v' : Words} (same : ∀ i < n, v i = v' i) : vec n v = vec n v' := by
  rw [vec, vec, magnitude_congr same]

theorem toNat_vec (n : ℕ) (v : Words) : ((vec n v).toNat : ℤ) = magnitude n v := by
  rw [vec, BitVec.toNat_ofInt, Int.toNat_of_nonneg (Int.emod_nonneg _ (by positivity))]
  exact Int.emod_eq_of_lt (magnitude_nonneg n v) (by exact_mod_cast magnitude_lt n v)

/-- Integers that agree modulo the range are one bit vector. -/
theorem ofInt_eq_iff {w : ℕ} {x y : ℤ} :
    BitVec.ofInt w x = BitVec.ofInt w y ↔ (2 ^ w : ℤ) ∣ x - y := by
  have positive : (0 : ℤ) < 2 ^ w := by positivity
  have cast : ((2 ^ w : ℕ) : ℤ) = 2 ^ w := by push_cast; rfl
  rw [← BitVec.toNat_inj, BitVec.toNat_ofInt, BitVec.toNat_ofInt, cast,
    Int.dvd_iff_emod_eq_zero, ← Int.emod_eq_emod_iff_emod_sub_eq_zero]
  constructor
  · intro same
    have left := Int.toNat_of_nonneg (Int.emod_nonneg x positive.ne')
    have right := Int.toNat_of_nonneg (Int.emod_nonneg y positive.ne')
    rw [← left, ← right, same]
  · intro same
    rw [same]

/-- Words that hold a number modulo their range hold its bit vector. -/
theorem vec_eq_ofInt {n : ℕ} {v : Words} {z : ℤ} (same : (2 ^ (32 * n) : ℤ) ∣ magnitude n v - z) :
    vec n v = BitVec.ofInt (32 * n) z :=
  ofInt_eq_iff.mpr same

theorem toNat_word (w : Word) : 0 ≤ (w.toNat : ℤ) ∧ (w.toNat : ℤ) < 2 ^ 32 :=
  ⟨Int.natCast_nonneg _, by exact_mod_cast w.isLt⟩

theorem toInt_word (w : Word) : -2 ^ 31 ≤ w.toInt ∧ w.toInt < 2 ^ 31 :=
  ⟨BitVec.le_toInt w, BitVec.toInt_lt⟩

/-- Below the top a digit has no sign. -/
theorem digit_of_lt {n i : ℕ} (v : Words) (below : i + 1 < n) : digit n v i = (v i).toNat :=
  if_pos below

/-- The top digit has the sign. -/
theorem digit_top {n i : ℕ} (v : Words) (top : i + 1 = n) : digit n v i = (v i).toInt := by
  rw [digit, if_neg (by omega), if_pos top]

theorem digit_beyond {n i : ℕ} (v : Words) (beyond : n ≤ i) : digit n v i = 0 := by
  rw [digit, if_neg (by omega), if_neg (by omega)]

/-- The sign of a word is worth a multiple of its range. -/
theorem dvd_toNat_sub_toInt (w : Word) : (2 ^ 32 : ℤ) ∣ w.toNat - w.toInt := by
  rw [BitVec.toInt_eq_toNat_cond]
  split
  · rw [sub_self]
    exact dvd_zero _
  · exact ⟨1, by push_cast; ring⟩

/-- **The sign of a vector is that of its top word.** -/
theorem value_digit {n : ℕ} (positive : 0 < n) (v : Words) :
    Radix.value (2 ^ 32) (digit n v) n = (vec n v).toInt := by
  obtain ⟨m, rfl⟩ : ∃ m, n = m + 1 := ⟨n - 1, by omega⟩
  have low : Radix.value (2 ^ 32) (digit (m + 1) v) m = magnitude m v :=
    Radix.value_congr fun i below => digit_of_lt v (by omega)
  have signed : Radix.value (2 ^ 32) (digit (m + 1) v) (m + 1) =
      magnitude m v + (v m).toInt * 2 ^ (32 * m) := by
    rw [Radix.value_succ, low, digit_top v rfl, pow_word]
  have unsigned : magnitude (m + 1) v = magnitude m v + (v m).toNat * 2 ^ (32 * m) := by
    rw [magnitude, Radix.value_succ, pow_word]
    rfl
  have width : (2 ^ (32 * (m + 1)) : ℤ) = 2 ^ 32 * 2 ^ (32 * m) := by ring
  have half : (2 ^ (32 * (m + 1) - 1) : ℤ) = 2 ^ 31 * 2 ^ (32 * m) := by
    rw [← pow_add]
    congr 1
    omega
  have same : vec (m + 1) v = BitVec.ofInt (32 * (m + 1))
      (magnitude m v + (v m).toInt * 2 ^ (32 * m)) := by
    apply vec_eq_ofInt
    rw [unsigned, width]
    obtain ⟨k, multiple⟩ := dvd_toNat_sub_toInt (v m)
    exact ⟨k, by linear_combination 2 ^ (32 * m) * multiple⟩
  obtain ⟨least, most⟩ := toInt_word (v m)
  have room : (0 : ℤ) < 2 ^ (32 * m) := by positivity
  have nonnegative := magnitude_nonneg m v
  have below := magnitude_lt m v
  rw [signed, same, BitVec.toInt_ofInt_eq_self (by omega)]
  · rw [half]
    nlinarith
  · rw [half]
    nlinarith

/-! ## The pass with a carry -/

/-- `l >>= 32`, on a `Slong` or on a `Ulong`. -/
def shr (arith : Bool) (l : BitVec 64) : BitVec 64 := if arith then l.sshiftRight 32 else l >>> 32

/-- `l += column; r[at] = (int) l; l >>= 32`, at one index. -/
def passRound (arith : Bool) (column : ℕ → BitVec 64) (start i : ℕ) (s : BitVec 64 × Words) :
    BitVec 64 × Words :=
  let l := s.1 + column i
  (shr arith l, Function.update s.2 (start + i) (l.setWidth 32))

/-- The loop over `n` columns. -/
def pass (arith : Bool) (column : ℕ → BitVec 64) (n : ℕ) (l : BitVec 64) (r : Words) (start : ℕ) :
    BitVec 64 × Words :=
  rounds (passRound arith column start) n (l, r)

/-- A sum that fits a `Slong` is exact. -/
theorem toInt_add_of_fits {x y : BitVec 64}
    (fits : -2 ^ 63 ≤ x.toInt + y.toInt ∧ x.toInt + y.toInt < 2 ^ 63) :
    (x + y).toInt = x.toInt + y.toInt := by
  rw [BitVec.toInt_add]
  exact Int.bmod_eq_of_le_mul_two (by omega) (by omega)

/-- A difference that fits a `Slong` is exact. -/
theorem toInt_sub_of_fits {x y : BitVec 64}
    (fits : -2 ^ 63 ≤ x.toInt - y.toInt ∧ x.toInt - y.toInt < 2 ^ 63) :
    (x - y).toInt = x.toInt - y.toInt := by
  rw [BitVec.toInt_sub]
  exact Int.bmod_eq_of_le_mul_two (by omega) (by omega)

/-- Shifting a `Slong` by a word divides, also as a `Ulong` where it is not negative. -/
theorem toInt_shr {arith : Bool} {l : BitVec 64} (known : arith = true ∨ 0 ≤ l.toInt) :
    (shr arith l).toInt = l.toInt / 2 ^ 32 := by
  have range := BitVec.toInt_lt (x := l)
  have least := BitVec.le_toInt l
  cases arith with
  | true => rw [shr, if_pos rfl, BitVec.toInt_sshiftRight, Int.shiftRight_eq_div_pow]; rfl
  | false =>
      have nonnegative : 0 ≤ l.toInt := known.resolve_left Bool.false_ne_true
      have same : l.toInt = l.toNat := by
        rw [BitVec.toInt_eq_toNat_cond] at nonnegative ⊢
        split
        · rfl
        · rename_i large
          rw [if_neg large] at nonnegative
          have := l.isLt
          omega
      have low : (l >>> 32).toNat = l.toNat / 2 ^ 32 := by
        rw [BitVec.toNat_ushiftRight, Nat.shiftRight_eq_div_pow]
      have small : 2 * (l >>> 32).toNat < 2 ^ 64 := by
        have := l.isLt
        omega
      rw [shr, if_neg Bool.false_ne_true, BitVec.toInt_eq_toNat_of_lt small, low, same]
      rfl

/-- The low word of a sum is its remainder. -/
theorem setWidth_eq_ofInt (l : BitVec 64) : l.setWidth 32 = BitVec.ofInt 32 (l.toInt % 2 ^ 32) := by
  have low : BitVec.ofInt 32 (l.toInt % 2 ^ 32) = BitVec.ofInt 32 l.toInt :=
    ofInt_eq_iff.mpr (Int.dvd_of_emod_eq_zero (by omega))
  rw [low, ← BitVec.signExtend_eq_setWidth_of_le l (by decide)]
  rfl

/-- The words that a pass over the columns leaves. -/
def passWord (start : ℤ) (d : ℕ → ℤ) (i : ℕ) : Word :=
  BitVec.ofInt 32 (Radix.digit (2 ^ 32) start d i)

section Pass

variable {arith : Bool} {column : ℕ → BitVec 64} {n : ℕ} {l : BitVec 64} {d : ℕ → ℤ}

/-- **The loop is a pass over a positional number**, as long as no sum leaves 64 bits. -/
theorem pass_spec (r : Words) (start : ℕ) (columns : ∀ i < n, (column i).toInt = d i)
    (fits : ∀ i < n, -2 ^ 63 ≤ Radix.carry (2 ^ 32) l.toInt d i + d i ∧
      Radix.carry (2 ^ 32) l.toInt d i + d i < 2 ^ 63)
    (sign : arith = true ∨ ∀ i < n, 0 ≤ Radix.carry (2 ^ 32) l.toInt d i + d i) :
    (pass arith column n l r start).1.toInt = Radix.carry (2 ^ 32) l.toInt d n ∧
      (pass arith column n l r start).2 = fill n (passWord l.toInt d) r start := by
  induction n with
  | zero => exact ⟨rfl, rfl⟩
  | succ n ih =>
      have here := Nat.lt_succ_self n
      obtain ⟨carried, written⟩ := ih (fun i below => columns i (by omega))
        (fun i below => fits i (by omega))
        (sign.imp_right fun nonnegative i below => nonnegative i (by omega))
      have sum : ((pass arith column n l r start).1 + column n).toInt =
          Radix.carry (2 ^ 32) l.toInt d n + d n := by
        rw [toInt_add_of_fits, carried, columns n here]
        rw [carried, columns n here]
        exact fits n here
      change (shr arith ((pass arith column n l r start).1 + column n)).toInt = _ ∧
        Function.update (pass arith column n l r start).2 (start + n)
          (((pass arith column n l r start).1 + column n).setWidth 32) = _
      constructor
      · rw [toInt_shr (sign.imp_right fun nonnegative => sum ▸ nonnegative n here), sum,
          Radix.carry]
      · rw [written, setWidth_eq_ofInt, sum]
        rfl

/-- Columns of a few words keep the carry between two bounds. -/
theorem pass_of_bounded (r : Words) (start : ℕ) (columns : ∀ i < n, (column i).toInt = d i)
    (starts : -2 ≤ l.toInt ∧ l.toInt ≤ 2)
    (bounded : ∀ i < n, -(2 ^ 33 - 2) ≤ d i ∧ d i ≤ 2 ^ 33 - 2)
    (sign : arith = true ∨ (0 ≤ l.toInt ∧ ∀ i < n, 0 ≤ d i)) :
    (pass arith column n l r start).1.toInt = Radix.carry (2 ^ 32) l.toInt d n ∧
      (pass arith column n l r start).2 = fill n (passWord l.toInt d) r start := by
  have carries {i : ℕ} (below : i < n) :
      -2 ≤ Radix.carry (2 ^ 32) l.toInt d i ∧ Radix.carry (2 ^ 32) l.toInt d i ≤ 2 :=
    Radix.carry_bounds (by decide) starts fun j earlier => by
      have summand := bounded j (by omega)
      constructor <;> omega
  refine pass_spec r start columns (fun i below => ?_)
    (sign.imp_right fun nonnegative i below => ?_)
  · have summand := bounded i below
    have carried := carries below
    constructor <;> omega
  · exact add_nonneg (Radix.carry_nonneg (by decide) nonnegative.1 fun j earlier =>
      nonnegative.2 j (by omega)) (nonnegative.2 i below)

end Pass

/-! ## What a destination holds -/

theorem toNat_ones (b : Bool) : ((ones b).toNat : ℤ) = if b then 2 ^ 32 - 1 else 0 := by
  cases b with
  | true => rfl
  | false => rfl

/-- A destination that holds the digits of a sum, extended with the sign of the last carry,
holds the sum. -/
theorem vec_of_digits {n total : ℕ} {r : Words} {start : ℤ} {d : ℕ → ℤ} (bit : Bool)
    (shorter : n ≤ total)
    (digits : ∀ i < n, r i = BitVec.ofInt 32 (Radix.digit (2 ^ 32) start d i))
    (extended : ∀ i, n ≤ i → i < total → r i = ones bit)
    (last : n < total → Radix.carry (2 ^ 32) start d n = if bit then -1 else 0) :
    vec total r = BitVec.ofInt (32 * total) (start + Radix.value (2 ^ 32) d n) := by
  apply vec_eq_ofInt
  obtain ⟨more, rfl⟩ := Nat.exists_eq_add_of_le shorter
  have low : Radix.value (2 ^ 32) (fun i => ((r i).toNat : ℤ)) n =
      Radix.value (2 ^ 32) (Radix.digit (2 ^ 32) start d) n := by
    refine Radix.value_congr fun i below => ?_
    have least := Radix.digit_nonneg (d := d) start (show (0 : ℤ) < 2 ^ 32 by decide) i
    have most := Radix.digit_lt (d := d) start (show (0 : ℤ) < 2 ^ 32 by decide) i
    rw [digits i below, BitVec.toNat_ofInt, Int.toNat_of_nonneg (by omega)]
    exact Int.emod_eq_of_lt least most
  have pass := Radix.value_digit (2 ^ 32) start d n
  rw [magnitude, Radix.value_add, low]
  cases more with
  | zero =>
      rw [Radix.value_zero, Nat.add_zero, ← pow_word]
      exact ⟨-Radix.carry (2 ^ 32) start d n, by linear_combination pass⟩
  | succ more =>
      have high : Radix.value (2 ^ 32) (fun i => ((r (n + i)).toNat : ℤ)) (more + 1) =
          if bit then (2 ^ 32) ^ (more + 1) - 1 else 0 := by
        have same : Radix.value (2 ^ 32) (fun i => ((r (n + i)).toNat : ℤ)) (more + 1) =
            Radix.value (2 ^ 32) (fun _ => if bit then 2 ^ 32 - 1 else 0) (more + 1) :=
          Radix.value_congr fun i below => by
            rw [extended (n + i) (Nat.le_add_right _ _) (by omega), toNat_ones]
        have constant := Radix.value_const (2 ^ 32) (if bit then 2 ^ 32 - 1 else 0) (more + 1)
        rw [same]
        cases bit with
        | true =>
            simp only [↓reduceIte] at constant ⊢
            exact mul_right_cancel₀ (show (2 ^ 32 - 1 : ℤ) ≠ 0 by decide)
              (constant.trans (mul_comm _ _))
        | false =>
            simp only [Bool.false_eq_true, ↓reduceIte, zero_mul] at constant ⊢
            exact (mul_eq_zero.mp constant).resolve_right (by decide)
      have carried := last (by omega)
      rw [high, ← pow_word, pow_add]
      cases bit with
      | true =>
          simp only [↓reduceIte] at carried ⊢
          rw [carried] at pass
          exact ⟨1, by linear_combination pass⟩
      | false =>
          simp only [Bool.false_eq_true, ↓reduceIte] at carried ⊢
          rw [carried] at pass
          exact ⟨0, by linear_combination pass⟩

/-- A pass, a second one that resumes it and the extension leave one number. -/
theorem vec_two_passes {t1 t2 total : ℕ} {first second : ℕ → ℤ} {middle : ℤ} {bit : Bool}
    (r : Words) (ordered : t1 ≤ t2) (shorter : t2 ≤ total)
    (carried : Radix.carry (2 ^ 32) 0 first t1 = middle)
    (last : t2 < total → Radix.carry (2 ^ 32) middle second (t2 - t1) = if bit then -1 else 0) :
    vec total (extend (total - t2) (fill (t2 - t1) (passWord middle second)
        (fill t1 (passWord 0 first) r 0) t1) t2 (ones bit)) =
      BitVec.ofInt (32 * total)
        (Radix.value (2 ^ 32) (fun i => if i < t1 then first i else second (i - t1)) t2) := by
  have low : ∀ i < t1, (if i < t1 then first i else second (i - t1)) = first i :=
    fun i below => if_pos below
  have high : (fun j => if t1 + j < t1 then first (t1 + j) else second (t1 + j - t1)) = second := by
    funext j
    rw [if_neg (by omega), Nat.add_sub_cancel_left]
  have between : Radix.carry (2 ^ 32) 0 (fun i => if i < t1 then first i else second (i - t1)) t1 =
      middle := (Radix.carry_congr low).trans carried
  rw [← zero_add (Radix.value _ _ _)]
  refine vec_of_digits bit shorter (fun i below => ?_) (fun i from_ below => ?_)
    fun more => ?_
  · rw [extend, fill_apply, if_neg (by omega), fill_apply]
    by_cases early : i < t1
    · rw [if_neg (by omega), fill_apply, if_pos (by omega), Nat.sub_zero, passWord,
        Radix.digit_congr fun j earlier => low j (by omega)]
    · obtain ⟨j, rfl⟩ := Nat.exists_eq_add_of_le (Nat.not_lt.mp early)
      rw [if_pos (by omega), Nat.add_sub_cancel_left, passWord, Radix.digit_add, between, high]
  · rw [extend, fill_apply, if_pos (by omega)]
  · obtain ⟨j, rfl⟩ := Nat.exists_eq_add_of_le ordered
    rw [Radix.carry_add, between, high, ← last more, Nat.add_sub_cancel_left]

/-! ## Extension -/

/-- The words of a vector and those of its sign above them. -/
def extended (n : ℕ) (v : Words) (i : ℕ) : Word := if i < n then v i else ones (isNeg (v (n - 1)))

/-- `iv<N>(const iv<N2> &b)` and the assignment. -/
def convert (n n2 : ℕ) (b v : Words) : Words :=
  let m := min n n2
  let v := copy m b v 0
  extend (n - m) v m (ones (isNeg (v (m - 1))))

/-- A converted vector is cut or extended with its sign. -/
theorem convert_apply {n n2 i : ℕ} (positive : 0 < n2) (below : i < n) (b v : Words) :
    convert n n2 b v i = extended (min n n2) b i := by
  have copied : ∀ j < min n n2, copy (min n n2) b v 0 j = b j := fun j early => by
    rw [copy, fill_apply, if_pos (by omega), Nat.sub_zero]
  unfold convert extended extend
  simp only [fill_apply]
  by_cases early : i < min n n2
  · rw [if_neg (by omega), if_pos early, copied i early]
  · rw [if_pos (by omega), if_neg early, copied _ (by omega)]

/-- The digits of a vector carry nothing below its top. -/
private theorem carry_digit {n i : ℕ} (v : Words) (below : i < n) :
    Radix.carry (2 ^ 32) 0 (digit n v) i = 0 := by
  induction i with
  | zero => rfl
  | succ i ih =>
      have word := (v i).isLt
      rw [Radix.carry, ih (by omega), digit_of_lt v below]
      omega

/-- The words of the sign do not change a number. -/
theorem vec_extended {n m : ℕ} (positive : 0 < n) (longer : n ≤ m) (v : Words) :
    vec m (extended n v) = BitVec.ofInt (32 * m) (vec n v).toInt := by
  rw [← value_digit positive, ← zero_add (Radix.value _ _ _)]
  refine vec_of_digits (isNeg (v (n - 1))) longer (fun i below => ?_) (fun i from_ below => ?_)
    fun more => ?_
  · have low : v i = BitVec.ofInt 32 (digit n v i % 2 ^ 32) := by
      have word := (v i).isLt
      apply BitVec.eq_of_toNat_eq
      by_cases top : i + 1 = n
      · rw [digit_top v top, BitVec.toNat_ofInt, BitVec.toInt_eq_toNat_cond]
        split <;> omega
      · rw [digit_of_lt v (by omega), BitVec.toNat_ofInt]
        omega
    rw [extended, if_pos below, low, Radix.digit, carry_digit v below, zero_add]
  · rw [extended, if_neg (by omega)]
  · obtain ⟨k, rfl⟩ : ∃ k, n = k + 1 := ⟨n - 1, by omega⟩
    have word := toInt_word (v k)
    rw [Radix.carry, carry_digit v (Nat.lt_succ_self k), zero_add, digit_top v rfl,
      Nat.add_sub_cancel, isNeg]
    by_cases negative : (v k).toInt < 0
    · rw [decide_eq_true negative, if_pos rfl]
      omega
    · rw [decide_eq_false negative, if_neg Bool.false_ne_true]
      omega

/-- Extending a vector with its sign keeps its number. -/
theorem toInt_vec_extended {n m : ℕ} (positive : 0 < n) (longer : n ≤ m) (v : Words) :
    (vec m (extended n v)).toInt = (vec n v).toInt := by
  have wider : (2 : ℤ) ^ (32 * n - 1) ≤ 2 ^ (32 * m - 1) :=
    pow_le_pow_right₀ (by norm_num) (by omega)
  have least := BitVec.le_toInt (vec n v)
  have most := BitVec.toInt_lt (x := vec n v)
  rw [vec_extended positive longer, BitVec.toInt_ofInt_eq_self (by omega)]
  · linarith
  · linarith

/-- The words of a bit vector are determined. -/
theorem vec_inj {n : ℕ} {u w : Words} (same : vec n u = vec n w) : ∀ i < n, u i = w i := by
  have magnitudes : magnitude n u = magnitude n w := by rw [← toNat_vec, ← toNat_vec, same]
  intro i below
  have digits := Radix.value_inj (by norm_num) (fun i _ => toNat_word (u i))
    (fun i _ => toNat_word (w i)) magnitudes i below
  exact BitVec.eq_of_toNat_eq (by exact_mod_cast digits)

end Iv

end DownSample
