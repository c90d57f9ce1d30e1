import DownSample.IntegerVector.Bits

/-! # Values of arbitrary-length integers

An `ac_int<W, S>` keeps its value in the words of a vector, adjusted to its width and its
signedness: the bits of the top word above the width are the sign, or zeros. Adjusting keeps
a value up to a multiple of the range of its type (`DownSample.Iv.toInt_bitAdjust`), and a
vector that holds a value of the type is adjusted already.
-/

namespace DownSample

namespace Iv

/-- The words of an `ac_int<W, S>`. -/
def wordCount (width : ℕ) (sign : Bool) : ℕ := (width + 31 + (!sign).toNat) / 32

/-- The values of an `ac_int<W, S>`. -/
def Fits (width : ℕ) (sign : Bool) (z : ℤ) : Prop :=
  if sign then -2 ^ (width - 1) ≤ z ∧ z < 2 ^ (width - 1) else 0 ≤ z ∧ z < 2 ^ width

/-- A constructed value of type `ac_int<W, S>`. -/
structure AcInt (width : ℕ) (sign : Bool) where
  /-- The words. -/
  v : Words
  positive : 0 < width
  adjusted : Fits width sign (vec (wordCount width sign) v).toInt

/-! ## Ranges -/

section Ranges

variable {width width' : ℕ} {sign sign' : Bool} {x y z : ℤ}

theorem fits_signed : Fits width true z ↔ -2 ^ (width - 1) ≤ z ∧ z < 2 ^ (width - 1) := by
  rw [Fits, if_pos rfl]

theorem fits_unsigned : Fits width false z ↔ 0 ≤ z ∧ z < 2 ^ width := by
  rw [Fits, if_neg Bool.false_ne_true]

theorem wordCount_pos (sign : Bool) (positive : 0 < width) : 0 < wordCount width sign := by
  unfold wordCount
  cases sign <;> simp only [Bool.not_true, Bool.not_false, Bool.toNat_true, Bool.toNat_false] <;>
    omega

/-- A wider type has the values of a narrower one, an unsigned one if it has a bit more. -/
theorem Fits.widen (fits : Fits width sign z) (positive : 0 < width)
    (signs : sign = true → sign' = true) (wider : width + (sign' && !sign).toNat ≤ width') :
    Fits width' sign' z := by
  cases sign with
  | true =>
      rw [signs rfl] at wider ⊢
      simp only [Bool.not_true, Bool.and_false, Bool.toNat_false] at wider
      rw [fits_signed] at fits ⊢
      have powers : (2 : ℤ) ^ (width - 1) ≤ 2 ^ (width' - 1) :=
        pow_le_pow_right₀ (by norm_num) (by omega)
      constructor <;> linarith [fits.1, fits.2]
  | false =>
      rw [fits_unsigned] at fits
      cases sign' with
      | true =>
          simp only [Bool.not_false, Bool.and_true, Bool.toNat_true] at wider
          rw [fits_signed]
          have powers : (2 : ℤ) ^ width ≤ 2 ^ (width' - 1) :=
            pow_le_pow_right₀ (by norm_num) (by omega)
          constructor <;> linarith [fits.1, fits.2]
      | false =>
          simp only [Bool.not_false, Bool.and_true, Bool.toNat_false] at wider
          rw [fits_unsigned]
          have powers : (2 : ℤ) ^ width ≤ 2 ^ width' :=
            pow_le_pow_right₀ (by norm_num) (by omega)
          exact ⟨fits.1, by linarith [fits.2]⟩

/-- The words of a type hold its values with their sign. -/
theorem Fits.toInt_ofInt (fits : Fits width sign z) (positive : 0 < width) :
    (BitVec.ofInt (32 * wordCount width sign) z).toInt = z := by
  have room : Fits (32 * wordCount width sign) true z := by
    refine fits.widen positive (fun _ => rfl) ?_
    unfold wordCount
    cases sign <;> simp only [Bool.not_true, Bool.not_false, Bool.toNat_true, Bool.toNat_false,
      Bool.and_false, Bool.and_self] <;> omega
  rw [fits_signed] at room
  have words := wordCount_pos sign positive
  exact BitVec.toInt_ofInt_eq_self (by omega) room.1 room.2

/-- The signed bits of a type are those above its top bit. -/
theorem fits_iff_testBit (positive : 0 < width) : Fits width sign z ↔
    ∀ i, width ≤ i → z.testBit i = (sign && z.testBit (width - 1)) := by
  cases sign with
  | true =>
      rw [fits_signed]
      constructor
      · rintro ⟨least, most⟩ i above
        rw [IntBits.testBit_of_bounds least most (show width - 1 ≤ i by omega),
          IntBits.testBit_of_bounds least most le_rfl, Bool.true_and]
      · intro above
        have constant : ∀ i, width - 1 ≤ i → z.testBit i = z.testBit (width - 1) := by
          intro i from_
          by_cases top : i = width - 1
          · rw [top]
          · rw [above i (by omega), Bool.true_and]
        obtain ⟨least, most, -⟩ := IntBits.bounds_of_testBit constant
        exact ⟨least, most⟩
  | false =>
      rw [fits_unsigned]
      constructor
      · rintro ⟨least, most⟩ i above
        rw [IntBits.testBit_of_bounds (by linarith) most above, decide_eq_false (by omega),
          Bool.false_and]
      · intro above
        obtain ⟨-, most, nonnegative⟩ := IntBits.bounds_of_testBit fun i from_ =>
          (above i from_).trans (Bool.false_and _)
        exact ⟨nonnegative rfl, most⟩

/-- What an adjustment to a width keeps of an integer. -/
def wrap (width : ℕ) (sign : Bool) (z : ℤ) : ℤ :=
  if sign then z.bmod (2 ^ width) else z % 2 ^ width

/-- Wrapping keeps a number modulo the range of the type. -/
theorem dvd_wrap (width : ℕ) (sign : Bool) (z : ℤ) : (2 ^ width : ℤ) ∣ wrap width sign z - z := by
  cases sign with
  | true =>
      have same := Int.dvd_bmod_sub_self (x := z) (m := 2 ^ width)
      rw [Nat.cast_pow, Nat.cast_ofNat] at same
      rwa [wrap, if_pos rfl]
  | false =>
      rw [wrap, if_neg Bool.false_ne_true]
      exact Int.dvd_emod_sub_self

/-- A wrapped number is a value of the type. -/
theorem fits_wrap (positive : 0 < width) (sign : Bool) (z : ℤ) :
    Fits width sign (wrap width sign z) := by
  cases sign with
  | true =>
      rw [fits_signed, wrap, if_pos rfl]
      have range : 2 ^ width = 2 * 2 ^ (width - 1) := by
        rw [← pow_succ', Nat.sub_add_cancel positive]
      have cast : ((2 ^ (width - 1) : ℕ) : ℤ) = 2 ^ (width - 1) := by push_cast; rfl
      have least := Int.le_bmod (x := z) (show 0 < 2 ^ width by positivity)
      have most := Int.bmod_lt (x := z) (show 0 < 2 ^ width by positivity)
      rw [← cast]
      omega
  | false =>
      rw [fits_unsigned, wrap, if_neg Bool.false_ne_true]
      exact ⟨Int.emod_nonneg z (by positivity), Int.emod_lt_of_pos z (by positivity)⟩

/-- Wrapping keeps the bits below the width and repeats the sign above them. -/
theorem testBit_wrap (positive : 0 < width) (sign : Bool) (z : ℤ) (i : ℕ) :
    (wrap width sign z).testBit i =
      if i < width then z.testBit i else sign && z.testBit (width - 1) := by
  have low {j : ℕ} (below : j < width) : (wrap width sign z).testBit j = z.testBit j :=
    IntBits.testBit_of_dvd (dvd_wrap width sign z) below
  by_cases below : i < width
  · rw [if_pos below, low below]
  · rw [if_neg below, (fits_iff_testBit positive).mp (fits_wrap positive sign z) i (by omega),
      low (by omega)]

/-- A value of the type is not changed. -/
theorem wrap_of_fits (positive : 0 < width) (fits : Fits width sign z) :
    wrap width sign z = z := by
  apply IntBits.ext
  intro i
  rw [testBit_wrap positive]
  by_cases below : i < width
  · rw [if_pos below]
  · rw [if_neg below, (fits_iff_testBit positive).mp fits i (by omega)]

/-- The adjustment does not see multiples of a wider range. -/
theorem wrap_congr (positive : 0 < width) (same : ∀ i < width, x.testBit i = y.testBit i) :
    wrap width sign x = wrap width sign y := by
  apply IntBits.ext
  intro i
  rw [testBit_wrap positive, testBit_wrap positive, same (width - 1) (by omega)]
  by_cases below : i < width
  · rw [if_pos below, if_pos below, same i below]
  · rw [if_neg below, if_neg below]

end Ranges

/-! ## Adjustment -/

/-- `ac_int<W, S>::bit_adjust`. -/
def bitAdjust (width : ℕ) (sign : Bool) (v : Words) : Words :=
  let rem := (32 - width % 32) % 32
  let top := v (wordCount width sign - 1)
  Function.update v (wordCount width sign - 1)
    (if sign then (top <<< rem).sshiftRight rem else if rem ≠ 0 then (top <<< rem) >>> rem else 0)

section Adjustment

variable {width : ℕ} {sign : Bool}

/-- The two shifts of `bit_adjust` keep the low bits of the top word. -/
theorem getLsbD_adjusted (sign : Bool) (top : Word) {rem j : ℕ} (proper : rem < 32)
    (inside : j < 32) :
    (if sign then (top <<< rem).sshiftRight rem
      else if rem ≠ 0 then (top <<< rem) >>> rem else 0).getLsbD j =
      if sign then top.getLsbD (if j + rem < 32 then j else 31 - rem)
      else decide (rem ≠ 0 ∧ j + rem < 32) && top.getLsbD j := by
  cases sign with
  | true =>
      rw [if_pos rfl, if_pos rfl, BitVec.getLsbD_sshiftRight, decide_eq_false (by omega),
        Bool.not_false, Bool.true_and, BitVec.msb_eq_getLsbD_last, BitVec.getLsbD_shiftLeft,
        BitVec.getLsbD_shiftLeft, Nat.add_comm rem]
      by_cases low : j + rem < 32
      · rw [if_pos low, if_pos low, decide_eq_true low, decide_eq_false (by omega), Bool.not_false,
          Bool.true_and, Bool.true_and, Nat.add_sub_cancel]
      · rw [if_neg low, if_neg low, decide_eq_true (by decide), decide_eq_false (by omega),
          Bool.not_false, Bool.true_and, Bool.true_and]
  | false =>
      rw [if_neg Bool.false_ne_true, if_neg Bool.false_ne_true]
      by_cases some : rem ≠ 0
      · rw [if_pos some, BitVec.getLsbD_ushiftRight, BitVec.getLsbD_shiftLeft,
          decide_eq_false (show ¬ rem + j < rem by omega), Bool.not_false, Bool.and_true,
          Nat.add_sub_cancel_left]
        congr 1
        exact decide_eq_decide.mpr (by omega)
      · rw [if_neg some, decide_eq_false (by tauto), Bool.false_and, BitVec.ofNat_eq_ofNat,
          BitVec.getLsbD_zero]

/-- **Adjusting keeps the value up to a multiple of the range.** -/
theorem toInt_bitAdjust (positive : 0 < width) (v : Words) :
    (vec (wordCount width sign) (bitAdjust width sign v)).toInt =
      wrap width sign (vec (wordCount width sign) v).toInt := by
  have words := wordCount_pos sign positive
  have count : wordCount width sign - 1 = (width - sign.toNat) / 32 := by
    unfold wordCount
    cases sign <;> simp only [Bool.not_true, Bool.not_false, Bool.toNat_true, Bool.toNat_false] <;>
      omega
  have single := Bool.toNat_le sign
  apply IntBits.ext
  intro i
  rw [testBit_wrap positive, testBit_vec words, testBit_vec words, testBit_vec words]
  have position : i = 32 * (i / 32) + i % 32 := by omega
  have inside : i % 32 < 32 := by omega
  generalize i / 32 = k at position
  generalize i % 32 = j at position inside
  subst position
  rw [bit_word _ inside, bit_word _ inside]
  have proper : (32 - width % 32) % 32 < 32 := by omega
  have adjusted {l : ℕ} (small : l < 32) :=
    getLsbD_adjusted sign (v (wordCount width sign - 1)) proper small
  have last : bit (wordCount width sign) v (32 * (wordCount width sign - 1) +
      (31 - (32 - width % 32) % 32)) =
        (v (wordCount width sign - 1)).getLsbD (31 - (32 - width % 32) % 32) := by
    rw [bit_word v (by omega), extended_of_lt v (by omega)]
  by_cases low : k < wordCount width sign - 1
  · rw [extended_of_lt _ (by omega), extended_of_lt _ (by omega), bitAdjust,
      Function.update_of_ne (by omega), if_pos (by omega)]
  by_cases top : k = wordCount width sign - 1
  · subst top
    rw [extended_of_lt _ (by omega), extended_of_lt _ (by omega), bitAdjust,
      Function.update_self, adjusted inside]
    cases sign with
    | true =>
        have top : width - 1 = 32 * (wordCount width true - 1) +
            (31 - (32 - width % 32) % 32) := by
          rw [Bool.toNat_true] at count
          omega
        rw [if_pos rfl, Bool.true_and, top, last]
        by_cases kept : j + (32 - width % 32) % 32 < 32
        · rw [if_pos kept, if_pos (by omega)]
        · rw [if_neg kept, if_neg (by omega)]
    | false =>
        rw [Bool.toNat_false] at count
        rw [if_neg Bool.false_ne_true, Bool.false_and]
        by_cases kept : (32 - width % 32) % 32 ≠ 0 ∧ j + (32 - width % 32) % 32 < 32
        · rw [decide_eq_true kept, Bool.true_and, if_pos (by omega)]
        · rw [decide_eq_false kept, Bool.false_and, if_neg (by omega)]
  · rw [extended_of_le _ (by omega), getLsbD_ones _ inside, if_neg (by omega), bitAdjust,
      Function.update_self, isNeg_eq, adjusted (by decide)]
    cases sign with
    | true =>
        have top : width - 1 = 32 * (wordCount width true - 1) +
            (31 - (32 - width % 32) % 32) := by
          rw [Bool.toNat_true] at count
          omega
        rw [if_pos rfl, Bool.true_and, top, last]
        congr 1
        split <;> omega
    | false =>
        rw [if_neg Bool.false_ne_true, Bool.false_and, decide_eq_false (by omega), Bool.false_and]

/-- The words hold at least the width. -/
theorem width_le (width : ℕ) (sign : Bool) : width ≤ 32 * wordCount width sign := by
  unfold wordCount
  omega

theorem testBit_toInt_ofInt {w i : ℕ} (z : ℤ) (below : i < w) :
    (BitVec.ofInt w z).toInt.testBit i = z.testBit i := by
  rw [← IntBits.getLsbD_ofInt _ below, BitVec.ofInt_toInt, IntBits.getLsbD_ofInt z below]

namespace AcInt

/-- The value. -/
def toInt (x : AcInt width sign) : ℤ := (vec (wordCount width sign) x.v).toInt

theorem wordCount_pos (x : AcInt width sign) : 0 < wordCount width sign :=
  Iv.wordCount_pos sign x.positive

/-- A result that is adjusted. -/
def adjust (width : ℕ) (sign : Bool) (positive : 0 < width) (r : Words) : AcInt width sign where
  v := bitAdjust width sign r
  positive := positive
  adjusted := by
    rw [toInt_bitAdjust positive]
    exact fits_wrap positive sign _

/-- An adjusted result is the wrapped number. -/
theorem toInt_adjust (positive : 0 < width) {r : Words} {z : ℤ}
    (holds : vec (wordCount width sign) r = BitVec.ofInt (32 * wordCount width sign) z) :
    (adjust width sign positive r).toInt = wrap width sign z := by
  refine (toInt_bitAdjust positive r).trans (wrap_congr positive fun i below => ?_)
  have inside := width_le width sign
  rw [holds, testBit_toInt_ofInt z (by omega)]

/-- A value of the type that is a known integer. -/
structure Exact (width : ℕ) (sign : Bool) (z : ℤ) where
  result : AcInt width sign
  toInt_eq : result.toInt = z

/-- A result that its type is wide enough for: it is adjusted already. -/
def ofExact (positive : 0 < width) (r : Words) {z : ℤ} (fits : Fits width sign z)
    (holds : vec (wordCount width sign) r = BitVec.ofInt (32 * wordCount width sign) z) :
    Exact width sign z :=
  have value : (vec (wordCount width sign) r).toInt = z := by
    rw [holds, fits.toInt_ofInt positive]
  ⟨⟨r, positive, value ▸ fits⟩, value⟩

end AcInt

end Adjustment

end Iv

end DownSample
