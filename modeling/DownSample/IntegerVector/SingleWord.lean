import DownSample.AcInt
import DownSample.IntegerVector.Slices

/-! # Values of one word

The line buffers, the counters and the sums of the design are unsigned and narrower than
32 bits, so that each of them is one adjusted word, and what the header's operators do on
them is written as one formula on that word (`DownSample.AcInt`). These formulas are the
header's operators (`DownSample.Iv.AcInt.single_word`).
-/

namespace DownSample

namespace Iv

variable {width width2 sliceWidth : ℕ}

/-- A narrow unsigned value is one word. -/
theorem wordCount_narrow (narrow : width < 32) : wordCount width false = 1 := by
  rw [wordCount, Bool.not_false, Bool.toNat_true]
  omega

/-- Values of one type are equal when their bits below the width are. -/
theorem Fits.ext {sign : Bool} {x y : ℤ} (left : Fits width sign x) (right : Fits width sign y)
    (positive : 0 < width) (same : ∀ i < width, x.testBit i = y.testBit i) : x = y := by
  rw [← wrap_of_fits positive left, ← wrap_of_fits positive right, wrap_congr positive same]

/-- A bit vector is an unsigned value of its width. -/
theorem fits_toNat (x : BitVec width) : Fits width false (x.toNat : ℤ) :=
  fits_unsigned.mpr ⟨Int.natCast_nonneg _, by exact_mod_cast x.isLt⟩

/-- The bits of the number are the bits of the vector. -/
theorem testBit_natCast (x : BitVec width) (i : ℕ) :
    (x.toNat : ℤ).testBit i = x.getLsbD i := rfl

namespace AcInt

/-- The value of one word that a bit vector stands for. -/
def ofWord (x : BitVec width) (positive : 0 < width) (narrow : width < 32) :
    AcInt width false where
  v := fun _ => DownSample.AcInt.storage x
  positive := positive
  adjusted := by
    rw [wordCount_narrow narrow, toInt_vec_one, DownSample.AcInt.storage_toInt x narrow]
    exact fits_toNat x

/-- The value of a bit vector is its unsigned number. -/
theorem toInt_ofWord (x : BitVec width) (positive : 0 < width) (narrow : width < 32) :
    (ofWord x positive narrow).toInt = x.toNat := by
  rw [toInt, wordCount_narrow narrow, toInt_vec_one]
  exact DownSample.AcInt.storage_toInt x narrow

/-- `ac_int<32, true>(int)`. -/
def ofInt32 (b : Word) : AcInt 32 true where
  v := fun _ => b
  positive := by decide
  adjusted := by
    rw [show wordCount 32 true = 1 from rfl, toInt_vec_one]
    exact fits_signed.mpr (toInt_word b)

/-- The value of an `int` operand is the `int`. -/
theorem toInt_ofInt32 (b : Word) : (ofInt32 b).toInt = b.toInt := toInt_vec_one _

section Formulas

variable (r : Words) (x : BitVec width) (positive : 0 < width) (narrow : width < 32)

/-- The sum of the design is `operator +`. -/
theorem plus_ofWord (y : BitVec width2) (positive2 : 0 < width2) (narrow2 : width2 < 32)
    (sum : max width width2 + 1 < 32) :
    (plus r (ofWord x positive narrow) (ofWord y positive2 narrow2)).result.toInt =
      (DownSample.AcInt.plus x y).toNat := by
  rw [Exact.toInt_eq, toInt_ofWord, toInt_ofWord, DownSample.AcInt.plus_toNat x y sum, Nat.cast_add]

/-- The increment of the design is `operator ++`. -/
theorem increment_ofWord :
    (increment (ofWord x positive narrow)).toInt = (DownSample.AcInt.increment x).toNat := by
  have one : (1 : BitVec width).toNat = 1 % 2 ^ width := BitVec.toNat_ofNat 1 width
  rw [toInt_increment, toInt_ofWord, DownSample.AcInt.increment_eq x positive narrow,
    BitVec.toNat_add, one, Nat.add_mod_mod, wrap, if_neg Bool.false_ne_true]
  norm_cast

/-- The slice read by the design is `slc`. -/
theorem slc_ofWord (sliced : 0 < sliceWidth) (slim : sliceWidth < 32) (index : BitVec 32)
    (below : index.toNat < 32) :
    (slc r sliceWidth sliced (ofWord x positive narrow) index).toInt =
      (DownSample.AcInt.slc sliceWidth x index.toNat).toNat := by
  rw [toInt_slc, toInt_ofWord]
  refine (fits_wrap sliced false _).ext (fits_toNat _) sliced fun i early => ?_
  rw [testBit_wrap sliced, if_pos early, IntBits.testBit_ediv, testBit_natCast, testBit_natCast,
    DownSample.AcInt.getLsbD_slc x narrow sliced slim index.toNat below, decide_eq_true early,
    Bool.true_and]

/-- The slice written by the design is `set_slc`. -/
theorem setSlc_ofWord (ulsb : BitVec 32) (slice : BitVec sliceWidth) (sliced : 0 < sliceWidth)
    (slim : sliceWidth < 32) (fits : ulsb.toNat + sliceWidth ≤ width) :
    (setSlc r (ofWord x positive narrow) ulsb (ofWord slice sliced slim)).toInt =
      (DownSample.AcInt.setSlc x ulsb.toNat slice).toNat := by
  refine (setSlc r _ ulsb _).adjusted.ext (fits_toNat _) positive fun i below => ?_
  have written := testBit_setSlc r (ofWord x positive narrow) ulsb (ofWord slice sliced slim)
    fits below
  rw [toInt] at written
  rw [written, toInt_ofWord, toInt_ofWord, testBit_natCast, testBit_natCast, testBit_natCast,
    DownSample.AcInt.getLsbD_setSlc x ulsb.toNat slice narrow fits i below]

/-- The comparison of the design is `operator >=`, which the header takes from `operator <`. -/
theorem ge_ofWord (op2 : Word) (n : ℕ) (value : op2.toInt = n) :
    (!lessThan (ofWord x positive narrow) (ofInt32 op2)) =
      DownSample.AcInt.geInt (DownSample.AcInt.storage x) n := by
  rw [lessThan_eq, toInt_ofWord, toInt_ofInt32, DownSample.AcInt.geInt,
    DownSample.AcInt.storage_toInt x narrow, value, ← decide_not]
  exact decide_eq_decide.mpr not_lt

end Formulas

/-- **The formulas of the design's values are the header's operators.** -/
theorem single_word (r : Words) (x : BitVec width) (y : BitVec width2)
    (positive : 0 < width) (positive2 : 0 < width2) (sum : max width width2 + 1 < 32)
    (sliced : 0 < sliceWidth) (slice : BitVec sliceWidth) (index : BitVec 32)
    (fits : index.toNat + sliceWidth ≤ width) (op2 : Word) (n : ℕ) (value : op2.toInt = n) :
    (plus r (ofWord x positive (by omega)) (ofWord y positive2 (by omega))).result.toInt =
        (DownSample.AcInt.plus x y).toNat ∧
      (increment (ofWord x positive (by omega))).toInt = (DownSample.AcInt.increment x).toNat ∧
      (slc r sliceWidth sliced (ofWord x positive (by omega)) index).toInt =
        (DownSample.AcInt.slc sliceWidth x index.toNat).toNat ∧
      (setSlc r (ofWord x positive (by omega)) index (ofWord slice sliced (by omega))).toInt =
        (DownSample.AcInt.setSlc x index.toNat slice).toNat ∧
      (!lessThan (ofWord x positive (by omega)) (ofInt32 op2)) =
        DownSample.AcInt.geInt (DownSample.AcInt.storage x) n :=
  ⟨plus_ofWord r x positive (by omega) y positive2 (by omega) sum,
    increment_ofWord x positive (by omega),
    slc_ofWord r x positive (by omega) sliced (by omega) index (by omega),
    setSlc_ofWord r x positive (by omega) index slice sliced (by omega) fits,
    ge_ofWord x positive (by omega) op2 n value⟩

/-- At two bytes: `200 + 100` keeps its carry, and `255` wraps when it is incremented. -/
theorem single_word_bytes :
    (plus (fun _ => 0) (ofWord (200 : BitVec 8) (by decide) (by decide))
        (ofWord (100 : BitVec 8) (by decide) (by decide))).result.toInt = 300 ∧
      (increment (ofWord (255 : BitVec 8) (by decide) (by decide))).toInt = 0 := by
  obtain ⟨sum, -⟩ := single_word (fun _ => 0) (200 : BitVec 8) (100 : BitVec 8) (by decide)
    (by decide) (by decide) (by decide) (3 : BitVec 2) 6 (by decide) 479 479 (by decide)
  obtain ⟨-, next, -⟩ := single_word (fun _ => 0) (255 : BitVec 8) (100 : BitVec 8) (by decide)
    (by decide) (by decide) (by decide) (3 : BitVec 2) 6 (by decide) 479 479 (by decide)
  exact ⟨sum.trans (by decide), next.trans (by decide)⟩

end AcInt

end Iv

end DownSample
