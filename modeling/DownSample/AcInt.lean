import Mathlib.Data.Nat.Basic
import Mathlib.Tactic.Linarith

/-! # Unsigned `ac_int` values of fewer than 32 bits

An `ac_int<W, false>` with `W < 32` keeps its value in one signed 32-bit word
`v[0]`. A value that has been constructed or assigned is adjusted to its width, so
it is a `BitVec W`; the operations below compute on the storage word as `ac_int.h`
does and adjust the result. An object made by the default constructor is the one
exception: the constructor stores nothing, and its storage is an arbitrary
`BitVec 32`.

The header's masking formulas are pinned down bit by bit: a slice reads exactly its
bits (`DownSample.AcInt.getLsbD_slc`) and a slice assignment changes exactly its bits
(`DownSample.AcInt.getLsbD_setSlc`). Widening addition and division by an `int`
compute on the integers (`DownSample.AcInt.plus_toNat`,
`DownSample.AcInt.divInt_toNat`).
-/

namespace DownSample

/-- The values of `uint8`. -/
abbrev Uint8 := BitVec 8

/-- The values of `uint16`. -/
abbrev Uint16 := BitVec 16

namespace AcInt

variable {width sliceWidth leftWidth rightWidth : ℕ}

/-- `ac_int<W, false>::bit_adjust` on the single storage word. -/
def bitAdjust (width : ℕ) (v : BitVec 32) : BitVec 32 :=
  let rem := (32 - width) % 32
  if rem ≠ 0 then (v <<< rem) >>> rem else 0

/-- The storage word of an adjusted value. -/
def storage (x : BitVec width) : BitVec 32 := x.setWidth 32

/-- The value a constructor of `ac_int<W, false>` makes of a storage word. -/
def ofStorage (width : ℕ) (v : BitVec 32) : BitVec width := (bitAdjust width v).setWidth width

/-- Adjusting keeps exactly the low bits of the storage word. -/
theorem ofStorage_eq_setWidth (v : BitVec 32) (positive : 0 < width) (narrow : width < 32) :
    ofStorage width v = v.setWidth width := by
  have remainder : (32 - width) % 32 = 32 - width := Nat.mod_eq_of_lt (by omega)
  have nonzero : 32 - width ≠ 0 := by omega
  apply BitVec.eq_of_getLsbD_eq
  intro i below
  have shifted : 32 - width + i - (32 - width) = i := by omega
  have inside : 32 - width + i < 32 := by omega
  have above : ¬ 32 - width + i < 32 - width := by omega
  simp only [ofStorage, bitAdjust, remainder, ne_eq, nonzero, not_false_eq_true, ↓reduceIte,
    BitVec.getLsbD_setWidth, BitVec.getLsbD_ushiftRight, BitVec.getLsbD_shiftLeft, below, inside,
    above, shifted, decide_true, decide_false, Bool.not_false, Bool.true_and]

theorem msb_storage (x : BitVec width) (narrow : width < 32) : (storage x).msb = false := by
  unfold storage
  rw [BitVec.msb_eq_getLsbD_last, BitVec.getLsbD_setWidth]
  simp only [BitVec.getLsbD_of_ge x (32 - 1) (by omega), Bool.and_false]

theorem storage_toNat (x : BitVec width) (narrow : width < 32) : (storage x).toNat = x.toNat := by
  have bound : 2 ^ width ≤ 2 ^ 32 := Nat.pow_le_pow_right (by omega) (by omega)
  rw [storage, BitVec.toNat_setWidth, Nat.mod_eq_of_lt (lt_of_lt_of_le x.isLt bound)]

/-- `operator >=` against an `int`: a signed comparison of the storage words. -/
def geInt (v : BitVec 32) (op2 : ℕ) : Bool := decide ((op2 : ℤ) ≤ v.toInt)

theorem storage_toInt (x : BitVec width) (narrow : width < 32) :
    (storage x).toInt = (x.toNat : ℤ) := by
  rw [BitVec.toInt_eq_toNat_of_msb (msb_storage x narrow), storage_toNat x narrow]

/-- A counter that fits its width holds its number, also as a storage word. -/
theorem toNat_counter {n : ℕ} (fits : n < 2 ^ width) : (BitVec.ofNat width n).toNat = n := by
  rw [BitVec.toNat_ofNat, Nat.mod_eq_of_lt fits]

theorem storage_counter_toInt {n : ℕ} (narrow : width < 32) (fits : n < 2 ^ width) :
    (storage (BitVec.ofNat width n)).toInt = (n : ℤ) := by
  rw [storage_toInt _ narrow, toNat_counter fits]

theorem geInt_storage (x : BitVec width) (narrow : width < 32) (op2 : ℕ) :
    geInt (storage x) op2 = decide (op2 ≤ x.toNat) := by
  rw [geInt, storage_toInt x narrow]
  exact decide_eq_decide.mpr Int.ofNat_le

/-- `operator ++` on an adjusted value. -/
def increment (x : BitVec width) : BitVec width := ofStorage width (storage x + 1)

/-- The increment wraps at the width of the value, as a bit vector's does. -/
theorem increment_eq (x : BitVec width) (positive : 0 < width) (narrow : width < 32) :
    increment x = x + 1 := by
  apply BitVec.eq_of_toNat_eq
  have divides : 2 ^ width ∣ 2 ^ 32 := Nat.pow_dvd_pow 2 (by omega)
  rw [increment, ofStorage_eq_setWidth _ positive narrow, BitVec.toNat_setWidth, BitVec.toNat_add,
    BitVec.toNat_add, storage_toNat x narrow, Nat.mod_mod_of_dvd _ divides]
  have one : (1 : BitVec 32).toNat = 1 := rfl
  have unit : (1 : BitVec width).toNat = 1 % 2 ^ width := BitVec.toNat_ofNat 1 width
  rw [one, unit, Nat.add_mod_mod]

/-- `operator +` of two unsigned values: the result is one bit wider than the wider
operand, and `iv_add` does not adjust it. -/
def plus (x : BitVec leftWidth) (y : BitVec rightWidth) : BitVec (max leftWidth rightWidth + 1) :=
  (storage x + storage y).setWidth _

/-- Widening addition loses nothing. -/
theorem plus_toNat (x : BitVec leftWidth) (y : BitVec rightWidth)
    (narrow : max leftWidth rightWidth + 1 < 32) : (plus x y).toNat = x.toNat + y.toNat := by
  have left : x.toNat < 2 ^ max leftWidth rightWidth :=
    lt_of_lt_of_le x.isLt (Nat.pow_le_pow_right (by omega) (le_max_left _ _))
  have right : y.toNat < 2 ^ max leftWidth rightWidth :=
    lt_of_lt_of_le y.isLt (Nat.pow_le_pow_right (by omega) (le_max_right _ _))
  have word : 2 ^ (max leftWidth rightWidth + 1) ≤ 2 ^ 32 :=
    Nat.pow_le_pow_right (by omega) (by omega)
  have double : 2 ^ (max leftWidth rightWidth + 1) = 2 * 2 ^ max leftWidth rightWidth := by
    rw [Nat.pow_succ, Nat.mul_comm]
  rw [plus, BitVec.toNat_setWidth, BitVec.toNat_add, storage_toNat x (by omega),
    storage_toNat y (by omega), Nat.mod_eq_of_lt (show x.toNat + y.toNat < 2 ^ 32 by omega),
    Nat.mod_eq_of_lt (by omega)]

/-- `operator /` by an `int`: the storage word of the `ac_int<W + 1, true>` quotient. -/
def divInt (x : BitVec width) (divisor : BitVec 32) : BitVec 32 := (storage x).sdiv divisor

/-- Division by a nonnegative `int` is the division of natural numbers. -/
theorem divInt_toNat (x : BitVec width) (divisor : BitVec 32) (narrow : width < 32)
    (nonnegative : divisor.msb = false) : (divInt x divisor).toNat = x.toNat / divisor.toNat := by
  rw [divInt, BitVec.sdiv_eq, msb_storage x narrow, nonnegative]
  simp only [BitVec.udiv_eq, BitVec.toNat_udiv, storage_toNat x narrow]

/-- `iv_shift_r<1, 1>`. -/
def shiftR (op1 : BitVec 32) (op2 : ℕ) : BitVec 32 :=
  let s31 := op2 % 32
  let ishift := if op2 / 32 > 1 then 1 else op2 / 32
  let ext := if op1.msb then BitVec.allOnes 32 else 0
  if s31 ≠ 0 ∧ ishift ≠ 1 then (op1 >>> s31) ||| (ext <<< (32 - s31))
  else if ishift < 1 then op1 else ext

theorem shiftR_storage (x : BitVec width) (narrow : width < 32) (count : ℕ) (below : count < 32) :
    shiftR (storage x) count = storage x >>> count := by
  have s31 : count % 32 = count := Nat.mod_eq_of_lt below
  have ishift : count / 32 = 0 := Nat.div_eq_of_lt below
  simp only [shiftR, s31, ishift, msb_storage x narrow]
  by_cases zero : count = 0
  · subst zero
    simp
  · simp [zero]

/-- `slc<WS>(index)`. -/
def slc (sliceWidth : ℕ) (x : BitVec width) (index : ℕ) : BitVec sliceWidth :=
  ofStorage sliceWidth (shiftR (storage x) index)

/-- `set_slc(lsb, slice)`: the slice is converted to `ac_int<WS, true>`, which extends its
sign over the storage word, and `iv<1>::set_slc` exchanges the masked bits. -/
def setSlc (x : BitVec width) (lsb : ℕ) (slice : BitVec sliceWidth) : BitVec width :=
  let v := storage x
  let op2 := slice.signExtend 32
  let mask := ~~~(if sliceWidth = 32 then 0 else BitVec.allOnes 32 <<< sliceWidth) <<< lsb
  ofStorage width (v ^^^ ((v ^^^ (op2 <<< lsb)) &&& mask))

/-- A slice reads the bits from its index on and no others. -/
theorem getLsbD_slc (x : BitVec width) (narrow : width < 32) (positive : 0 < sliceWidth)
    (slim : sliceWidth < 32) (index : ℕ) (below : index < 32) (i : ℕ) :
    (slc sliceWidth x index).getLsbD i = (decide (i < sliceWidth) && x.getLsbD (index + i)) := by
  simp only [slc, ofStorage_eq_setWidth _ positive slim, shiftR_storage x narrow index below,
    BitVec.getLsbD_setWidth, BitVec.getLsbD_ushiftRight]
  by_cases inside : index + i < 32
  · simp only [storage, BitVec.getLsbD_setWidth, inside, decide_true, Bool.true_and]
  · simp only [storage, BitVec.getLsbD_setWidth, inside, decide_false, Bool.false_and,
      BitVec.getLsbD_of_ge x (index + i) (by omega)]

/-- A slice assignment writes the bits of the slice at its index and keeps every
other bit, whatever sign the slice is extended with. -/
theorem getLsbD_setSlc (x : BitVec width) (lsb : ℕ) (slice : BitVec sliceWidth)
    (narrow : width < 32) (fits : lsb + sliceWidth ≤ width) (i : ℕ) (below : i < width) :
    (setSlc x lsb slice).getLsbD i =
      if lsb ≤ i ∧ i < lsb + sliceWidth then slice.getLsbD (i - lsb) else x.getLsbD i := by
  have proper : sliceWidth ≠ 32 := by omega
  have positive : 0 < width := by omega
  have word : i < 32 := by omega
  simp only [setSlc, ofStorage_eq_setWidth _ positive narrow, proper, ↓reduceIte,
    BitVec.getLsbD_setWidth, BitVec.getLsbD_xor, BitVec.getLsbD_and, BitVec.getLsbD_shiftLeft,
    BitVec.getLsbD_not, BitVec.getLsbD_allOnes, BitVec.getLsbD_signExtend, storage, below, word,
    decide_true, Bool.true_and]
  by_cases start : lsb ≤ i
  · have low : ¬ i < lsb := by omega
    have offset : i - lsb < 32 := by omega
    by_cases stop : i < lsb + sliceWidth
    · have inner : i - lsb < sliceWidth := by omega
      simp [start, stop, low, offset, inner]
    · have outer : ¬ i - lsb < sliceWidth := by omega
      have rest : i - lsb - sliceWidth < 32 := by omega
      simp [stop, low, offset, outer, rest]
  · have low : i < lsb := by omega
    simp [start, low]

end AcInt

end DownSample
