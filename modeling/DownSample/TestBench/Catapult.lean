import DownSample.TestBench.Feed

/-! # The Catapult testbench

The testbench feeds the red bytes of a bitmap, which is stored bottom-up in triples of
blue, green and red. The index of a byte is computed in wrapping 32-bit arithmetic; in a
bitmap of fewer than `2 ^ 32` bytes it does not wrap, and in one of at least 480 rows and
752 columns it stays inside the array (`DownSample.CcsBmpFile.redIndex_toNat`,
`DownSample.CcsBmpFile.redIndex_lt`). A byte comes back as a `char`, which a compiler may
take as signed; cutting it to 8 bits gives the byte again either way.
-/

namespace DownSample

open Imperative

/-- A loaded bitmap: the dimensions in its header and the bytes of its pixels. -/
structure CcsBmpFile where
  height : BitVec 32
  width : BitVec 32
  array : List (BitVec 8)
  loaded : array.length = 3 * (height.toNat * width.toNat)

namespace CcsBmpFile

variable (src : CcsBmpFile)

/-- `rows()`. -/
def rows : BitVec 32 := src.height

/-- `columns()`. -/
def columns : BitVec 32 := src.width

/-- The index that `red` looks up. -/
def redIndex (row column : BitVec 32) : BitVec 32 :=
  3 * ((src.rows - row - 1) * src.columns + column) + 2

/-- `red(row, column)`. -/
def red (row column : BitVec 32) : Except Fault (BitVec 8) :=
  match src.array[(src.redIndex row column).toNat]? with
  | some byte => .ok byte
  | none => .error (.bmpOutOfRange (src.redIndex row column).toNat)

/-- The red byte of the pixel at a row and a column from the top left. -/
def redByte (row column : ℕ) : BitVec 8 :=
  src.array.getD (3 * ((src.height.toNat - 1 - row) * src.width.toNat + column) + 2) 0

section Index

variable {src}

theorem redIndex_lt {row column : ℕ} (inRows : row < src.height.toNat)
    (inColumns : column < src.width.toNat) :
    3 * ((src.height.toNat - 1 - row) * src.width.toNat + column) + 2 <
      3 * (src.height.toNat * src.width.toNat) := by
  have lastRow : (src.height.toNat - 1 - row + 1) * src.width.toNat ≤
      src.height.toNat * src.width.toNat := Nat.mul_le_mul_right _ (by omega)
  rw [Nat.add_mul, Nat.one_mul] at lastRow
  omega

/-- The wrapping arithmetic computes the index. -/
theorem redIndex_toNat (small : 3 * (src.height.toNat * src.width.toNat) < 2 ^ 32)
    {row column : BitVec 32} (inRows : row.toNat < src.height.toNat)
    (inColumns : column.toNat < src.width.toNat) :
    (src.redIndex row column).toNat =
      3 * ((src.height.toNat - 1 - row.toNat) * src.width.toNat + column.toNat) + 2 := by
  have inside := redIndex_lt inRows inColumns
  have one : (1 : BitVec 32).toNat = 1 := rfl
  have two : (2 : BitVec 32).toNat = 2 := rfl
  have three : (3 : BitVec 32).toNat = 3 := rfl
  have below : (src.height - row).toNat = src.height.toNat - row.toNat :=
    BitVec.toNat_sub_of_le (BitVec.le_def.mpr (by omega))
  have rowsAbove : (src.height - row - 1).toNat = src.height.toNat - 1 - row.toNat := by
    rw [BitVec.toNat_sub_of_le (BitVec.le_def.mpr (by omega)), below]
    omega
  rw [redIndex, rows, columns, BitVec.toNat_add, BitVec.toNat_mul, BitVec.toNat_add,
    BitVec.toNat_mul, rowsAbove, two, three]
  omega

end Index

end CcsBmpFile

/-- `src_R = src->red(ln, px)`. The byte is converted to `int` as a `char`, signed or not, and
adjusted to 8 bits. -/
def fetchRed (charSigned : Bool) (src : CcsBmpFile) (ln : BitVec 9) (px : BitVec 10) :
    Except Fault Uint8 :=
  match src.red (AcInt.storage ln) (AcInt.storage px) with
  | .ok byte =>
      .ok (AcInt.ofStorage 8 (if charSigned then byte.signExtend 32 else byte.setWidth 32))
  | .error fault => .error fault

/-- `CCS_MAIN` up to the end of the `go` loop, with the channel `dout` it leaves. -/
def ccsMain (charSigned : Bool) (src : CcsBmpFile) (s : Statics) : Except Fault (AcChannel Uint8) :=
  andThen (feedLoop (fetchRed charSigned src) ⟨[]⟩) fun din =>
    andThen (drivingLoop ⟨s, din, ⟨[]⟩⟩) fun c => .ok c.downImage

theorem ofStorage_char (charSigned : Bool) (byte : BitVec 8) :
    AcInt.ofStorage 8 (if charSigned then byte.signExtend 32 else byte.setWidth 32) = byte := by
  rw [AcInt.ofStorage_eq_setWidth _ (by decide) (by decide)]
  cases charSigned with
  | false => rw [if_neg Bool.false_ne_true, BitVec.setWidth_setWidth_of_le _ (by decide),
      BitVec.setWidth_eq]
  | true =>
      apply BitVec.eq_of_getLsbD_eq
      intro i below
      have word : i < 32 := by omega
      rw [if_pos rfl, BitVec.getLsbD_setWidth, BitVec.getLsbD_signExtend]
      simp only [below, word, decide_true, Bool.true_and, ↓reduceIte]

section Main

variable (charSigned : Bool) {src : CcsBmpFile}

theorem fetchRed_inside (tall : 480 ≤ src.height.toNat) (wide : 752 ≤ src.width.toNat)
    (small : 3 * (src.height.toNat * src.width.toNat) < 2 ^ 32) {ln px : ℕ} (line : ln < 480)
    (column : px < 752) :
    fetchRed charSigned src (BitVec.ofNat 9 ln) (BitVec.ofNat 10 px) = .ok (src.redByte ln px) := by
  have lnIs : (AcInt.storage (BitVec.ofNat 9 ln)).toNat = ln := by
    rw [AcInt.storage_toNat _ (by decide), AcInt.toNat_counter (by omega)]
  have pxIs : (AcInt.storage (BitVec.ofNat 10 px)).toNat = px := by
    rw [AcInt.storage_toNat _ (by decide), AcInt.toNat_counter (by omega)]
  have inRows : ln < src.height.toNat := by omega
  have inColumns : px < src.width.toNat := by omega
  have inside := CcsBmpFile.redIndex_lt inRows inColumns
  rw [← src.loaded] at inside
  rw [← lnIs] at inRows
  rw [← pxIs] at inColumns
  have index := CcsBmpFile.redIndex_toNat small inRows inColumns
  have byte : src.array[3 * ((src.height.toNat - 1 - ln) * src.width.toNat + px) + 2]? =
      some (src.redByte ln px) := by
    rw [CcsBmpFile.redByte, List.getD_eq_getElem?_getD, List.getElem?_eq_getElem inside,
      Option.getD_some]
  unfold fetchRed CcsBmpFile.red
  rw [index, lnIs, pxIs, byte]
  dsimp only
  rw [ofStorage_char]

end Main

/-- **The Catapult testbench.** For a bitmap of at least 480 rows and 752 columns and fewer
than `2 ^ 32` bytes, from any statics, every access of the feed loop lies inside the array, and
the program leaves the 240 by 376 truncated means of the top left 480 by 752 red bytes
in the output channel. -/
theorem ccsMain_reduces (charSigned : Bool) (src : CcsBmpFile) (s : Statics)
    (tall : 480 ≤ src.height.toNat) (wide : 752 ≤ src.width.toNat)
    (small : 3 * (src.height.toNat * src.width.toNat) < 2 ^ 32) :
    (∀ ln : BitVec 9, ln.toNat < 480 → ∀ px : BitVec 10, px.toNat < 752 →
      (src.redIndex (AcInt.storage ln) (AcInt.storage px)).toNat <
        3 * (src.height.toNat * src.width.toNat)) ∧
    ∃ dout, ccsMain charSigned src s = .ok dout ∧ dout.ch.length = 240 * 376 ∧
      ∀ i < 240, ∀ j < 376, ∃ value, dout.ch[i * 376 + j]? = some value ∧
        value.toNat = blockMean (fun row column => (src.redByte row column).toNat) i j := by
  constructor
  · intro ln line px column
    have inRows : (AcInt.storage ln).toNat < src.height.toNat := by
      rw [AcInt.storage_toNat ln (by decide)]
      omega
    have inColumns : (AcInt.storage px).toNat < src.width.toNat := by
      rw [AcInt.storage_toNat px (by decide)]
      omega
    rw [CcsBmpFile.redIndex_toNat small inRows inColumns]
    exact CcsBmpFile.redIndex_lt inRows inColumns
  · obtain ⟨din, c, feeds, drives, written⟩ := feedAndDrive
      (fun _ line _ column => fetchRed_inside charSigned tall wide small line column) s
    refine ⟨c.downImage, ?_, ?_, ?_⟩
    · rw [ccsMain, feeds, andThen_ok, drives, andThen_ok]
    · rw [written, length_reduced]
    · intro i row j column
      rw [written]
      exact reduced_ofPicture src.redByte row column

/-- A bitmap of the size of a frame, all of whose bytes are 200. -/
def CcsBmpFile.bright : CcsBmpFile where
  height := 480
  width := 752
  array := List.replicate (3 * (480 * 752)) 200
  loaded := List.length_replicate

/-- The bright bitmap, with bytes that are negative as signed `char`s. -/
theorem ccsMain_reduces_bright :
    ∃ dout, ccsMain true CcsBmpFile.bright Statics.zero = .ok dout ∧
      dout.ch.length = 240 * 376 ∧ ∃ value, dout.ch[0]? = some value ∧
        value.toNat =
          blockMean (fun row column => (CcsBmpFile.bright.redByte row column).toNat) 0 0 := by
  obtain ⟨-, dout, returns, length, means⟩ :=
    ccsMain_reduces true CcsBmpFile.bright Statics.zero (by decide) (by decide) (by decide)
  exact ⟨dout, returns, length, means 0 (by decide) 0 (by decide)⟩

end DownSample
