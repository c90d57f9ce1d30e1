import DownSample.TestBench.Feed
import DownSample.TestBench.ReadBack

/-! # The OpenCV testbench

`main` feeds a gray picture, runs an instance until the input is empty and reads the
output back into a picture. The read-back starts in the row that the uninitialised
counter happens to hold, so the picture that comes out is the reduction rotated down by
as many rows (`DownSample.opencvMain_of_nonneg`), or the program faults
(`DownSample.opencvMain_of_neg`). It is the reduction for every picture only if the counter
holds no row of the picture other than the first.
-/

namespace DownSample

open Imperative

/-- `while (din.available(1)) inst.run(din, dout)`. -/
def runLoop : Call → EStateM.Result Fault Call ℕ :=
  whileLoop (fun c => c.image.available 1) TopDownSample.run (fun c => c.image.ch.length)
    go_decreases

/-- `uint8 temp = int(rgb2grayImg.at<uchar>(ln, px))`. -/
def fetchGray (rgb2grayImg : Mat 480 752) (ln : BitVec 9) (px : BitVec 10) : Except Fault Uint8 :=
  let row := (AcInt.storage ln).toInt
  let column := (AcInt.storage px).toInt
  match rgb2grayImg.atUchar row column with
  | some pixel => .ok (AcInt.ofStorage 8 (pixel.setWidth 32))
  | none => .error (.matOutOfRange row column)

/-- `main`, from the gray picture on, up to the picture `DownSample` that it shows. The
statics and the storage word of `ln_out` are what they happen to be. -/
def opencvMain (rgb2grayImg : Mat 480 752) (s : Statics) (lnOut : BitVec 32) :
    Except Fault (Mat 240 376) :=
  andThen (feedLoop (fetchGray rgb2grayImg) ⟨[]⟩) fun din =>
    andThen (runLoop ⟨s, din, ⟨[]⟩⟩) fun c =>
      andThen (readBackLoop ⟨c.downImage, Mat.zeros 240 376, lnOut, 0⟩) fun r =>
        .ok r.downSample

/-- The element of a picture at a line and a column. -/
def Mat.pixel {rows columns : ℕ} (m : Mat rows columns) (row column : ℕ) : Uint8 :=
  (m.atUchar row column).getD 0

section Main

variable (gray : Mat 480 752) (s : Statics) (lnOut : BitVec 32)

theorem fetchGray_inside {ln px : ℕ} (line : ln < 480) (column : px < 752) :
    fetchGray gray (BitVec.ofNat 9 ln) (BitVec.ofNat 10 px) = .ok (gray.pixel ln px) := by
  have row : (AcInt.storage (BitVec.ofNat 9 ln)).toInt = (ln : ℤ) :=
    AcInt.storage_counter_toInt (by decide) (by omega)
  have place : (AcInt.storage (BitVec.ofNat 10 px)).toInt = (px : ℤ) :=
    AcInt.storage_counter_toInt (by decide) (by omega)
  unfold fetchGray Mat.pixel
  simp only [row, place, gray.atUchar_inside line column, Option.getD_some]
  rw [AcInt.ofStorage_eq_setWidth _ (by decide) (by decide),
    BitVec.setWidth_setWidth_of_le _ (by decide), BitVec.setWidth_eq]

/-- Feeding and running leave the reduction of the picture to be read back. -/
theorem opencvMain_eq_readBack :
    ∃ dout : AcChannel Uint8,
      dout.ch = reduced (Frame.ofPicture gray.pixel).stream (240 * 376) ∧
      opencvMain gray s lnOut =
        andThen (readBackLoop ⟨dout, Mat.zeros 240 376, lnOut, 0⟩) fun r => .ok r.downSample := by
  obtain ⟨din, c, feeds, drives, written⟩ :=
    feedAndDrive (fun ln line px column => fetchGray_inside gray line column) s
  have runs : runLoop ⟨s, din, ⟨[]⟩⟩ = .ok 1 c := drives
  refine ⟨c.downImage, written, ?_⟩
  rw [opencvMain, feeds, andThen_ok, runs, andThen_ok]

variable {lnOut}

/-- From a nonnegative word the picture that comes out is the reduction, rotated down by the
row that the counter starts in. -/
theorem opencvMain_of_nonneg (nonnegative : 0 ≤ lnOut.toInt) :
    ∃ mat, opencvMain gray s lnOut = .ok mat ∧ ∀ i < 240, ∀ j < 376,
      mat.brightness i j = blockMean gray.brightness ((i + 240 - startRow lnOut) % 240) j := by
  obtain ⟨⟨values⟩, valuesAre, main⟩ := opencvMain_eq_readBack gray s lnOut
  change values = _ at valuesAre
  have length : values.length = 240 * 376 := by rw [valuesAre, length_reduced]
  obtain ⟨final, loops, placed⟩ :=
    readBackLoop_of_lt (Mat.zeros 240 376) nonnegative (by rw [length]; decide)
  refine ⟨final.downSample, by rw [main, loops, andThen_ok], ?_⟩
  intro i row j column
  have cell := placed.last_picture le_rfl (by rw [length, Nat.one_mul]) row column
  obtain ⟨value, entry, mean⟩ := reduced_ofPicture gray.pixel
    (Nat.mod_lt (i + 240 - startRow lnOut) (show 0 < 240 by decide)) column
  rw [Nat.sub_self, Nat.zero_mul, Nat.zero_add, valuesAre, entry] at cell
  rw [Mat.brightness, cell, Option.getD_some, mean]
  rfl

theorem opencvMain_of_neg (negative : lnOut.toInt < 0) :
    ∃ fault, opencvMain gray s lnOut = .error fault := by
  obtain ⟨⟨values⟩, valuesAre, main⟩ := opencvMain_eq_readBack gray s lnOut
  change values = _ at valuesAre
  have length : values.length = 240 * 376 := by rw [valuesAre, length_reduced]
  have some : values ≠ [] := by
    rintro rfl
    exact absurd length (by decide)
  obtain ⟨fault, final, faults⟩ :=
    readBackLoop_of_neg (Mat.zeros 240 376) negative some (by rw [length]; decide)
  exact ⟨fault, by rw [main, faults, andThen_error]⟩

/-- The program returns the reduction of the picture. -/
def OpencvReduces (gray : Mat 480 752) (s : Statics) (lnOut : BitVec 32) : Prop :=
  ∃ mat, opencvMain gray s lnOut = .ok mat ∧
    ∀ i < 240, ∀ j < 376, mat.brightness i j = blockMean gray.brightness i j

/-- **The OpenCV testbench.** Whatever the picture and the statics, the program returns the
reduction exactly when the uninitialised word of `ln_out` is zero or at least 240 as an
`int`, or when it is a row of the picture and rotating the reduction down by it changes
nothing. -/
theorem opencvReduces_iff (gray : Mat 480 752) (s : Statics) (lnOut : BitVec 32) :
    OpencvReduces gray s lnOut ↔
      0 ≤ lnOut.toInt ∧ (lnOut.toInt = 0 ∨ 240 ≤ lnOut.toInt ∨
        ∀ i < 240, ∀ j < 376, blockMean gray.brightness ((i + 240 - lnOut.toInt.toNat) % 240) j =
          blockMean gray.brightness i j) := by
  constructor
  · rintro ⟨mat, returns, reduces⟩
    rcases lt_or_ge lnOut.toInt 0 with negative | nonnegative
    · obtain ⟨fault, faults⟩ := opencvMain_of_neg gray s negative
      rw [faults] at returns
      cases returns
    · refine ⟨nonnegative, ?_⟩
      by_cases row : lnOut.toInt < 240
      · refine Or.inr (Or.inr fun i inside j column => ?_)
        obtain ⟨other, same, rotated⟩ := opencvMain_of_nonneg gray s nonnegative
        rw [returns] at same
        cases same
        rw [← reduces i inside j column, rotated i inside j column, startRow, if_pos row]
      · exact Or.inr (Or.inl (by omega))
  · rintro ⟨nonnegative, row⟩
    obtain ⟨mat, returns, rotated⟩ := opencvMain_of_nonneg gray s nonnegative
    refine ⟨mat, returns, fun i inside j column => ?_⟩
    rw [rotated i inside j column]
    have upright : startRow lnOut = 0 →
        blockMean gray.brightness ((i + 240 - startRow lnOut) % 240) j =
          blockMean gray.brightness i j := by
      intro first
      rw [first, Nat.sub_zero, Nat.add_mod_right, Nat.mod_eq_of_lt inside]
    rcases row with zero | beyond | invariant
    · exact upright (by rw [startRow, if_pos (by omega), zero]; rfl)
    · exact upright (by rw [startRow, if_neg (by omega)])
    · by_cases below : lnOut.toInt < 240
      · rw [startRow, if_pos below]
        exact invariant i inside j column
      · exact upright (by rw [startRow, if_neg below])

end Main

/-- A picture whose first two lines are white. -/
def whiteTop : Mat 480 752 :=
  ⟨Vector.ofFn fun row => Vector.replicate 752 (if row.val < 2 then 255 else 0)⟩

theorem brightness_whiteTop {row column : ℕ} (line : row < 480) (place : column < 752) :
    whiteTop.brightness row column = if row < 2 then 255 else 0 := by
  rw [Mat.brightness, whiteTop, Mat.atUchar_inside _ line place, Option.getD_some,
    Vector.getElem_ofFn, Vector.getElem_replicate]
  split <;> rfl

theorem blockMean_whiteTop {i j : ℕ} (row : i < 240) (column : j < 376) :
    blockMean whiteTop.brightness i j = if i = 0 then 255 else 0 := by
  unfold blockMean
  rw [brightness_whiteTop (by omega) (by omega), brightness_whiteTop (by omega) (by omega),
    brightness_whiteTop (by omega) (by omega), brightness_whiteTop (by omega) (by omega)]
  by_cases top : i = 0
  · rw [if_pos top, if_pos (by omega), if_pos (by omega)]
  · rw [if_neg top, if_neg (by omega), if_neg (by omega)]

/-- A counter that happens to hold 1 moves the white row out of place. -/
theorem not_opencvReduces_whiteTop : ¬ OpencvReduces whiteTop Statics.zero 1 := by
  rintro ⟨mat, returns, reduces⟩
  have nonnegative : 0 ≤ (1 : BitVec 32).toInt := by decide
  obtain ⟨other, same, rotated⟩ := opencvMain_of_nonneg whiteTop Statics.zero nonnegative
  rw [returns] at same
  cases same
  have first : (0 + 240 - startRow 1) % 240 = 239 := by decide
  have white := reduces 0 (by decide) 0 (by decide)
  rw [rotated 0 (by decide) 0 (by decide), first, blockMean_whiteTop (by decide) (by decide),
    blockMean_whiteTop (by decide) (by decide)] at white
  exact absurd white (by decide)

end DownSample
