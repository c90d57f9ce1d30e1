import DownSample.AcInt
import Mathlib.Data.List.Basic

/-! # Pictures and their means

What the downsampler is for, on the unbounded integers: a picture gives a brightness to
every position, and its reduction has at each position the truncated mean of a 2 by 2
block. Pixels arrive as a stream in raster order; `DownSample.outputsAfter` is the
number of blocks whose last pixel is among the first `n` of a frame, and one more pixel
completes at most one block (`DownSample.outputsAfter_succ`).
-/

namespace DownSample

/-- The truncated mean of a 2 by 2 block of a picture. -/
def blockMean (picture : ℕ → ℕ → ℕ) (i j : ℕ) : ℕ :=
  (picture (2 * i) (2 * j) + picture (2 * i) (2 * j + 1) + picture (2 * i + 1) (2 * j) +
    picture (2 * i + 1) (2 * j + 1)) / 4

/-- The picture whose rows of 752 pixels follow one another in a stream. -/
def raster (stream : ℕ → Uint8) (row column : ℕ) : ℕ := (stream (row * 752 + column)).toNat

/-- Block number `k` of a frame in raster order, as the mean of its pixels. -/
def reducedPixel (stream : ℕ → Uint8) (k : ℕ) : Uint8 :=
  BitVec.ofNat 8 (blockMean (raster stream) (k / 376) (k % 376))

/-- The first `count` blocks of a frame in raster order. -/
def reduced (stream : ℕ → Uint8) (count : ℕ) : List Uint8 :=
  (List.range count).map (reducedPixel stream)

/-- The number of blocks completed by the first `n` pixels of a frame. -/
def outputsAfter (n : ℕ) : ℕ :=
  376 * (n / 752 / 2) + if n / 752 % 2 = 1 then n % 752 / 2 else 0

theorem blockMean_raster_lt (stream : ℕ → Uint8) (i j : ℕ) :
    blockMean (raster stream) i j < 256 := by
  unfold blockMean raster
  have first := (stream (2 * i * 752 + 2 * j)).isLt
  have second := (stream (2 * i * 752 + (2 * j + 1))).isLt
  have third := (stream ((2 * i + 1) * 752 + 2 * j)).isLt
  have fourth := (stream ((2 * i + 1) * 752 + (2 * j + 1))).isLt
  omega

/-- The means of a frame depend on its pixels only. -/
theorem blockMean_congr {picture other : ℕ → ℕ → ℕ}
    (agree : ∀ row < 480, ∀ column < 752, picture row column = other row column) {i j : ℕ}
    (row : i < 240) (column : j < 376) : blockMean picture i j = blockMean other i j := by
  unfold blockMean
  rw [agree (2 * i) (by omega) (2 * j) (by omega),
    agree (2 * i) (by omega) (2 * j + 1) (by omega),
    agree (2 * i + 1) (by omega) (2 * j) (by omega),
    agree (2 * i + 1) (by omega) (2 * j + 1) (by omega)]

/-- An output is the mean of its block. -/
theorem reducedPixel_toNat (stream : ℕ → Uint8) (k : ℕ) :
    (reducedPixel stream k).toNat = blockMean (raster stream) (k / 376) (k % 376) := by
  rw [reducedPixel, BitVec.toNat_ofNat, Nat.mod_eq_of_lt (blockMean_raster_lt stream _ _)]

@[simp] theorem length_reduced (stream : ℕ → Uint8) (count : ℕ) :
    (reduced stream count).length = count := by
  rw [reduced, List.length_map, List.length_range]

theorem reduced_succ (stream : ℕ → Uint8) (count : ℕ) :
    reduced stream (count + 1) = reduced stream count ++ [reducedPixel stream count] := by
  rw [reduced, List.range_succ, List.map_append]
  rfl

theorem outputsAfter_frame : outputsAfter (480 * 752) = 240 * 376 := by decide

/-- Pixel `n` completes block number `outputsAfter n` if its line and its column are
odd, and no block otherwise. -/
theorem outputsAfter_succ (n : ℕ) :
    outputsAfter (n + 1) =
      outputsAfter n + if n / 752 % 2 = 1 ∧ n % 752 % 2 = 1 then 1 else 0 := by
  unfold outputsAfter
  by_cases wraps : n % 752 = 751
  · have row : (n + 1) / 752 = n / 752 + 1 := by omega
    have column : (n + 1) % 752 = 0 := by omega
    rw [row, column, wraps]
    rcases Nat.mod_two_eq_zero_or_one (n / 752) with even | odd
    · rw [if_pos (by omega), if_neg (by omega), if_neg (by omega)]
      omega
    · rw [if_neg (by omega), if_pos odd, if_pos ⟨odd, rfl⟩]
      omega
  · have row : (n + 1) / 752 = n / 752 := by omega
    have column : (n + 1) % 752 = n % 752 + 1 := by omega
    rw [row, column]
    rcases Nat.mod_two_eq_zero_or_one (n / 752) with even | odd
    · rw [if_neg (by omega), if_neg (by omega), if_neg (by omega)]
    · rw [if_pos odd, if_pos odd]
      by_cases last : n % 752 % 2 = 1
      · rw [if_pos ⟨odd, last⟩]
        omega
      · rw [if_neg (by omega)]
        omega

/-- On the odd columns of odd lines, block number `outputsAfter n` is the block whose
last pixel is pixel `n`. -/
theorem outputsAfter_block (n : ℕ) (line : n / 752 % 2 = 1) (column : n % 752 % 2 = 1) :
    outputsAfter n / 376 = n / 752 / 2 ∧ outputsAfter n % 376 = n % 752 / 2 := by
  unfold outputsAfter
  rw [if_pos line]
  omega

/-- The positions in the stream of the block that pixel `t` completes. -/
theorem block_positions {t : ℕ} (line : t / 752 % 2 = 1) (column : t % 752 % 2 = 1) :
    2 * (t / 752 / 2) * 752 + 2 * (t % 752 / 2) = t - 752 - 1 ∧
      2 * (t / 752 / 2) * 752 + (2 * (t % 752 / 2) + 1) = t - 752 ∧
      (2 * (t / 752 / 2) + 1) * 752 + 2 * (t % 752 / 2) = t - 1 ∧
      (2 * (t / 752 / 2) + 1) * 752 + (2 * (t % 752 / 2) + 1) = t := by
  omega

/-- The block that pixel `t` completes, if any. -/
def completed (stream : ℕ → Uint8) (t : ℕ) : List Uint8 :=
  if t / 752 % 2 = 1 ∧ t % 752 % 2 = 1 then [reducedPixel stream (outputsAfter t)] else []

/-- An iteration adds the output that it completes. -/
theorem reduced_outputsAfter_succ (stream : ℕ → Uint8) (t : ℕ) :
    reduced stream (outputsAfter (t + 1)) =
      reduced stream (outputsAfter t) ++ completed stream t := by
  rw [outputsAfter_succ, completed]
  by_cases last : t / 752 % 2 = 1 ∧ t % 752 % 2 = 1
  · rw [if_pos last, if_pos last, reduced_succ]
  · rw [if_neg last, if_neg last, Nat.add_zero, List.append_nil]

/-- **Causality.** The blocks completed by the first `n` pixels depend on no other
pixel. -/
theorem reduced_congr {stream other : ℕ → Uint8} (n : ℕ) (agree : ∀ t < n, stream t = other t) :
    reduced stream (outputsAfter n) = reduced other (outputsAfter n) := by
  induction n with
  | zero => rfl
  | succ t ih =>
      rw [reduced_outputsAfter_succ, reduced_outputsAfter_succ,
        ih fun u below => agree u (by omega)]
      congr 1
      unfold completed
      split
      · rename_i last
        obtain ⟨block, place⟩ := outputsAfter_block t last.1 last.2
        obtain ⟨first, second, third, fourth⟩ := block_positions last.1 last.2
        simp only [reducedPixel, blockMean, raster, block, place, first, second, third, fourth]
        rw [agree (t - 752 - 1) (by omega), agree (t - 752) (by omega), agree (t - 1) (by omega),
          agree t (by omega)]
      · rfl

/-! ## Frames -/

/-- A frame of 480 lines of 752 pixels, in raster order. -/
structure Frame where
  pixels : List Uint8
  complete : pixels.length = 480 * 752

/-- The pixels of a frame as a stream. -/
def Frame.stream (frame : Frame) (t : ℕ) : Uint8 := frame.pixels.getD t 0

/-- The brightness of a frame at a line and a column. -/
def Frame.brightness (frame : Frame) : ℕ → ℕ → ℕ := raster frame.stream

/-- The first `count` pixels of a picture, in raster order. -/
def firstPixels (picture : ℕ → ℕ → Uint8) (count : ℕ) : List Uint8 :=
  (List.range count).map fun t => picture (t / 752) (t % 752)

theorem firstPixels_succ (picture : ℕ → ℕ → Uint8) (count : ℕ) :
    firstPixels picture (count + 1) =
      firstPixels picture count ++ [picture (count / 752) (count % 752)] := by
  rw [firstPixels, List.range_succ, List.map_append]
  rfl

/-- The frame of a picture. -/
def Frame.ofPicture (picture : ℕ → ℕ → Uint8) : Frame where
  pixels := firstPixels picture (480 * 752)
  complete := by rw [firstPixels, List.length_map, List.length_range]

theorem Frame.pixels_ofPicture (picture : ℕ → ℕ → Uint8) :
    (Frame.ofPicture picture).pixels = firstPixels picture (480 * 752) := by
  unfold ofPicture
  dsimp only

theorem Frame.stream_ofPicture (picture : ℕ → ℕ → Uint8) {t : ℕ} (inside : t < 480 * 752) :
    (Frame.ofPicture picture).stream t = picture (t / 752) (t % 752) := by
  have entry : (firstPixels picture (480 * 752))[t]? = some (picture (t / 752) (t % 752)) := by
    rw [firstPixels, List.getElem?_map, List.getElem?_range inside, Option.map_some]
  rw [stream, pixels_ofPicture, List.getD_eq_getElem?_getD, entry, Option.getD_some]

theorem Frame.brightness_ofPicture (picture : ℕ → ℕ → Uint8) {row column : ℕ} (line : row < 480)
    (place : column < 752) :
    (Frame.ofPicture picture).brightness row column = (picture row column).toNat := by
  have rowIs : (row * 752 + column) / 752 = row := by omega
  have columnIs : (row * 752 + column) % 752 = column := by omega
  unfold brightness raster
  rw [stream_ofPicture picture (by omega), rowIs, columnIs]

/-- The means of a picture's frame are the means of the picture. -/
theorem Frame.blockMean_ofPicture (picture : ℕ → ℕ → Uint8) {i j : ℕ} (row : i < 240)
    (column : j < 376) :
    blockMean (Frame.ofPicture picture).brightness i j =
      blockMean (fun row column => (picture row column).toNat) i j :=
  blockMean_congr (fun _ line _ place => brightness_ofPicture picture line place) row column

/-- The 240 by 376 truncated block means of a frame, in raster order. -/
def Frame.means (frame : Frame) : List ℕ :=
  (List.range (240 * 376)).map fun k => blockMean frame.brightness (k / 376) (k % 376)

/-- The reduction of a frame is its block means. -/
theorem Frame.reduced_toNat (frame : Frame) :
    (reduced frame.stream (240 * 376)).map BitVec.toNat = frame.means := by
  rw [reduced, List.map_map]
  exact List.map_congr_left fun k _ => reducedPixel_toNat frame.stream k

end DownSample
