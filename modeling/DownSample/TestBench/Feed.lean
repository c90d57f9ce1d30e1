import DownSample.Driver

/-! # Feeding a picture and driving the block

Both testbenches write a picture into the input channel with two nested loops and then
drive the block until the channel is empty. They differ in where a pixel comes from,
which is a parameter here. When every pixel can be fetched, the output channel ends up
with the reduction of the picture (`DownSample.feedAndDrive`).
-/

namespace DownSample

open Imperative

/-- Write a fetched pixel into the channel. -/
def feedPixel (fetched : Except Fault Uint8) : EStateM Fault (AcChannel Uint8) Unit := fun din =>
  match fetched with
  | .ok pixel => .ok () (din.write pixel)
  | .error fault => .error fault din

/-- The loops that write the input. -/
def feedLoop (fetch : BitVec 9 → BitVec 10 → Except Fault Uint8) :
    EStateM Fault (AcChannel Uint8) Unit :=
  forLoop 480 lines_fit
    (fun ln => forLoop 752 columns_fit (fun px => feedPixel (fetch ln px)) 0) 0

/-- The loops write the picture in raster order. -/
theorem feedLoop_of_fetched {fetch : BitVec 9 → BitVec 10 → Except Fault Uint8}
    {picture : ℕ → ℕ → Uint8}
    (fetched : ∀ ln < 480, ∀ px < 752,
      fetch (BitVec.ofNat 9 ln) (BitVec.ofNat 10 px) = .ok (picture ln px)) :
    feedLoop fetch ⟨[]⟩ = .ok () ⟨(Frame.ofPicture picture).pixels⟩ := by
  have inRasterOrder : feedLoop fetch = iterations (fun t =>
      feedPixel (fetch (BitVec.ofNat 9 (t / 752)) (BitVec.ofNat 10 (t % 752)))) (480 * 752) := by
    unfold feedLoop
    exact forLoop_nested lines_fit columns_fit (fun ln px => feedPixel (fetch ln px))
  have fed : ∃ din, iterations (fun t =>
      feedPixel (fetch (BitVec.ofNat 9 (t / 752)) (BitVec.ofNat 10 (t % 752)))) (480 * 752) ⟨[]⟩ =
        .ok () din ∧ din = ⟨firstPixels picture (480 * 752)⟩ := by
    refine iterations_invariant
      (fun t (din : AcChannel Uint8) => din = ⟨firstPixels picture t⟩) (480 * 752) ?_ rfl
    rintro t below din rfl
    refine ⟨_, ?_, rfl⟩
    rw [fetched (t / 752) (by omega) (t % 752) (by omega), firstPixels_succ]
    rfl
  obtain ⟨din, feeds, rfl⟩ := fed
  rw [inRasterOrder, Frame.pixels_ofPicture]
  exact feeds

/-- **One picture.** When every pixel can be fetched, the loops feed the picture and the
driving loop makes one call and leaves the reduction of the picture in the output. -/
theorem feedAndDrive {fetch : BitVec 9 → BitVec 10 → Except Fault Uint8}
    {picture : ℕ → ℕ → Uint8}
    (fetched : ∀ ln < 480, ∀ px < 752,
      fetch (BitVec.ofNat 9 ln) (BitVec.ofNat 10 px) = .ok (picture ln px)) (s : Statics) :
    ∃ din c, feedLoop fetch ⟨[]⟩ = .ok () din ∧ drivingLoop ⟨s, din, ⟨[]⟩⟩ = .ok 1 c ∧
      c.downImage.ch = reduced (Frame.ofPicture picture).stream (240 * 376) := by
  obtain ⟨s', drives⟩ := drivingLoop_of_lt [Frame.ofPicture picture] ⟨[]⟩ s
    (show 1 * (480 * 752) < 2 ^ 32 by decide)
  have single : AcChannel.ofFrames [Frame.ofPicture picture] =
      ⟨(Frame.ofPicture picture).pixels⟩ :=
    congrArg AcChannel.mk (List.append_nil _)
  rw [single] at drives
  refine ⟨_, _, feedLoop_of_fetched fetched, drives, ?_⟩
  rw [reductions, List.flatMap_cons, List.flatMap_nil, List.append_nil, List.nil_append]

/-- Value number `i * 376 + j` of the reduction of a picture is the mean of block `(i, j)`. -/
theorem reduced_ofPicture (picture : ℕ → ℕ → Uint8) {i j : ℕ} (row : i < 240) (column : j < 376) :
    ∃ value, (reduced (Frame.ofPicture picture).stream (240 * 376))[i * 376 + j]? = some value ∧
      value.toNat = blockMean (fun row column => (picture row column).toNat) i j := by
  have inside : i * 376 + j < 240 * 376 := by omega
  have block : (i * 376 + j) / 376 = i := by omega
  have place : (i * 376 + j) % 376 = j := by omega
  refine ⟨reducedPixel (Frame.ofPicture picture).stream (i * 376 + j), ?_, ?_⟩
  · rw [reduced, List.getElem?_map, List.getElem?_range inside, Option.map_some]
  · rw [reducedPixel_toNat, block, place]
    exact Frame.blockMean_ofPicture picture row column

end DownSample
