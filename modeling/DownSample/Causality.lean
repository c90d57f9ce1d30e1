import DownSample.Driver

/-! # Causality of a call

Outputs are written as early as their pixels allow. After `n` iterations a call has
written exactly the blocks whose last pixel is among the first `n`, each in the iteration
that reads that pixel, so what has been written depends on those pixels only.
-/

namespace DownSample

open Imperative

/-- Iterations that return found their pixels in the channel. -/
theorem size_of_iterationsOf {c final : Call} {n : ℕ} (frame : n ≤ 480 * 752)
    (runs : iterationsOf n c = .ok () final) : n ≤ c.image.size := by
  by_contra short
  obtain ⟨other, faults, -⟩ := iterationsOf_spent c n frame (by omega)
  rw [faults] at runs
  cases runs

/-- Iterations that return took their pixels and wrote their blocks. -/
theorem ran_of_iterationsOf {c final : Call} {n : ℕ} (frame : n ≤ 480 * 752)
    (runs : iterationsOf n c = .ok () final) : Ran n c final := by
  obtain ⟨other, same, ran⟩ := iterationsOf_run c n frame (size_of_iterationsOf frame runs)
  rw [same] at runs
  cases runs
  exact ran

/-- Channels that agree on a prefix stream the same pixels there. -/
theorem AcChannel.stream_congr {c other : AcChannel Uint8} {n : ℕ}
    (agree : c.ch.take n = other.ch.take n) (t : ℕ) (below : t < n) :
    c.stream t = other.stream t := by
  have entries : (c.ch.take n)[t]? = (other.ch.take n)[t]? := by rw [agree]
  rw [List.getElem?_take_of_lt below, List.getElem?_take_of_lt below] at entries
  rw [stream, stream, List.getD_eq_getElem?_getD, List.getD_eq_getElem?_getD, entries]

/-- The first values written are the first block means. -/
theorem Frame.reduced_toNat_take (frame : Frame) {count : ℕ} (within : count ≤ 240 * 376) :
    (reduced frame.stream count).map BitVec.toNat = frame.means.take count := by
  rw [← frame.reduced_toNat, ← List.map_take, reduced, reduced, ← List.map_take, List.take_range,
    Nat.min_eq_left within]

/-- A call never has more outputs than a frame has blocks. -/
theorem outputsAfter_le {n : ℕ} (within : n ≤ 480 * 752) : outputsAfter n ≤ 240 * 376 := by
  unfold outputsAfter
  split <;> omega

/-- Before the last pixel of block `(i, j)` its index many blocks are out. -/
theorem outputsAfter_last {i j : ℕ} (column : j < 376) :
    outputsAfter ((2 * i + 1) * 752 + (2 * j + 1)) = i * 376 + j := by
  have row : ((2 * i + 1) * 752 + (2 * j + 1)) / 752 = 2 * i + 1 := by omega
  have place : ((2 * i + 1) * 752 + (2 * j + 1)) % 752 = 2 * j + 1 := by omega
  rw [outputsAfter, row, place, if_pos (by omega)]
  omega

/-- The iteration that reads the last pixel of block `(i, j)` writes its mean. -/
theorem iteration_completes {frame : Frame} {c : Call} {i j : ℕ} (row : i < 240)
    (column : j < 376)
    (taken : c.image.read = some (frame.stream ((2 * i + 1) * 752 + (2 * j + 1)),
      ⟨frame.pixels.drop ((2 * i + 1) * 752 + (2 * j + 1) + 1)⟩))
    (primed : Primed frame.stream ((2 * i + 1) * 752 + (2 * j + 1)) c.statics) :
    ∃ next mean, iterationAt ((2 * i + 1) * 752 + (2 * j + 1)) c = .ok () next ∧
      next.image.ch = frame.pixels.drop ((2 * i + 1) * 752 + (2 * j + 1) + 1) ∧
      next.downImage.ch = c.downImage.ch ++ [mean] ∧
      mean.toNat = blockMean frame.brightness i j := by
  obtain ⟨next, returns, steps⟩ := iteration_step (by omega) taken primed
  refine ⟨next, reducedPixel frame.stream (i * 376 + j), returns, ?_, ?_, ?_⟩
  · rw [steps.image]
  · rw [steps.downImage, completed, if_pos (by omega), outputsAfter_last column]
  · have block : (i * 376 + j) / 376 = i := by omega
    have place : (i * 376 + j) % 376 = j := by omega
    rw [reducedPixel_toNat, block, place]
    rfl

/-- **Streaming law.** From any statics, after `n` iterations on a frame a call has read
`n` pixels and written the first `376 * (r / 2) + (if r is odd then c / 2 else 0)` block means,
where `r` and `c` are the line and the column of pixel `n`; the mean of block `(i, j)` is
written in the iteration that reads pixel `(2 i + 1, 2 j + 1)`. Two calls whose inputs
agree on their first `n` pixels have written the same after `n` iterations, whatever
follows in the inputs and whatever the statics were. -/
theorem downSample_streams :
    (∀ (s : Statics) (frame : Frame) (out : AcChannel Uint8),
      downSample ⟨s, ⟨frame.pixels⟩, out⟩ = iterationsOf (480 * 752) ⟨s, ⟨frame.pixels⟩, out⟩ ∧
      fp1Detect = iterationsOf (480 * 752) ∧
      ∀ n ≤ 480 * 752, ∃ final written,
        iterationsOf n ⟨s, ⟨frame.pixels⟩, out⟩ = .ok () final ∧
        final.image.ch = frame.pixels.drop n ∧ final.downImage.ch = out.ch ++ written ∧
        written.length = 376 * (n / 752 / 2) + (if n / 752 % 2 = 1 then n % 752 / 2 else 0) ∧
        written.map BitVec.toNat = frame.means.take written.length ∧
        ∀ i < 240, ∀ j < 376, n = (2 * i + 1) * 752 + (2 * j + 1) →
          ∃ next mean, iterationAt n final = .ok () next ∧ written.length = i * 376 + j ∧
            next.image.ch = frame.pixels.drop (n + 1) ∧
            next.downImage.ch = final.downImage.ch ++ [mean] ∧
            mean.toNat = blockMean frame.brightness i j) ∧
    ∀ (c c' final final' : Call), ∀ n ≤ 480 * 752, c.image.ch.take n = c'.image.ch.take n →
      iterationsOf n c = .ok () final → iterationsOf n c' = .ok () final' →
        ∃ written, final.downImage.ch = c.downImage.ch ++ written ∧
          final'.downImage.ch = c'.downImage.ch ++ written := by
  constructor
  · intro s frame out
    have size : (⟨frame.pixels⟩ : AcChannel Uint8).size = 480 * 752 := by
      rw [AcChannel.size_of_lt _ (by rw [frame.complete]; decide), frame.complete]
    refine ⟨downSample_of_available (by rw [size]; decide), frameLoop_eq_iterationsOf, ?_⟩
    intro n within
    obtain ⟨final, returns, ran⟩ :=
      iterationsOf_run ⟨s, ⟨frame.pixels⟩, out⟩ n within (by rw [size]; exact within)
    refine ⟨final, reduced frame.stream (outputsAfter n), returns, ?_, ran.downImage, ?_, ?_, ?_⟩
    · rw [ran.image, AcChannel.ch_drop]
    · rw [length_reduced, outputsAfter]
    · rw [length_reduced, frame.reduced_toNat_take (outputsAfter_le within)]
    · rintro i row j column rfl
      have taken := AcChannel.read_stream ⟨frame.pixels⟩
        (t := (2 * i + 1) * 752 + (2 * j + 1)) (by rw [size]; omega)
      rw [← ran.image] at taken
      obtain ⟨next, mean, iterates, consumed, appended, meanIs⟩ :=
        iteration_completes row column taken ran.primed
      refine ⟨next, mean, iterates, ?_, consumed, appended, meanIs⟩
      rw [length_reduced, outputsAfter_last column]
  · intro c c' final final' n within agree runs runs'
    have ran := ran_of_iterationsOf within runs
    have ran' := ran_of_iterationsOf within runs'
    refine ⟨reduced c.image.stream (outputsAfter n), ran.downImage, ?_⟩
    rw [ran'.downImage, reduced_congr n (AcChannel.stream_congr agree)]

/-- Two calls on a black frame have written the same block after the first two pixels of
line 1, whatever the shift register held before. -/
theorem downSample_streams_black :
    ∃ final final' written,
      iterationsOf 754 ⟨Statics.zero, ⟨Frame.black.pixels⟩, ⟨[]⟩⟩ = .ok () final ∧
      iterationsOf 754 ⟨{ Statics.zero with rawShregData := ⟨#v[1, 2], #v[3, 4]⟩ },
        ⟨Frame.black.pixels⟩, ⟨[5]⟩⟩ = .ok () final' ∧
      final.downImage.ch = written ∧ final'.downImage.ch = 5 :: written ∧
      written.length = 1 := by
  obtain ⟨calls, agree⟩ := downSample_streams
  obtain ⟨-, -, steps⟩ := calls Statics.zero Frame.black ⟨[]⟩
  obtain ⟨-, -, steps'⟩ :=
    calls { Statics.zero with rawShregData := ⟨#v[1, 2], #v[3, 4]⟩ } Frame.black ⟨[5]⟩
  obtain ⟨final, first, runs, -, appended, count, -⟩ := steps 754 (by decide)
  obtain ⟨final', first', runs', -⟩ := steps' 754 (by decide)
  obtain ⟨written, wrote, wrote'⟩ := agree _ _ _ _ 754 (by decide) (by rfl) runs runs'
  have same : written = first := List.append_cancel_left (wrote.symm.trans appended)
  rw [← same] at count
  exact ⟨final, final', written, runs, runs', wrote, wrote', count.trans (by decide)⟩

end DownSample
