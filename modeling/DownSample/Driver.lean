import DownSample.FrameCall
import Mathlib.Data.List.GetD

/-! # The driving loop

Both testbenches empty the input channel with `while (in.available(1)) go(in, out)`.
On whole frames the loop makes one call per frame and appends the reductions of the
frames in order, from any statics and on top of anything already in the output, as long
as the input holds fewer than `2 ^ 32` pixels. From `2 ^ 32` pixels on, the size that the
guard and the reads see wraps to zero before the channel is empty, and the loop never
empties it (`DownSample.drivesFrames_iff`).
-/

namespace DownSample

open Imperative

/-- A channel that holds whole frames, one after the other. -/
def AcChannel.ofFrames (frames : List Frame) : AcChannel Uint8 := ⟨frames.flatMap Frame.pixels⟩

@[simp] theorem AcChannel.length_ofFrames (frames : List Frame) :
    (AcChannel.ofFrames frames).ch.length = frames.length * (480 * 752) := by
  induction frames with
  | nil => rfl
  | cons frame rest ih =>
      change (rest.flatMap Frame.pixels).length = _ at ih
      change (frame.pixels ++ rest.flatMap Frame.pixels).length = _
      rw [List.length_append, frame.complete, ih, List.length_cons, Nat.add_mul, Nat.one_mul,
        Nat.add_comm]

theorem AcChannel.size_ofFrames (frames : List Frame)
    (small : frames.length * (480 * 752) < 2 ^ 32) :
    (AcChannel.ofFrames frames).size = frames.length * (480 * 752) := by
  rw [size_of_lt _ (by rwa [length_ofFrames]), length_ofFrames]

theorem AcChannel.ofFrames_cons (frame : Frame) (rest : List Frame) :
    AcChannel.ofFrames (frame :: rest) = ⟨frame.pixels ++ (AcChannel.ofFrames rest).ch⟩ := rfl

/-- A call on a channel that starts with a frame consumes it and appends its reduction. -/
theorem downSample_of_frames (s : Statics) (frame : Frame) (rest : List Uint8)
    (out : AcChannel Uint8) (enough : 480 * 752 ≤ (⟨frame.pixels ++ rest⟩ : AcChannel Uint8).size) :
    ∃ s', downSample ⟨s, ⟨frame.pixels ++ rest⟩, out⟩ =
      .ok () ⟨s', ⟨rest⟩, ⟨out.ch ++ reduced frame.stream (240 * 376)⟩⟩ := by
  obtain ⟨⟨s', image, downImage⟩, returns, ran⟩ :=
    downSample_of_frame (c := ⟨s, ⟨frame.pixels ++ rest⟩, out⟩) enough
  have consumed : image = ⟨rest⟩ := by
    refine ran.image.trans ?_
    rw [AcChannel.drop, ← frame.complete, List.drop_left]
  have sameStream : ∀ t < 480 * 752,
      (⟨frame.pixels ++ rest⟩ : AcChannel Uint8).stream t = frame.stream t := by
    intro t below
    rw [← frame.complete] at below
    rw [AcChannel.stream, Frame.stream, List.getD_append _ _ _ _ below]
  have written : downImage = ⟨out.ch ++ reduced frame.stream (240 * 376)⟩ := by
    have appended := ran.downImage
    rw [reduced_congr _ sameStream, outputsAfter_frame] at appended
    exact congrArg AcChannel.mk appended
  exact ⟨s', by rw [returns, consumed, written]⟩

/-- A call that returns after the guard held has consumed a frame. -/
theorem go_decreases (c c' : Call) (running : c.image.available 1 = true)
    (returns : go c = .ok () c') : c'.image.ch.length < c.image.ch.length := by
  have ready : c.image.size ≠ 0 := by
    rw [AcChannel.available_one] at running
    exact of_decide_eq_true running
  have longer := c.image.size_le_length
  by_cases short : c.image.size < 480 * 752
  · obtain ⟨final, faults, -⟩ := downSample_of_short ready short
    rw [go, faults] at returns
    cases returns
  · obtain ⟨final, runs, ran⟩ := downSample_of_frame (c := c) (by omega)
    rw [go, runs] at returns
    cases returns
    rw [ran.image, AcChannel.ch_drop, List.length_drop]
    omega

/-- `while (in.available(1)) go(in, out)`, returning the number of calls. -/
def drivingLoop : Call → EStateM.Result Fault Call ℕ :=
  whileLoop (fun c => c.image.available 1) go (fun c => c.image.ch.length) go_decreases

/-- The loop returns after one call per frame with the input empty and the frames'
means appended to the output. -/
def DrivesFrames (frames : List Frame) (out : AcChannel Uint8) (s : Statics) : Prop :=
  ∃ s' written, drivingLoop ⟨s, .ofFrames frames, out⟩ =
      .ok frames.length ⟨s', ⟨[]⟩, ⟨out.ch ++ written⟩⟩ ∧
    written.map BitVec.toNat = frames.flatMap Frame.means

/-- The reductions of frames, in order. -/
def reductions (frames : List Frame) : List Uint8 :=
  frames.flatMap fun frame => reduced frame.stream (240 * 376)

/-- After `i` calls the input holds the frames from number `i` on, and the reductions of
the frames before have been appended to the output. -/
private def Driven (frames : List Frame) (out : AcChannel Uint8) (i : ℕ) (c : Call) : Prop :=
  ∃ s, c = ⟨s, .ofFrames (frames.drop i), ⟨out.ch ++ reductions (frames.take i)⟩⟩

private theorem driven_step (frames : List Frame) (out : AcChannel Uint8)
    (small : frames.length * (480 * 752) < 2 ^ 32) {i : ℕ} (below : i < frames.length) {c : Call}
    (driven : Driven frames out i c) :
    c.image.available 1 = true ∧ ∃ c', go c = .ok () c' ∧ Driven frames out (i + 1) c' := by
  obtain ⟨s, rfl⟩ := driven
  have head : frames.drop i = frames[i] :: frames.drop (i + 1) := List.drop_eq_getElem_cons below
  have fewer : (frames.drop i).length ≤ frames.length := (List.drop_sublist i frames).length_le
  have size := AcChannel.size_ofFrames (frames.drop i)
    (lt_of_le_of_lt (Nat.mul_le_mul_right _ fewer) small)
  rw [head, AcChannel.ofFrames_cons, List.length_cons, Nat.add_mul] at size
  simp only [head, AcChannel.ofFrames_cons]
  constructor
  · rw [AcChannel.available_one, size]
    exact decide_eq_true (by omega)
  · obtain ⟨next, returns⟩ := downSample_of_frames s frames[i]
      (AcChannel.ofFrames (frames.drop (i + 1))).ch ⟨out.ch ++ reductions (frames.take i)⟩
      (by rw [size]; omega)
    refine ⟨_, returns, next, ?_⟩
    have taken : reductions (frames.take (i + 1)) =
        reductions (frames.take i) ++ reduced frames[i].stream (240 * 376) := by
      rw [List.take_succ_eq_append_getElem below, reductions, List.flatMap_append]
      exact congrArg (reductions (frames.take i) ++ ·) (List.append_nil _)
    rw [taken, ← List.append_assoc]

/-- Below `2 ^ 32` pixels the loop reduces every frame. -/
theorem drivingLoop_of_lt (frames : List Frame) (out : AcChannel Uint8) (s : Statics)
    (small : frames.length * (480 * 752) < 2 ^ 32) :
    ∃ s', drivingLoop ⟨s, .ofFrames frames, out⟩ =
      .ok frames.length ⟨s', ⟨[]⟩, ⟨out.ch ++ reductions frames⟩⟩ := by
  have start : Driven frames out 0 ⟨s, .ofFrames frames, out⟩ := by
    refine ⟨s, ?_⟩
    rw [List.take_zero, List.drop_zero, reductions, List.flatMap_nil, List.append_nil]
  have stop : ∀ c, Driven frames out frames.length c → c.image.available 1 = false := by
    rintro c ⟨s', rfl⟩
    rw [List.drop_length]
    rfl
  have driven : ∃ final, drivingLoop ⟨s, .ofFrames frames, out⟩ = .ok frames.length final ∧
      Driven frames out frames.length final :=
    whileLoop_invariant (Driven frames out) frames.length
      (fun i below c driven => driven_step frames out small below driven) stop start
  obtain ⟨final, loops, s', finalIs⟩ := driven
  refine ⟨s', loops.trans ?_⟩
  rw [finalIs, List.drop_length, List.take_length]
  rfl

private theorem go_keeps_full (c : Call) (full : 2 ^ 32 ≤ c.image.ch.length) :
    2 ^ 32 ≤ (after (go c)).image.ch.length := by
  obtain ⟨n, within, ran⟩ := downSample_ran c
  rw [go, ran.image, AcChannel.ch_drop, List.length_drop]
  rw [AcChannel.size] at within
  omega

/-- From `2 ^ 32` pixels on, the loop never empties the channel. -/
private theorem not_drivesFrames (frames : List Frame) (out : AcChannel Uint8) (s : Statics)
    (full : 2 ^ 32 ≤ frames.length * (480 * 752)) : ¬ DrivesFrames frames out s := by
  rintro ⟨s', written, loops, -⟩
  rw [← AcChannel.length_ofFrames] at full
  have kept : 2 ^ 32 ≤ (after (drivingLoop ⟨s, .ofFrames frames, out⟩)).image.ch.length :=
    whileLoop_preserves (fun c : Call => 2 ^ 32 ≤ c.image.ch.length) go_keeps_full full
  rw [loops] at kept
  exact absurd kept (Nat.not_le_of_lt (by decide : 0 < 2 ^ 32))

/-- **The driving loop.** Whole frames are reduced one call at a time, from any statics,
exactly when the input holds fewer than `2 ^ 32` pixels. -/
theorem drivesFrames_iff (frames : List Frame) (out : AcChannel Uint8) (s : Statics) :
    DrivesFrames frames out s ↔ frames.length * (480 * 752) < 2 ^ 32 := by
  constructor
  · intro drives
    by_contra full
    exact not_drivesFrames frames out s (by omega) drives
  · intro small
    obtain ⟨s', loops⟩ := drivingLoop_of_lt frames out s small
    refine ⟨s', _, loops, ?_⟩
    rw [reductions, List.map_flatMap]
    simp only [Frame.reduced_toNat]

/-- A frame of black pixels. -/
def Frame.black : Frame := ⟨List.replicate (480 * 752) 0, List.length_replicate⟩

/-- The first input on which the loop fails: 11899 frames hold more than `2 ^ 32` pixels. -/
theorem not_drivesFrames_black :
    ¬ DrivesFrames (List.replicate 11899 Frame.black) ⟨[]⟩ Statics.zero :=
  not_drivesFrames _ _ _ (by rw [List.length_replicate]; decide)

end DownSample
