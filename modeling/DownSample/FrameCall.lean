import DownSample.Streaming

/-! # One call of the block

The `available` guard is evaluated once. A call on a channel of size zero does nothing
(`DownSample.downSample_of_empty`), a call with a frame to read consumes exactly that
frame (`DownSample.downSample_of_frame`), and a call on a shorter channel passes the
guard, reads what there is and asserts with the frame half processed
(`DownSample.downSample_of_short`). The call is thus atomic exactly when the size is
zero or at least a frame.
-/

namespace DownSample

open Imperative

/-- The statics as the program starts: static storage is zero. -/
def Statics.zero : Statics where
  rawLnData :=
    { wrBuffer := 0, rdBuffer := 0, line0 := Vector.replicate 376 0, rdData := #v[0, 0],
      accesses := [] }
  rawShregData := { shregY0 := #v[0, 0], shregY1 := #v[0, 0] }

section Outcomes

variable {c : Call}

theorem downSample_of_available (ready : c.image.size ≠ 0) :
    downSample c = iterationsOf (480 * 752) c := by
  have guard : c.image.available 1 = true := by
    rw [AcChannel.available_one, decide_eq_true ready]
  rw [← frameLoop_eq_iterationsOf]
  refine (bind_of_ok rfl).trans ?_
  rw [if_pos guard]

theorem downSample_of_empty (empty : c.image.size = 0) : downSample c = .ok () c := by
  have guard : ¬ c.image.available 1 = true := by
    rw [AcChannel.available_one, decide_eq_false (by omega)]
    exact Bool.false_ne_true
  refine (bind_of_ok rfl).trans ?_
  rw [if_neg guard]
  rfl

/-- With a frame to read, a call makes all its iterations. -/
theorem downSample_of_frame (enough : 480 * 752 ≤ c.image.size) :
    ∃ after, downSample c = .ok () after ∧ Ran (480 * 752) c after := by
  rw [downSample_of_available (by omega)]
  exact iterationsOf_run c (480 * 752) le_rfl enough

/-- With less than a frame to read, a call asserts after as many iterations as the
channel allowed. -/
theorem downSample_of_short (ready : c.image.size ≠ 0) (short : c.image.size < 480 * 752) :
    ∃ after, downSample c = .error .readFromEmptyChannel after ∧ Ran c.image.size c after := by
  rw [downSample_of_available ready]
  exact iterationsOf_spent c (480 * 752) le_rfl short

/-- A call returns exactly when its guard tells the truth about the frame. -/
theorem downSample_returns_iff :
    (∃ final, downSample c = .ok () final) ↔ c.image.size = 0 ∨ 480 * 752 ≤ c.image.size := by
  constructor
  · rintro ⟨final, returns⟩
    by_contra partialFrame
    obtain ⟨other, faults, -⟩ := downSample_of_short (c := c) (by omega) (by omega)
    rw [faults] at returns
    cases returns
  · rintro (empty | enough)
    · exact ⟨c, downSample_of_empty empty⟩
    · obtain ⟨final, returns, -⟩ := downSample_of_frame enough
      exact ⟨final, returns⟩

/-- However a call ends, it has made a number of iterations that the channel allowed. -/
theorem downSample_ran (c : Call) :
    ∃ n ≤ c.image.size, Ran n c (after (downSample c)) := by
  by_cases empty : c.image.size = 0
  · rw [downSample_of_empty empty]
    exact ⟨0, Nat.zero_le _, Ran.refl c⟩
  · by_cases short : c.image.size < 480 * 752
    · obtain ⟨final, faults, ran⟩ := downSample_of_short empty short
      rw [faults]
      exact ⟨c.image.size, le_rfl, ran⟩
    · obtain ⟨final, returns, ran⟩ := downSample_of_frame (c := c) (by omega)
      rw [returns]
      exact ⟨480 * 752, by omega, ran⟩

end Outcomes

/-- A call that returns and either leaves both channels as they were or consumes a
frame and appends its reduction. -/
def AtomicCall (c : Call) : Prop :=
  ∃ after, downSample c = .ok () after ∧
    (after.image = c.image ∧ after.downImage = c.downImage ∨
      ∃ consumed written, consumed.length = 480 * 752 ∧ written.length = 240 * 376 ∧
        c.image.ch = consumed ++ after.image.ch ∧
        after.downImage.ch = c.downImage.ch ++ written)

/-- **Frame atomicity.** A call is atomic exactly when the guard's size is zero or covers a
whole frame; on every other channel the guard lets a partial frame through. -/
theorem atomicCall_iff (c : Call) :
    AtomicCall c ↔
      c.image.ch.length % 2 ^ 32 = 0 ∨ 480 * 752 ≤ c.image.ch.length % 2 ^ 32 := by
  change _ ↔ c.image.size = 0 ∨ 480 * 752 ≤ c.image.size
  constructor
  · rintro ⟨final, returns, -⟩
    exact downSample_returns_iff.mp ⟨final, returns⟩
  · rintro (empty | enough)
    · exact ⟨c, downSample_of_empty empty, Or.inl ⟨rfl, rfl⟩⟩
    · obtain ⟨final, returns, ran⟩ := downSample_of_frame enough
      have longer := c.image.size_le_length
      refine ⟨final, returns, Or.inr ⟨c.image.ch.take (480 * 752),
        reduced c.image.stream (outputsAfter (480 * 752)), ?_, ?_, ?_, ran.downImage⟩⟩
      · rw [List.length_take, Nat.min_eq_left (by omega)]
      · rw [length_reduced, outputsAfter_frame]
      · rw [ran.image, AcChannel.ch_drop, List.take_append_drop]

/-- A channel holding a single pixel passes the guard and fails the second read. -/
theorem not_atomicCall_singlePixel : ¬ AtomicCall ⟨Statics.zero, ⟨[0]⟩, ⟨[]⟩⟩ := by
  rintro ⟨final, returns, -⟩
  obtain ⟨other, faults, -⟩ :=
    downSample_of_short (c := ⟨Statics.zero, ⟨[0]⟩, ⟨[]⟩⟩) (by decide) (by decide)
  rw [faults] at returns
  cases returns

end DownSample
