import DownSample.ByteLine
import DownSample.Design
import DownSample.Picture

/-! # The loop as a stream of blocks

`DownSample.Primed` relates the statics to the pixels a call has consumed: during an
even line the buffer holds the words completed so far and the write register the half
of the current one; during an odd line the buffer holds the whole line above, and on
odd columns the read register and the first registers of the shift register hold the
left half of the current block. It says nothing of the statics at the start of a frame,
so it holds of any of them (`DownSample.Primed.start`); an iteration carries it to the
next pixel and writes the block that pixel completes (`DownSample.iteration_step`).

From any statics, the first `n` iterations therefore write the first `outputsAfter n`
blocks of the frame (`DownSample.iterationsOf_run`), and no more than the channel's size
are made (`DownSample.iterationsOf_spent`).
-/

namespace DownSample

open Imperative

/-- What the statics hold of a stream of pixels after `t` of them. -/
structure Primed (stream : ℕ → Uint8) (t : ℕ) (s : Statics) : Prop where
  filled : t / 752 % 2 = 0 → ∀ b < t % 752 / 2 * 2,
    s.rawLnData.byteLine b = stream (t / 752 * 752 + b)
  pending : t / 752 % 2 = 0 → t % 752 % 2 = 1 →
    DownLn.lowByte s.rawLnData.wrBuffer = stream (t - 1)
  above : t / 752 % 2 = 1 → ∀ b < 752, s.rawLnData.byteLine b = stream ((t / 752 - 1) * 752 + b)
  fetched : t / 752 % 2 = 1 → t % 752 % 2 = 1 →
    DownLn.highByte s.rawLnData.rdBuffer = stream (t - 752)
  shifted : t / 752 % 2 = 1 → t % 752 % 2 = 1 →
    s.rawShregData.left = (stream (t - 752 - 1), stream (t - 1))

/-- Any statics will do before the first pixel of a frame. -/
theorem Primed.start (stream : ℕ → Uint8) (s : Statics) : Primed stream 0 s where
  filled _ b below := by omega
  pending _ column := by omega
  above line := by omega
  fetched line := by omega
  shifted line := by omega

/-- The access to the line memory that iteration `t` makes, if any. -/
def accessesAt (t : ℕ) : List Access :=
  if t / 752 % 2 = 0 then
    if t % 752 % 2 = 1 then [.write (t % 752 / 2)] else []
  else
    if t % 752 % 2 = 0 then [.read (t % 752 / 2)] else []

/-- What iteration `t` leaves of the state before it. -/
structure Steps (stream : ℕ → Uint8) (t : ℕ) (before : Call) (rest : AcChannel Uint8)
    (after : Call) : Prop where
  image : after.image = rest
  downImage : after.downImage.ch = before.downImage.ch ++ completed stream t
  primed : Primed stream (t + 1) after.statics
  accesses : after.statics.rawLnData.accesses =
    accessesAt t :: before.statics.rawLnData.accesses

section Step

variable {stream : ℕ → Uint8} {t : ℕ} {c : Call} {rest : AcChannel Uint8}

private theorem iterationAt_of_process (frame : t < 480 * 752) {pixel : Uint8} {m : DownLn}
    (taken : c.image.read = some (pixel, rest))
    (returns : DownLn.process pixel (t / 752 : ℕ) (t % 752 : ℕ)
      c.statics.rawLnData.beginIteration = .ok () m) :
    iterationAt t c = .ok ()
      { statics := ⟨m, c.statics.rawShregData.process m.rdData (t / 752 : ℕ) (t % 752 : ℕ)⟩
        image := rest
        downImage :=
          if t / 752 % 2 = 1 ∧ t % 752 % 2 = 1 then
            c.downImage.write
              (c.statics.rawShregData.process m.rdData (t / 752 : ℕ) (t % 752 : ℕ)).downPixel
          else c.downImage } := by
  have lnIs : (BitVec.ofNat 9 (t / 752)).toNat = t / 752 := AcInt.toNat_counter (by omega)
  have pxIs : (BitVec.ofNat 10 (t % 752)).toNat = t % 752 := AcInt.toNat_counter (by omega)
  rw [← lnIs, ← pxIs] at returns
  have runs := iteration_of_process _ _ c taken returns
  rw [lnIs, pxIs] at runs
  exact runs

/-- An even column of an even line only fills the write register. -/
private theorem step_even_even (frame : t < 480 * 752) (line : t / 752 % 2 = 0)
    (column : t % 752 % 2 = 0) (taken : c.image.read = some (stream t, rest))
    (primed : Primed stream t c.statics) :
    ∃ after, iterationAt t c = .ok () after ∧ Steps stream t c rest after := by
  have row : (t + 1) / 752 = t / 752 := by omega
  have noBlock : ¬ (t / 752 % 2 = 1 ∧ t % 752 % 2 = 1) := by omega
  have noAccess : accessesAt t = [] := by rw [accessesAt, if_pos line, if_neg (by omega)]
  refine ⟨_, iterationAt_of_process frame taken
    (DownLn.process_even_even c.statics.rawLnData.beginIteration (stream t) line column), ?_⟩
  exact {
    image := rfl
    downImage := by
      rw [completed, if_neg noBlock, if_neg noBlock, List.append_nil]
    primed := {
      filled := by
        intro _ b below
        rw [row]
        exact primed.filled line b (by omega)
      pending := by
        intro _ _
        exact DownLn.lowByte_setSlc_low _ _
      above := by omega
      fetched := by omega
      shifted := by omega }
    accesses := by
      rw [noAccess]
      rfl }

/-- An odd column of an even line stores the word of its two pixels. -/
private theorem step_even_odd (frame : t < 480 * 752) (line : t / 752 % 2 = 0)
    (column : t % 752 % 2 = 1) (taken : c.image.read = some (stream t, rest))
    (primed : Primed stream t c.statics) :
    ∃ after, iterationAt t c = .ok () after ∧ Steps stream t c rest after := by
  have noBlock : ¬ (t / 752 % 2 = 1 ∧ t % 752 % 2 = 1) := by omega
  have stores : accessesAt t = [.write (t % 752 / 2)] := by
    rw [accessesAt, if_pos line, if_pos column]
  have inside : t % 752 / 2 < 376 := by omega
  obtain ⟨a, columnIs⟩ : ∃ a, t % 752 = 2 * a + 1 := ⟨t % 752 / 2, by omega⟩
  refine ⟨_, iterationAt_of_process frame taken
    (DownLn.process_even_odd c.statics.rawLnData.beginIteration (stream t) line column inside), ?_⟩
  -- The bytes of the line up to this pixel, the stored word included.
  have bytes : ∀ b < t % 752 / 2 * 2 + 2, ({ c.statics.rawLnData.beginIteration with
        wrBuffer := AcInt.setSlc c.statics.rawLnData.beginIteration.wrBuffer 8 (stream t)
        line0 := c.statics.rawLnData.beginIteration.line0.set (t % 752 / 2)
          (AcInt.setSlc c.statics.rawLnData.beginIteration.wrBuffer 8 (stream t)) inside }.record
            (.write (t % 752 / 2)) : DownLn).byteLine b = stream (t / 752 * 752 + b) := by
    intro b below
    rw [DownLn.byteLine_of_set (m := c.statics.rawLnData) inside _ rfl, DownLn.lowByte_setSlc_high,
      DownLn.highByte_setSlc_high]
    by_cases high : b = 2 * (t % 752 / 2) + 1
    · rw [high, Function.update_self]
      exact congrArg stream (by omega)
    · rw [Function.update_of_ne high]
      by_cases low : b = 2 * (t % 752 / 2)
      · rw [low, Function.update_self]
        exact (primed.pending line column).trans (congrArg stream (by omega))
      · rw [Function.update_of_ne low]
        exact primed.filled line b (by omega)
  exact {
    image := rfl
    downImage := by
      rw [completed, if_neg noBlock, if_neg noBlock, List.append_nil]
    primed := {
      filled := by
        intro even b below
        have row : (t + 1) / 752 = t / 752 := by omega
        rw [row]
        exact bytes b (by omega)
      pending := by omega
      above := by
        intro odd b below
        have row : (t + 1) / 752 - 1 = t / 752 := by omega
        rw [row]
        exact bytes b (by omega)
      fetched := by omega
      shifted := by omega }
    accesses := by
      rw [stores]
      rfl }

/-- An even column of an odd line fetches the word above and shifts in the left half
of the block. -/
private theorem step_odd_even (frame : t < 480 * 752) (line : t / 752 % 2 = 1)
    (column : t % 752 % 2 = 0) (taken : c.image.read = some (stream t, rest))
    (primed : Primed stream t c.statics) :
    ∃ after, iterationAt t c = .ok () after ∧ Steps stream t c rest after := by
  have row : (t + 1) / 752 = t / 752 := by omega
  have noBlock : ¬ (t / 752 % 2 = 1 ∧ t % 752 % 2 = 1) := by omega
  have fetches : accessesAt t = [.read (t % 752 / 2)] := by
    rw [accessesAt, if_neg (by omega), if_pos column]
  have inside : t % 752 / 2 < 376 := by omega
  have low := DownLn.byteLine_even c.statics.rawLnData inside
  have high := DownLn.byteLine_odd c.statics.rawLnData inside
  rw [primed.above line _ (by omega)] at low high
  refine ⟨_, iterationAt_of_process frame taken
    (DownLn.process_odd_even c.statics.rawLnData.beginIteration (stream t) line column inside), ?_⟩
  exact {
    image := rfl
    downImage := by
      rw [completed, if_neg noBlock, if_neg noBlock, List.append_nil]
    primed := {
      filled := by omega
      pending := by omega
      above := by
        intro _ b below
        rw [row]
        exact primed.above line b below
      fetched := by
        intro _ _
        exact high.symm.trans (congrArg stream (by omega))
      shifted := by
        intro _ _
        have upper : DownLn.lowByte c.statics.rawLnData.line0[t % 752 / 2] =
            stream (t + 1 - 752 - 1) := low.symm.trans (congrArg stream (by omega))
        refine (DownShreg.left_process _ _ _ (t / 752) column).trans ?_
        rw [DownLn.slc_low]
        exact congrArg (·, stream t) upper }
    accesses := by
      rw [fetches]
      rfl }

/-- An odd column of an odd line completes its block and writes the block's mean. -/
private theorem step_odd_odd (frame : t < 480 * 752) (line : t / 752 % 2 = 1)
    (column : t % 752 % 2 = 1) (taken : c.image.read = some (stream t, rest))
    (primed : Primed stream t c.statics) :
    ∃ after, iterationAt t c = .ok () after ∧ Steps stream t c rest after := by
  have noAccess : accessesAt t = [] := by rw [accessesAt, if_neg (by omega), if_neg (by omega)]
  obtain ⟨block, place⟩ := outputsAfter_block t line column
  have left := primed.shifted line column
  have upperRight := primed.fetched line column
  -- The registers hold the block in raster order, so their mean is the block's.
  have mean : (c.statics.rawShregData.process
      #v[AcInt.slc 8 c.statics.rawLnData.rdBuffer 8, stream t] (t / 752 : ℕ)
        (t % 752 : ℕ)).downPixel = reducedPixel stream (outputsAfter t) := by
    apply BitVec.eq_of_toNat_eq
    obtain ⟨first, second, third, fourth⟩ := block_positions line column
    rw [DownShreg.downPixel_process _ _ _ _ column, reducedPixel_toNat, block, place, left,
      DownLn.slc_high, upperRight, blockMean, raster, raster, raster, raster, first, second, third,
      fourth]
  refine ⟨_, iterationAt_of_process frame taken
    (DownLn.process_odd_odd c.statics.rawLnData.beginIteration (stream t) line column), ?_⟩
  exact {
    image := rfl
    downImage := by
      rw [completed, if_pos ⟨line, column⟩, if_pos ⟨line, column⟩, ← mean]
      rfl
    primed := {
      filled := by
        intro _ b below
        omega
      pending := by omega
      above := by
        intro odd b below
        have row : (t + 1) / 752 = t / 752 := by omega
        rw [row]
        exact primed.above line b below
      fetched := by omega
      shifted := by omega }
    accesses := by
      rw [noAccess]
      rfl }

/-- **One iteration.** With a pixel to read, an iteration carries what the statics hold
to the next pixel, writes the block that its pixel completes, and makes the scheduled
access to the line memory. -/
theorem iteration_step (frame : t < 480 * 752) (taken : c.image.read = some (stream t, rest))
    (primed : Primed stream t c.statics) :
    ∃ after, iterationAt t c = .ok () after ∧ Steps stream t c rest after := by
  rcases Nat.mod_two_eq_zero_or_one (t / 752) with even | odd
  · rcases Nat.mod_two_eq_zero_or_one (t % 752) with left | right
    · exact step_even_even frame even left taken primed
    · exact step_even_odd frame even right taken primed
  · rcases Nat.mod_two_eq_zero_or_one (t % 752) with left | right
    · exact step_odd_even frame odd left taken primed
    · exact step_odd_odd frame odd right taken primed

end Step

/-- The pixels of a channel as a stream. -/
def AcChannel.stream (channel : AcChannel Uint8) (t : ℕ) : Uint8 := channel.ch.getD t 0

theorem AcChannel.read_stream (channel : AcChannel Uint8) {t : ℕ} (within : t < channel.size) :
    (channel.drop t).read = some (channel.stream t, channel.drop (t + 1)) := by
  obtain ⟨inside, read⟩ := channel.read_drop t within
  rw [read, stream, List.getD_eq_getElem?_getD, List.getElem?_eq_getElem inside, Option.getD_some]

/-- What the first `n` iterations of a call leave of the state before them. -/
structure Ran (n : ℕ) (before after : Call) : Prop where
  image : after.image = before.image.drop n
  downImage : after.downImage.ch =
    before.downImage.ch ++ reduced before.image.stream (outputsAfter n)
  primed : Primed before.image.stream n after.statics
  accesses : after.statics.rawLnData.accesses =
    ((List.range n).map accessesAt).reverse ++ before.statics.rawLnData.accesses

theorem Ran.refl (c : Call) : Ran 0 c c where
  image := rfl
  downImage := (List.append_nil _).symm
  primed := Primed.start _ _
  accesses := rfl

/-- **A run of the loop.** From any statics, as many iterations as the channel's size
allows return, having written the blocks that their pixels complete. -/
theorem iterationsOf_run (c : Call) (n : ℕ) (frame : n ≤ 480 * 752) (enough : n ≤ c.image.size) :
    ∃ after, iterationsOf n c = .ok () after ∧ Ran n c after := by
  refine iterations_invariant (fun t => Ran t c) n ?_ (Ran.refl c)
  intro t below middle ran
  have taken := c.image.read_stream (t := t) (by omega)
  rw [← ran.image] at taken
  obtain ⟨next, returns, steps⟩ := iteration_step (by omega) taken ran.primed
  refine ⟨next, returns, ?_⟩
  exact {
    image := steps.image
    downImage := by
      rw [steps.downImage, ran.downImage, reduced_outputsAfter_succ, List.append_assoc]
    primed := steps.primed
    accesses := by
      rw [steps.accesses, ran.accesses, List.range_succ, List.map_append, List.reverse_append]
      rfl }

/-- When the channel's size is spent inside the frame, the next read asserts, in the state
that the iterations so far have left. -/
theorem iterationsOf_spent (c : Call) (n : ℕ) (frame : n ≤ 480 * 752)
    (short : c.image.size < n) :
    ∃ after, iterationsOf n c = .error .readFromEmptyChannel after ∧ Ran c.image.size c after := by
  obtain ⟨after, runs, ran⟩ := iterationsOf_run c c.image.size (by omega) le_rfl
  have spent : after.image.read = none := by
    rw [ran.image]
    apply AcChannel.read_of_size
    rw [AcChannel.size_drop _ _ le_rfl, Nat.sub_self]
  have faults : iterationsOf (c.image.size + 1) c = .error .readFromEmptyChannel after :=
    (iterations_succ_of_ok runs).trans (iteration_of_empty _ _ _ spent)
  exact ⟨after, iterations_of_error faults short, ran⟩

end DownSample
