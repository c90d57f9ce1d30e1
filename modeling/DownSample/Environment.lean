import DownSample.Driver
import DownSample.Library.Runs

/-! # The block in its environment

The channels join the block to processes of their own pace: pixels are written into the
input, the block is called and values are read from the output, in any order. What happens
is governed by three counts, of the pixels written, of the frames consumed and of the
values read: they say which calls and reads succeed, and with the pixels written they
determine what is in the channels (`DownSample.World.refines_counts`). Two schedules of the same
pixels therefore agree on the values as far as both go (`DownSample.World.outputs_agree`).

The counts take both channels to hold less than `2 ^ 32` entries at any time, which a schedule
may do forever. That schedules agree needs no such bound.
-/

namespace DownSample

open Imperative Runs

/-- What can happen at the channels. -/
inductive Event where
  | push (pixel : Uint8)
  | call
  | pop
deriving DecidableEq, Repr

/-- The pixels that are written, in order. -/
def pushedOf (events : List Event) : List Uint8 :=
  events.filterMap fun event =>
    match event with
    | .push pixel => some pixel
    | _ => none

@[simp] theorem pushedOf_push (events : List Event) (pixel : Uint8) :
    pushedOf (events ++ [.push pixel]) = pushedOf events ++ [pixel] := List.filterMap_append

@[simp] theorem pushedOf_map_push (pixels : List Uint8) : pushedOf (pixels.map .push) = pixels := by
  rw [pushedOf, List.filterMap_map]
  exact List.filterMap_some

@[simp] theorem pushedOf_call (events : List Event) :
    pushedOf (events ++ [.call]) = pushedOf events :=
  List.filterMap_append.trans (List.append_nil _)

@[simp] theorem pushedOf_pop (events : List Event) :
    pushedOf (events ++ [.pop]) = pushedOf events :=
  List.filterMap_append.trans (List.append_nil _)

/-- The block with its channels, and the values that were read from its output. -/
structure World where
  c : Call
  popped : List Uint8
deriving DecidableEq

namespace World

/-- One event. A call or a read may assert. -/
def step : Event → World → Except Fault World
  | .push pixel, w => .ok { w with c := { w.c with image := w.c.image.write pixel } }
  | .call, w =>
      match go w.c with
      | .ok _ c => .ok { w with c := c }
      | .error fault _ => .error fault
  | .pop, w =>
      match w.c.downImage.read with
      | some (value, rest) =>
          .ok { c := { w.c with downImage := rest }, popped := w.popped ++ [value] }
      | none => .error .readFromEmptyChannel

/-- Empty channels, before anything was read. -/
def start (s : Statics) : World := ⟨⟨s, ⟨[]⟩, ⟨[]⟩⟩, []⟩

end World

/-- The number of pixels in a frame. -/
def framePixels : ℕ := 480 * 752

/-- The number of values in the reduction of a frame. -/
def frameValues : ℕ := 240 * 376

theorem outputsAfter_framePixels : outputsAfter framePixels = frameValues := outputsAfter_frame

/-- The counts of pixels written, of frames consumed and of values read. -/
structure Counts where
  pushed : ℕ
  frames : ℕ
  popped : ℕ
deriving DecidableEq, Repr

namespace Counts

/-- The number of pixels in the input. -/
def pending (k : Counts) : ℕ := k.pushed - k.frames * framePixels

/-- The number of values in the output. -/
def waiting (k : Counts) : ℕ := k.frames * frameValues - k.popped

/-- One event. A call needs a frame or nothing in the input, and a read something in the
output. -/
def step : Event → Counts → Option Counts
  | .push _, k => some { k with pushed := k.pushed + 1 }
  | .call, k =>
      if k.pending = 0 then some k
      else if framePixels ≤ k.pending then some { k with frames := k.frames + 1 }
      else none
  | .pop, k => if k.waiting = 0 then none else some { k with popped := k.popped + 1 }

/-- Nothing has happened. -/
def start : Counts := ⟨0, 0, 0⟩

end Counts

/-- Neither channel ever holds `2 ^ 32` entries. -/
def Within (events : List Event) : Prop :=
  ∀ before, before <+: events → ∀ k, run Counts.step before Counts.start = some k →
    k.pending < 2 ^ 32 ∧ k.waiting < 2 ^ 32

/-- The reductions of the first frames of a stream of pixels. -/
def outputsOf (pixels : List Uint8) (frames : ℕ) : List Uint8 :=
  (List.range frames).flatMap fun f =>
    reduced (fun t => pixels.getD (f * framePixels + t) 0) frameValues

theorem outputsOf_succ (pixels : List Uint8) (frames : ℕ) :
    outputsOf pixels (frames + 1) = outputsOf pixels frames ++
      reduced (fun t => pixels.getD (frames * framePixels + t) 0) frameValues := by
  rw [outputsOf, List.range_succ, List.flatMap_append, List.flatMap_singleton]
  rfl

@[simp] theorem length_outputsOf (pixels : List Uint8) (frames : ℕ) :
    (outputsOf pixels frames).length = frames * frameValues := by
  induction frames with
  | zero => rw [Nat.zero_mul]; rfl
  | succ frames ih =>
      rw [outputsOf_succ, List.length_append, ih, length_reduced, Nat.succ_mul frames]

/-- The first frames do not depend on the pixels behind them. -/
theorem outputsOf_append (pixels more : List Uint8) {frames : ℕ}
    (whole : frames * framePixels ≤ pixels.length) :
    outputsOf (pixels ++ more) frames = outputsOf pixels frames := by
  induction frames with
  | zero => simp only [outputsOf, List.range_zero, List.flatMap_nil]
  | succ frames ih =>
      rw [Nat.succ_mul frames] at whole
      have same : ∀ t < framePixels, (pixels ++ more).getD (frames * framePixels + t) 0 =
          pixels.getD (frames * framePixels + t) 0 := by
        intro t below
        rw [List.getD_append _ _ _ _ (by omega)]
      have frame := reduced_congr _ same
      rw [outputsAfter_framePixels] at frame
      rw [outputsOf_succ, outputsOf_succ, ih (by omega), frame]

/-- More frames only append to what fewer have produced. -/
theorem outputsOf_prefix (pixels : List Uint8) {fewer frames : ℕ} (more : fewer ≤ frames) :
    outputsOf pixels fewer <+: outputsOf pixels frames := by
  induction frames, more using Nat.le_induction with
  | base => exact List.prefix_refl _
  | succ frames _ ih =>
      rw [outputsOf_succ]
      exact ih.trans (List.prefix_append _ _)

/-! ## One event -/

/-- What the counts say of the channels. -/
structure Consistent (events : List Event) (w : World) (k : Counts) : Prop where
  pushed : k.pushed = (pushedOf events).length
  whole : k.frames * framePixels ≤ k.pushed
  image : w.c.image.ch = (pushedOf events).drop (k.frames * framePixels)
  outputs : w.popped ++ w.c.downImage.ch = outputsOf (pushedOf events) k.frames
  popped : w.popped.length = k.popped

section Consistent

variable {events : List Event} {w : World} {k : Counts}

theorem Consistent.length_image (consistent : Consistent events w k) :
    w.c.image.ch.length = k.pending := by
  rw [consistent.image, List.length_drop, ← consistent.pushed, Counts.pending]

theorem Consistent.size_image (consistent : Consistent events w k) (room : k.pending < 2 ^ 32) :
    w.c.image.size = k.pending := by
  rw [AcChannel.size_of_lt _ (consistent.length_image.symm ▸ room), consistent.length_image]

theorem Consistent.length_downImage (consistent : Consistent events w k) :
    w.c.downImage.ch.length = k.waiting := by
  have length := congrArg List.length consistent.outputs
  rw [List.length_append, length_outputsOf, consistent.popped] at length
  unfold Counts.waiting
  omega

theorem Consistent.size_downImage (consistent : Consistent events w k)
    (room : k.waiting < 2 ^ 32) : w.c.downImage.size = k.waiting := by
  rw [AcChannel.size_of_lt _ (consistent.length_downImage.symm ▸ room),
    consistent.length_downImage]

/-- A pixel that is written is behind all frames that were consumed. -/
theorem Consistent.push (consistent : Consistent events w k) (pixel : Uint8) :
    Consistent (events ++ [.push pixel])
      ⟨⟨w.c.statics, w.c.image.write pixel, w.c.downImage⟩, w.popped⟩
      ⟨k.pushed + 1, k.frames, k.popped⟩ where
  pushed := by
    rw [pushedOf_push, List.length_append, ← consistent.pushed, List.length_singleton]
  whole := Nat.le_succ_of_le consistent.whole
  image := by
    rw [pushedOf_push, List.drop_append_of_le_length (consistent.pushed ▸ consistent.whole),
      ← consistent.image, AcChannel.write]
  outputs := by
    rw [pushedOf_push, outputsOf_append _ _ (consistent.pushed ▸ consistent.whole),
      ← consistent.outputs]
  popped := consistent.popped

/-- A call that finds nothing changes nothing. -/
theorem Consistent.idle (consistent : Consistent events w k) :
    Consistent (events ++ [.call]) w k where
  pushed := by rw [pushedOf_call, consistent.pushed]
  whole := consistent.whole
  image := by rw [pushedOf_call, consistent.image]
  outputs := by rw [pushedOf_call, consistent.outputs]
  popped := consistent.popped

/-- A call that finds a frame consumes it and writes its reduction. -/
theorem Consistent.frame (consistent : Consistent events w k) (enough : framePixels ≤ k.pending)
    {c : Call} (ran : Ran framePixels w.c c) :
    Consistent (events ++ [.call]) ⟨c, w.popped⟩ ⟨k.pushed, k.frames + 1, k.popped⟩ where
  pushed := by rw [pushedOf_call, consistent.pushed]
  whole := by
    have whole := consistent.whole
    unfold Counts.pending at enough
    change (k.frames + 1) * framePixels ≤ k.pushed
    rw [Nat.succ_mul]
    omega
  image := by
    rw [pushedOf_call, ran.image, AcChannel.ch_drop, consistent.image, List.drop_drop,
      Nat.succ_mul]
  outputs := by
    have stream : w.c.image.stream =
        fun t => (pushedOf events).getD (k.frames * framePixels + t) 0 := by
      funext t
      rw [AcChannel.stream, consistent.image, List.getD_eq_getElem?_getD, List.getElem?_drop,
        List.getD_eq_getElem?_getD]
    rw [pushedOf_call, ran.downImage, ← List.append_assoc, consistent.outputs, outputsOf_succ,
      stream, outputsAfter_framePixels]
  popped := consistent.popped

/-- A value that is read is the next of the outputs. -/
theorem Consistent.pop (consistent : Consistent events w k) {value : Uint8}
    {rest : AcChannel Uint8} (taken : w.c.downImage.read = some (value, rest)) :
    Consistent (events ++ [.pop])
      ⟨⟨w.c.statics, w.c.image, rest⟩, w.popped ++ [value]⟩
      ⟨k.pushed, k.frames, k.popped + 1⟩ where
  pushed := by rw [pushedOf_pop, consistent.pushed]
  whole := consistent.whole
  image := by rw [pushedOf_pop, consistent.image]
  outputs := by
    rw [pushedOf_pop, List.append_assoc, List.singleton_append,
      ← (AcChannel.ch_of_read taken).2, consistent.outputs]
  popped := by rw [List.length_append, consistent.popped, List.length_singleton]

end Consistent

/-! ## Runs -/

theorem Within.closed {events : List Event} {last : Event} (within : Within (events ++ [last])) :
    Within events := fun before beginning =>
  within before (beginning.trans (List.prefix_append _ _))

/-- The counts are bounded by the number of events. -/
private theorem counts_le {events : List Event} {k : Counts}
    (reached : run Counts.step events Counts.start = some k) :
    k.frames * framePixels ≤ k.pushed ∧ k.pushed ≤ events.length := by
  induction events using List.reverseRecOn generalizing k with
  | nil =>
      cases reached
      exact ⟨Nat.zero_le _, Nat.zero_le _⟩
  | append_singleton events last ih =>
      rw [run_concat, Option.bind_eq_bind, Option.bind_eq_some_iff] at reached
      obtain ⟨before, reachedBefore, steps⟩ := reached
      obtain ⟨whole, pushed⟩ := ih reachedBefore
      rw [List.length_append, List.length_singleton]
      cases last with
      | push pixel =>
          cases steps
          exact ⟨Nat.le_succ_of_le whole, Nat.succ_le_succ pushed⟩
      | call =>
          rw [Counts.step] at steps
          split at steps
          · cases steps
            exact ⟨whole, Nat.le_succ_of_le pushed⟩
          · split at steps
            · rename_i enough
              cases steps
              unfold Counts.pending at enough
              refine ⟨?_, Nat.le_succ_of_le pushed⟩
              change (before.frames + 1) * framePixels ≤ before.pushed
              rw [Nat.succ_mul]
              have positive : 0 < framePixels := by decide
              omega
            · cases steps
      | pop =>
          rw [Counts.step] at steps
          split at steps
          · cases steps
          · cases steps
            exact ⟨whole, Nat.le_succ_of_le pushed⟩

/-- Short schedules are within the bounds. -/
theorem within_of_length {events : List Event} (short : events.length < 2 ^ 32) :
    Within events := by
  intro before beginning k reached
  obtain ⟨whole, pushed⟩ := counts_le reached
  have shorter := beginning.length_le
  have fewer : k.frames * frameValues ≤ k.frames * framePixels :=
    Nat.mul_le_mul_left _ (by decide)
  unfold Counts.pending Counts.waiting
  omega

/-- An event within the bounds keeps the counts consistent, or both refuse it. -/
private theorem step_matches {events : List Event} (last : Event) {w : World} {k : Counts}
    (within : k.pending < 2 ^ 32 ∧ k.waiting < 2 ^ 32) (consistent : Consistent events w k) :
    Matches (Consistent (events ++ [last])) (· = Fault.readFromEmptyChannel)
      (World.step last w) (Counts.step last k) := by
  cases last with
  | push pixel => exact consistent.push pixel
  | call =>
      have size := consistent.size_image within.1
      by_cases none : k.pending = 0
      · have returns : go w.c = .ok () w.c := downSample_of_empty (size.trans none)
        rw [Counts.step, if_pos none, World.step, returns]
        exact consistent.idle
      · by_cases enough : framePixels ≤ k.pending
        · obtain ⟨c, returns, ran⟩ := downSample_of_frame (c := w.c) (size ▸ enough)
          rw [Counts.step, if_neg none, if_pos enough, World.step, go, returns]
          exact consistent.frame enough ran
        · obtain ⟨c, faults, -⟩ := downSample_of_short (c := w.c) (size ▸ none)
            (size ▸ Nat.not_le.mp enough)
          rw [Counts.step, if_neg none, if_neg enough, World.step, go, faults]
          rfl
  | pop =>
      have size := consistent.size_downImage within.2
      by_cases none : k.waiting = 0
      · rw [Counts.step, if_pos none, World.step, AcChannel.read_of_size _ (size.trans none)]
        rfl
      · obtain ⟨inside, taken⟩ := w.c.downImage.read_drop 0 (by omega)
        have first : w.c.downImage.drop 0 = w.c.downImage := rfl
        rw [first] at taken
        rw [Counts.step, if_neg none, World.step, taken]
        exact consistent.pop taken

/-- An event that returns keeps some counts consistent, whatever the channels hold. -/
private theorem step_consistent {events : List Event} (last : Event) {w w' : World} {k : Counts}
    (consistent : Consistent events w k) (returns : World.step last w = .ok w') :
    ∃ k', Consistent (events ++ [last]) w' k' := by
  cases last with
  | push pixel =>
      cases returns
      exact ⟨_, consistent.push pixel⟩
  | call =>
      rw [World.step, go] at returns
      by_cases none : w.c.image.size = 0
      · rw [downSample_of_empty none] at returns
        cases returns
        exact ⟨_, consistent.idle⟩
      · by_cases enough : framePixels ≤ w.c.image.size
        · obtain ⟨c, calls, ran⟩ := downSample_of_frame (c := w.c) enough
          rw [calls] at returns
          cases returns
          have shorter := w.c.image.size_le_length
          rw [consistent.length_image] at shorter
          exact ⟨_, consistent.frame (enough.trans shorter) ran⟩
        · obtain ⟨c, faults, -⟩ := downSample_of_short (c := w.c) none (Nat.not_le.mp enough)
          rw [faults] at returns
          cases returns
  | pop =>
      rw [World.step] at returns
      cases taken : w.c.downImage.read with
      | none =>
          rw [taken] at returns
          cases returns
      | some front =>
          rw [taken] at returns
          cases returns
          exact ⟨_, consistent.pop taken⟩

private theorem start_consistent (s : Statics) : Consistent [] (World.start s) Counts.start where
  pushed := rfl
  whole := Nat.zero_le _
  image := List.drop_nil.symm
  outputs := rfl
  popped := rfl

/-- The rule for runs, at the block and the counts. -/
private theorem world_matches (s : Statics) (events : List Event) (within : Within events) :
    Matches (Consistent events) (· = Fault.readFromEmptyChannel)
      (run World.step events (World.start s)) (run Counts.step events Counts.start) :=
  run_matches Within (fun _ _ within => within.closed) (start_consistent s)
    (fun events last _ k within reached consistent => step_matches last
      (within events (List.prefix_append _ _) k reached) consistent)
    events within

/-- Where the counts go, the block goes. -/
private theorem world_reaches (s : Statics) {events : List Event} {k : Counts}
    (within : Within events) (reached : run Counts.step events Counts.start = some k) :
    ∃ w, run World.step events (World.start s) = .ok w ∧ Consistent events w k := by
  have both := world_matches s events within
  rw [reached] at both
  exact both.of_some

/-- **The block in its environment.** From any statics, in any order of writes, calls and
reads that never leaves `2 ^ 32` entries in a channel, the counts say whether an assertion
fails. Until then no pixel is lost and no value is duplicated: the input holds the pixels
that were written behind the consumed frames, and what was read and what is in the output
are the reductions of the consumed frames. -/
theorem World.refines_counts (s : Statics) (events : List Event) (within : Within events) :
    (∀ k, run Counts.step events Counts.start = some k →
      ∃ w, run World.step events (World.start s) = .ok w ∧ Consistent events w k) ∧
    (run Counts.step events Counts.start = none →
      run World.step events (World.start s) = .error .readFromEmptyChannel) := by
  refine ⟨fun k reached => world_reaches s within reached, fun refused => ?_⟩
  have both := world_matches s events within
  rw [refused] at both
  obtain ⟨fault, faults, rfl⟩ := both.of_none
  exact faults

/-- A frame of pixels of one brightness. -/
def bright : List Uint8 := List.replicate framePixels 200

/-- The reduction of a bright frame. -/
theorem outputsOf_bright : outputsOf bright 1 = List.replicate frameValues 200 := by
  have pixels : ∀ t < framePixels, bright.getD (0 * framePixels + t) 0 = 200 := by
    intro t below
    rw [Nat.zero_mul, Nat.zero_add, bright, List.getD_eq_getElem?_getD, List.getElem?_replicate,
      if_pos below, Option.getD_some]
  have frame : reduced (fun t => bright.getD (0 * framePixels + t) 0) frameValues =
      reduced (fun _ => 200) frameValues := by
    rw [← outputsAfter_framePixels]
    exact reduced_congr _ pixels
  have mean (k : ℕ) : reducedPixel (fun _ => 200) k = 200 := by
    apply BitVec.eq_of_toNat_eq
    rw [reducedPixel_toNat]
    change (200 + 200 + 200 + 200) / 4 = 200
    rfl
  rw [outputsOf_succ, frame, reduced, funext mean, List.map_const', List.length_range]
  rfl

private theorem run_writes (pixels : List Uint8) :
    run Counts.step (pixels.map .push) Counts.start = some ⟨pixels.length, 0, 0⟩ := by
  induction pixels using List.reverseRecOn with
  | nil => rfl
  | append_singleton pixels last ih =>
      rw [List.map_append, List.map_singleton, run_concat, ih, List.length_append]
      rfl

/-- The counts after a frame was written and consumed, and after one value was read. -/
private theorem run_bright :
    run Counts.step (bright.map .push ++ [.call]) Counts.start = some ⟨framePixels, 1, 0⟩ ∧
      run Counts.step (bright.map .push ++ [.call] ++ [.pop]) Counts.start =
        some ⟨framePixels, 1, 1⟩ := by
  have length : bright.length = framePixels := List.length_replicate
  have called : run Counts.step (bright.map .push ++ [.call]) Counts.start =
      some ⟨framePixels, 1, 0⟩ := by
    rw [run_concat, run_writes, length]
    rfl
  refine ⟨called, ?_⟩
  rw [run_concat, called]
  rfl

private theorem within_bright : Within (bright.map .push ++ [.call] ++ [.pop]) := by
  apply within_of_length
  rw [List.length_append, List.length_append, List.length_map, bright, List.length_replicate]
  decide

/-- A frame is written and consumed, and a value of its reduction is read; and a call on a
single pixel asserts. -/
theorem World.refines_counts_bright :
    (∃ w, run World.step (bright.map .push ++ [.call] ++ [.pop]) (World.start Statics.zero) =
        .ok w ∧ w.popped ++ w.c.downImage.ch = List.replicate frameValues 200 ∧
      w.popped.length = 1 ∧ w.c.image.ch = []) ∧
    run World.step [.push 7, .call] (World.start Statics.zero) = .error .readFromEmptyChannel := by
  constructor
  · obtain ⟨w, returns, consistent⟩ :=
      (World.refines_counts Statics.zero _ within_bright).1 _ run_bright.2
    have pushed : pushedOf (bright.map .push ++ [.call] ++ [.pop]) = bright := by
      rw [pushedOf_pop, pushedOf_call, pushedOf_map_push]
    have outputs := consistent.outputs
    have image := consistent.image
    rw [pushed] at outputs image
    refine ⟨w, returns, outputs.trans outputsOf_bright, consistent.popped, image.trans ?_⟩
    rw [bright, List.drop_replicate]
    rfl
  · exact (World.refines_counts Statics.zero [.push 7, .call] (within_of_length (by decide))).2
      (by decide)

/-- **Schedules agree.** Whatever the order of writes, calls and reads, whatever the statics
and however much the channels hold, two runs on the same pixels that return produce the same
values as far as both go, and the same values altogether when they leave equally many
pixels in the input. -/
theorem World.outputs_agree {s s' : Statics} {events events' : List Event}
    (same : pushedOf events = pushedOf events') {w w' : World}
    (runs : run World.step events (World.start s) = .ok w)
    (runs' : run World.step events' (World.start s') = .ok w')
    (fewer : w'.c.image.ch.length ≤ w.c.image.ch.length) :
    w.popped ++ w.c.downImage.ch <+: w'.popped ++ w'.c.downImage.ch ∧
      (w.c.image.ch.length = w'.c.image.ch.length →
        w.popped ++ w.c.downImage.ch = w'.popped ++ w'.c.downImage.ch) := by
  have reached {s : Statics} {events : List Event} {w : World}
      (runs : run World.step events (World.start s) = .ok w) : ∃ k, Consistent events w k := by
    refine run_invariant (fun events w => ∃ k, Consistent events w k) ?_ ?_ runs
    · exact ⟨_, start_consistent s⟩
    · rintro events last w w' ⟨k, consistent⟩ returns
      exact step_consistent last consistent returns
  obtain ⟨k, consistent⟩ := reached runs
  obtain ⟨k', consistent'⟩ := reached runs'
  have pushed : k.pushed = k'.pushed := by rw [consistent.pushed, consistent'.pushed, same]
  have positive : 0 < framePixels := by decide
  have length := consistent.length_image
  have length' := consistent'.length_image
  have whole := consistent.whole
  have whole' := consistent'.whole
  unfold Counts.pending at length length'
  rw [consistent.outputs, consistent'.outputs, same]
  constructor
  · have frames : k.frames * framePixels ≤ k'.frames * framePixels := by omega
    exact outputsOf_prefix _ (Nat.le_of_mul_le_mul_right frames positive)
  · intro equally
    have frames : k.frames * framePixels = k'.frames * framePixels := by omega
    rw [Nat.eq_of_mul_eq_mul_right positive frames]

/-- A frame is written and consumed; in one run a value is read as well. -/
theorem World.outputs_agree_bright :
    ∃ w w', run World.step (bright.map .push ++ [.call] ++ [.pop]) (World.start Statics.zero) =
        .ok w ∧
      run World.step (bright.map .push ++ [.call]) (World.start Statics.zero) = .ok w' ∧
      w.popped.length = 1 ∧ w'.popped.length = 0 ∧
      w.popped ++ w.c.downImage.ch = w'.popped ++ w'.c.downImage.ch := by
  obtain ⟨w, runs, consistent⟩ := world_reaches Statics.zero within_bright run_bright.2
  obtain ⟨w', runs', consistent'⟩ :=
    world_reaches Statics.zero within_bright.closed run_bright.1
  have equally : w.c.image.ch.length = w'.c.image.ch.length := by
    rw [consistent.length_image, consistent'.length_image, Counts.pending, Counts.pending]
  exact ⟨w, w', runs, runs', consistent.popped, consistent'.popped,
    (World.outputs_agree (pushedOf_pop _) runs runs' equally.ge).2 equally⟩

end DownSample
