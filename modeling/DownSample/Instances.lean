import DownSample.Driver
import DownSample.Library.Interleaving

/-! # Instances that share their statics

The line buffer and the shift register are function statics of the member function
`DownSample`, so all objects of `top_DownSample` work on the same ones, each with its own
pair of channels. A call forgets the statics: whether it returns, what it takes from
its input and what it appends to its output depend on the channels alone
(`DownSample.runOn_forgetful`). The instances therefore do not notice each other, as long
as no call asserts; an assertion in one instance ends the run for all of them
(`DownSample.undisturbed_iff`). The lengths of the inputs at the start and the number of calls
of each instance decide whether one does (`DownSample.undisturbed_iff_lengths`).
-/

namespace DownSample

open Imperative Interleaving

/-- The channels of one instance. -/
structure Ports where
  image : AcChannel Uint8
  downImage : AcChannel Uint8

/-- `run` on the shared statics and the channels of the instance it is called on. -/
def runOn : EStateM Fault (Statics × Ports) Unit := fun state =>
  match TopDownSample.run ⟨state.1, state.2.image, state.2.downImage⟩ with
  | .ok _ c => .ok () (c.statics, ⟨c.image, c.downImage⟩)
  | .error fault c => .error fault (c.statics, ⟨c.image, c.downImage⟩)

/-- The guard of a call tells the truth: nothing to read, or a whole frame. -/
def Ports.Ready (ports : Ports) : Prop :=
  ports.image.ch.length % 2 ^ 32 = 0 ∨ 480 * 752 ≤ ports.image.ch.length % 2 ^ 32

section Calls

variable (s : Statics) (ports : Ports)

theorem runOn_of_empty (empty : ports.image.size = 0) :
    runOn (s, ports) = .ok () (s, ports) := by
  have returns : TopDownSample.run ⟨s, ports.image, ports.downImage⟩ = _ :=
    downSample_of_empty empty
  unfold runOn
  rw [returns]

theorem runOn_of_frame (enough : 480 * 752 ≤ ports.image.size) :
    ∃ s', runOn (s, ports) = .ok () (s', ⟨ports.image.drop (480 * 752),
      ⟨ports.downImage.ch ++ reduced ports.image.stream (240 * 376)⟩⟩) := by
  obtain ⟨final, returns, ran⟩ :=
    downSample_of_frame (c := ⟨s, ports.image, ports.downImage⟩) enough
  have written : final.downImage =
      ⟨ports.downImage.ch ++ reduced ports.image.stream (240 * 376)⟩ := by
    rw [← outputsAfter_frame]
    exact congrArg AcChannel.mk ran.downImage
  refine ⟨final.statics, ?_⟩
  unfold runOn
  rw [TopDownSample.run, returns, ← written]
  simp only [ran.image]

theorem runOn_of_short (ready : ports.image.size ≠ 0) (short : ports.image.size < 480 * 752) :
    ∃ s', runOn (s, ports) = .error .readFromEmptyChannel (s',
      ⟨ports.image.drop ports.image.size,
        ⟨ports.downImage.ch ++ reduced ports.image.stream (outputsAfter ports.image.size)⟩⟩) := by
  obtain ⟨final, faults, ran⟩ :=
    downSample_of_short (c := ⟨s, ports.image, ports.downImage⟩) ready short
  have written : final.downImage =
      ⟨ports.downImage.ch ++ reduced ports.image.stream (outputsAfter ports.image.size)⟩ :=
    congrArg AcChannel.mk ran.downImage
  refine ⟨final.statics, ?_⟩
  unfold runOn
  rw [TopDownSample.run, faults, ← written]
  simp only [ran.image]

end Calls

/-- **A call forgets the statics.** Its effect on the channels, its fault included, is
the same from any of them. -/
theorem runOn_forgetful : Forgetful runOn := by
  intro s s' ports
  by_cases empty : ports.image.size = 0
  · rw [runOn_of_empty s ports empty, runOn_of_empty s' ports empty]
    rfl
  · by_cases short : ports.image.size < 480 * 752
    · obtain ⟨left, faults⟩ := runOn_of_short s ports empty short
      obtain ⟨left', faults'⟩ := runOn_of_short s' ports empty short
      rw [faults, faults']
      rfl
    · obtain ⟨left, returns⟩ := runOn_of_frame s ports (by omega)
      obtain ⟨left', returns'⟩ := runOn_of_frame s' ports (by omega)
      rw [returns, returns']
      rfl

/-- A call returns exactly when its guard tells the truth. -/
theorem runOn_returns_iff (s : Statics) (ports : Ports) :
    (∃ next, runOn (s, ports) = .ok () next) ↔ ports.Ready := by
  refine Iff.trans ?_ (downSample_returns_iff (c := ⟨s, ports.image, ports.downImage⟩))
  unfold runOn
  rw [TopDownSample.run]
  constructor
  · rintro ⟨next, returns⟩
    cases call : downSample ⟨s, ports.image, ports.downImage⟩ with
    | ok _ final => exact ⟨final, rfl⟩
    | error fault final =>
        rw [call] at returns
        cases returns
  · rintro ⟨final, returns⟩
    rw [returns]
    exact ⟨_, rfl⟩

section Runs

variable {ι : Type} [DecidableEq ι]

/-- The calls of a schedule return and leave the channels of each instance as its own
calls leave them when it makes them alone, from any statics; a call on an empty input
changes nothing. -/
def Undisturbed (ports : ι → Ports) (s : Statics) (schedule : List ι) : Prop :=
  (∃ final, interleaved runOn schedule (s, ports) = .ok () final ∧
    ∀ m s', ∃ left, alone runOn (schedule.count m) (s', ports m) = .ok () (left, final.2 m)) ∧
  ∀ (m : ι) (state : Statics × (ι → Ports)), (state.2 m).image.ch = [] →
    byClient runOn m state = .ok () state

theorem byClient_of_empty (m : ι) (state : Statics × (ι → Ports))
    (empty : (state.2 m).image.ch = []) : byClient runOn m state = .ok () state := by
  have size : (state.2 m).image.size = 0 := by rw [AcChannel.size, empty]; rfl
  rw [byClient_of_ok (runOn_of_empty _ _ size), Function.update_eq_self]

private theorem undisturbed_of_returns {ports : ι → Ports} {s : Statics} {schedule : List ι}
    (returns : ∃ final, interleaved runOn schedule (s, ports) = .ok () final) :
    Undisturbed ports s schedule := by
  obtain ⟨final, run⟩ := returns
  exact ⟨⟨final, run, fun m s' => interleaved_alone runOn_forgetful run m s'⟩, byClient_of_empty⟩

/-- **Noninterference.** Instances that share the statics are undisturbed exactly in the
schedules whose every call finds its input with nothing to read or with a whole frame,
so that no call asserts. -/
theorem undisturbed_iff (ports : ι → Ports) (s : Statics) (schedule : List ι) :
    Undisturbed ports s schedule ↔ AllEnabled runOn Ports.Ready schedule (s, ports) := by
  rw [← interleaved_returns_iff runOn_returns_iff]
  constructor
  · rintro ⟨⟨final, run, -⟩, -⟩
    exact ⟨final, run⟩
  · exact undisturbed_of_returns

/-- A length at which the guard of a call tells the truth. -/
def Truthful (length : ℕ) : Prop := length % 2 ^ 32 = 0 ∨ 480 * 752 ≤ length % 2 ^ 32

/-- The length of the input after a call that returns. -/
def lengthAfter (length : ℕ) : ℕ := if length % 2 ^ 32 = 0 then length else length - 480 * 752

/-- How many pixels a call leaves in its input depends on how many there were. -/
theorem length_of_runOn {s : Statics} {ports : Ports} {final : Statics × Ports}
    (returns : runOn (s, ports) = .ok () final) :
    final.2.image.ch.length = lengthAfter ports.image.ch.length := by
  by_cases empty : ports.image.size = 0
  · rw [runOn_of_empty s ports empty] at returns
    cases returns
    exact (if_pos empty).symm
  · by_cases short : ports.image.size < 480 * 752
    · obtain ⟨left, faults⟩ := runOn_of_short s ports empty short
      rw [faults] at returns
      cases returns
    · obtain ⟨left, calls⟩ := runOn_of_frame s ports (by omega)
      rw [calls] at returns
      cases returns
      have shorter : lengthAfter ports.image.ch.length = ports.image.ch.length - 480 * 752 :=
        if_neg empty
      rw [AcChannel.ch_drop, List.length_drop, shorter]

/-- **Noninterference, from the start alone.** Whether a schedule is undisturbed is decided by
the lengths of the inputs at its start and the number of calls that each instance makes, not
by the order of the calls, the statics or the pixels. -/
theorem undisturbed_iff_lengths (ports : ι → Ports) (s : Statics) (schedule : List ι) :
    Undisturbed ports s schedule ↔
      ∀ m, ∀ i < schedule.count m, Truthful (lengthAfter^[i] (ports m).image.ch.length) := by
  have told (own : Ports) : own.Ready ↔ Truthful own.image.ch.length := Iff.rfl
  have decided : AllEnabled runOn Ports.Ready schedule (s, ports) ↔
      ∀ m, ∀ i < schedule.count m, Truthful (lengthAfter^[i] (ports m).image.ch.length) :=
    allEnabled_iff_measure (fun own : Ports => own.image.ch.length) lengthAfter told
      runOn_returns_iff (fun _ _ _ => length_of_runOn) schedule (s, ports)
  rw [← decided, ← interleaved_returns_iff runOn_returns_iff]
  constructor
  · rintro ⟨⟨final, run, -⟩, -⟩
    exact ⟨final, run⟩
  · exact undisturbed_of_returns

/-- An input that holds whole frames, fewer than `2 ^ 32` pixels of them. -/
def Ports.WholeFrames (ports : Ports) : Prop :=
  ∃ frames, ports.image = .ofFrames frames ∧ frames.length * (480 * 752) < 2 ^ 32

theorem Ports.WholeFrames.ready {ports : Ports} (whole : ports.WholeFrames) : ports.Ready := by
  obtain ⟨frames, image, small⟩ := whole
  rw [Ready, image, AcChannel.length_ofFrames, Nat.mod_eq_of_lt small]
  cases frames with
  | nil => exact Or.inl rfl
  | cons frame rest =>
      refine Or.inr (Nat.le_mul_of_pos_left _ ?_)
      rw [List.length_cons]
      exact Nat.succ_pos _

/-- A call on whole frames leaves whole frames. -/
theorem Ports.WholeFrames.kept {s : Statics} {ports : Ports} {next : Statics × Ports}
    (whole : ports.WholeFrames) (returns : runOn (s, ports) = .ok () next) :
    next.2.WholeFrames := by
  obtain ⟨frames, image, small⟩ := whole
  cases frames with
  | nil =>
      rw [runOn_of_empty s ports (by rw [image]; rfl)] at returns
      cases returns
      exact ⟨[], image, small⟩
  | cons frame rest =>
      have size := AcChannel.size_ofFrames _ small
      rw [← image] at size
      have enough : 480 * 752 ≤ ports.image.size := by
        rw [size, List.length_cons]
        exact Nat.le_mul_of_pos_left _ (Nat.succ_pos _)
      obtain ⟨left, calls⟩ := runOn_of_frame s ports enough
      rw [calls] at returns
      cases returns
      refine ⟨rest, ?_, lt_of_le_of_lt (Nat.mul_le_mul_right _ (Nat.le_succ _)) small⟩
      change ports.image.drop (480 * 752) = _
      rw [image, AcChannel.ofFrames_cons, AcChannel.drop, ← frame.complete, List.drop_left]

/-- Instances whose inputs hold whole frames, fewer than `2 ^ 32` pixels each, are
undisturbed in every schedule. -/
theorem undisturbed_of_wholeFrames (ports : ι → Ports) (s : Statics) (schedule : List ι)
    (whole : ∀ m, (ports m).WholeFrames) : Undisturbed ports s schedule := by
  have enabled : AllEnabled runOn Ports.Ready schedule (s, ports) :=
    allEnabled_of_invariant (fun _ holds => holds.ready) (fun _ _ _ holds => holds.kept)
      runOn_returns_iff schedule (s, ports) whole
  exact undisturbed_of_returns ((interleaved_returns_iff runOn_returns_iff _ _).mpr enabled)

end Runs

/-- Two instances: one with 11899 frames in its input, and one with a single frame. -/
def crowded : Bool → Ports
  | false => ⟨.ofFrames (List.replicate 11899 Frame.black), ⟨[]⟩⟩
  | true => ⟨.ofFrames [Frame.black], ⟨[]⟩⟩

/-- The call of the crowded instance asserts and keeps the other from the call that
alone would have consumed its frame. -/
theorem crowded_disturbs :
    (after (interleaved runOn [false, true] (Statics.zero, crowded))).2 true ≠
      (after (alone runOn ([false, true].count true) (Statics.zero, crowded true))).2 ∧
    ¬ Undisturbed crowded Statics.zero [false, true] := by
  have size : (crowded false).image.size = 95744 := by
    have image : (crowded false).image = .ofFrames (List.replicate 11899 Frame.black) := rfl
    rw [image, AcChannel.size, AcChannel.length_ofFrames, List.length_replicate,
      show 11899 * (480 * 752) % 2 ^ 32 = 95744 by decide]
  have single : (crowded true).image.size = 480 * 752 := AcChannel.size_ofFrames _ (by decide)
  obtain ⟨left, faults⟩ := runOn_of_short Statics.zero (crowded false) (by rw [size]; decide)
    (by rw [size]; decide)
  obtain ⟨left', returns⟩ := runOn_of_frame Statics.zero (crowded true) (by rw [single])
  have run : interleaved runOn [false, true] (Statics.zero, crowded) = .error _ _ :=
    bind_of_error (byClient_of_error faults)
  have solo : alone runOn ([false, true].count true) (Statics.zero, crowded true) = .ok () _ :=
    bind_of_ok returns
  constructor
  · rw [run, solo]
    intro same
    have lengths := congrArg (fun ports : Ports => ports.image.ch.length) same
    simp only [after_error, after_ok, Function.update_of_ne (show true ≠ false by decide),
      AcChannel.ch_drop, List.length_drop] at lengths
    have whole : (crowded true).image.ch.length = 480 * 752 := AcChannel.length_ofFrames _
    rw [whole] at lengths
    exact absurd lengths (by decide)
  · rintro ⟨⟨final, returned, -⟩, -⟩
    rw [run] at returned
    cases returned

end DownSample
