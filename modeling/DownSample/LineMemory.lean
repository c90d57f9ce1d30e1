import DownSample.Instances
import DownSample.Library.Timeline
import Mathlib.Data.List.Chain
import Mathlib.Data.List.Range

/-! # The access schedule of the line memory

Every line of a frame accesses every word of `line0` once: even lines write it, odd lines
read it. A frame has an even number of lines, so the schedule of a run of frames is
the one of a single long frame (`DownSample.accessesAt_frame`), and at each address writes
and reads alternate at fixed distances across the seams too. The schedule is what
lets the design map `line0` to a memory with one read port and one write port inside a
loop that starts an iteration every cycle.
-/

namespace DownSample

open Imperative Timeline

/-- A call on the statics that the calls before it left, with the channels it finds. -/
def callOn (ports : Ports) : EStateM Fault Statics Unit := fun s =>
  match runOn (s, ports) with
  | .ok _ next => .ok () next.1
  | .error fault next => .error fault next.1

/-- Successive calls. The channels of each are given, whatever was written to them or
read from them between the calls. -/
def successiveCalls : List Ports → EStateM Fault Statics Unit
  | [] => pure ()
  | ports :: rest => do
    callOn ports
    successiveCalls rest

/-- The accesses to one word of `line0` in a record of iterations, with the iteration of
each. -/
def accessesTo (log : List (List Access)) (a : ℕ) : List (ℕ × Access) :=
  events (fun t => (log.getD t []).filter fun access => access.addr = a) log.length

/-- What the next access to a word is: a read 751 iterations after a write, and a write
753 iterations after a read. -/
def Alternates : ℕ × Access → ℕ × Access → Prop
  | (t, .write _), (u, .read _) => u = t + 751
  | (t, .read _), (u, .write _) => u = t + 753
  | _, _ => False

/-! ## The schedule -/

/-- The access of a line to word `a`. -/
def accessOf (a line : ℕ) : Access := if line % 2 = 0 then .write a else .read a

/-- The column in which a line accesses word `a`. -/
def columnOf (a line : ℕ) : ℕ := 2 * a + (1 - line % 2)

theorem addr_accessOf (a line : ℕ) : (accessOf a line).addr = a := by
  unfold accessOf
  split <;> rfl

/-- A line accesses a word in every second column. -/
theorem accessesAt_line (line : ℕ) {c : ℕ} (below : c < 752) :
    accessesAt (line * 752 + c) =
      if c % 2 = 1 - line % 2 then [accessOf (c / 2) line] else [] := by
  have row : (line * 752 + c) / 752 = line := by omega
  have column : (line * 752 + c) % 752 = c := by omega
  rw [accessesAt, accessOf, row, column]
  rcases Nat.mod_two_eq_zero_or_one line with even | odd
  · rw [if_pos even, if_pos even, even]
  · rw [odd, if_neg one_ne_zero, if_neg one_ne_zero]

/-- A line accesses word `a` once. -/
theorem accessesAt_word {a : ℕ} (line : ℕ) {c : ℕ} (below : c < 752) :
    ((accessesAt (line * 752 + c)).filter fun access => access.addr = a) =
      if c = columnOf a line then [accessOf a line] else [] := by
  rw [accessesAt_line line below, columnOf]
  by_cases accesses : c % 2 = 1 - line % 2
  · rw [if_pos accesses, List.filter_singleton, addr_accessOf]
    by_cases word : c / 2 = a
    · rw [if_pos (by omega), decide_eq_true word, word]
      rfl
    · rw [if_neg (by omega), decide_eq_false word]
      rfl
  · rw [if_neg accesses, if_neg (by omega), List.filter_nil]

theorem accessesAt_single (t : ℕ) :
    (accessesAt t).length ≤ 1 ∧ ∀ access ∈ accessesAt t, access.addr < 376 := by
  have place : t / 752 * 752 + t % 752 = t := by omega
  have inside : t % 752 / 2 < 376 := by omega
  rw [← place, accessesAt_line _ (Nat.mod_lt _ (by decide))]
  split
  · refine ⟨le_rfl, fun access member => ?_⟩
    rw [List.mem_singleton.mp member, addr_accessOf]
    exact inside
  · exact ⟨Nat.zero_le _, fun _ member => absurd member List.not_mem_nil⟩

/-- The schedule repeats from frame to frame. -/
theorem accessesAt_frame (t : ℕ) : accessesAt (480 * 752 + t) = accessesAt t := by
  have row : (480 * 752 + t) / 752 = 480 + t / 752 := by omega
  have column : (480 * 752 + t) % 752 = t % 752 := by omega
  have parity : (480 + t / 752) % 2 = t / 752 % 2 := by omega
  rw [accessesAt, accessesAt, row, column, parity]

/-- The schedule of frames, as a record of their iterations. -/
def schedule (frames : ℕ) : List (List Access) :=
  (List.range (frames * (480 * 752))).map accessesAt

theorem schedule_succ (frames : ℕ) : schedule (frames + 1) = schedule 1 ++ schedule frames := by
  have same : (accessesAt ∘ fun t => 480 * 752 + t) = accessesAt := funext accessesAt_frame
  rw [schedule, schedule, schedule, Nat.add_mul, Nat.add_comm, List.range_add, List.map_append,
    Nat.one_mul, List.map_map, same]

/-- The accesses to a word are one a line. -/
theorem accessesTo_schedule {a : ℕ} (inside : a < 376) (frames : ℕ) :
    accessesTo (schedule frames) a =
      (List.range (frames * 480)).map fun line =>
        (line * 752 + columnOf a line, accessOf a line) := by
  have steps : (schedule frames).length = frames * 480 * 752 := by
    rw [schedule, List.length_map, List.length_range, Nat.mul_assoc]
  have recorded : ∀ t < frames * 480 * 752, ((schedule frames).getD t []).filter
      (fun access => access.addr = a) = (accessesAt t).filter fun access => access.addr = a := by
    intro t below
    rw [← steps] at below
    rw [List.getD_eq_getElem?_getD, List.getElem?_eq_getElem below, Option.getD_some]
    simp only [schedule, List.getElem_map, List.getElem_range]
  rw [accessesTo, steps, events_congr recorded]
  refine events_of_periods (columnOf a) (accessOf a) (fun line => ?_)
    (fun line c below => accessesAt_word line below) (frames * 480)
  unfold columnOf
  omega

/-! ## Runs -/

/-- A call on a frame adds one frame to the record. -/
theorem callOn_of_frame (s : Statics) (ports : Ports) (enough : 480 * 752 ≤ ports.image.size) :
    ∃ s', callOn ports s = .ok () s' ∧
      s'.rawLnData.accesses = (schedule 1).reverse ++ s.rawLnData.accesses := by
  obtain ⟨final, returns, ran⟩ :=
    downSample_of_frame (c := ⟨s, ports.image, ports.downImage⟩) enough
  refine ⟨final.statics, ?_, ?_⟩
  · unfold callOn runOn
    rw [TopDownSample.run, returns]
  · rw [ran.accesses, schedule, Nat.one_mul]

/-- Complete calls return and record the schedule of as many frames. -/
theorem successiveCalls_record (calls : List Ports) (s : Statics)
    (complete : ∀ ports ∈ calls, 480 * 752 ≤ ports.image.size) :
    ∃ final, successiveCalls calls s = .ok () final ∧
      final.rawLnData.accesses = (schedule calls.length).reverse ++ s.rawLnData.accesses := by
  induction calls generalizing s with
  | nil => exact ⟨s, rfl, by rw [List.length_nil, schedule, Nat.zero_mul]; rfl⟩
  | cons ports rest ih =>
      obtain ⟨middle, call, first⟩ := callOn_of_frame s ports (complete _ List.mem_cons_self)
      obtain ⟨final, run, later⟩ :=
        ih middle fun other member => complete other (List.mem_cons_of_mem _ member)
      refine ⟨final, (bind_of_ok call).trans run, ?_⟩
      rw [later, first, List.length_cons, schedule_succ rest.length, List.reverse_append,
        List.append_assoc]

/-- **The line memory schedule.** In successive complete calls, from any statics, every
iteration makes at most one access to `line0`, inside it. The accesses to each word start
with a write and alternate, a read 751 iterations after its write and a write 753
iterations after the read before it, so any two are at least 751 iterations apart. -/
theorem lineMemory_schedule (calls : List Ports) (nonempty : calls ≠ [])
    (complete : ∀ ports ∈ calls, 480 * 752 ≤ ports.image.ch.length % 2 ^ 32) (s : Statics) :
    ∃ final log, successiveCalls calls s = .ok () final ∧
      final.rawLnData.accesses = log.reverse ++ s.rawLnData.accesses ∧
      log.length = calls.length * (480 * 752) ∧
      (∀ accesses ∈ log, accesses.length ≤ 1 ∧ ∀ access ∈ accesses, access.addr < 376) ∧
      ∀ a < 376, (accessesTo log a).head? = some (2 * a + 1, .write a) ∧
        (accessesTo log a).IsChain Alternates ∧
        (accessesTo log a).Pairwise fun earlier later => earlier.1 + 751 ≤ later.1 := by
  obtain ⟨final, run, record⟩ := successiveCalls_record calls s complete
  refine ⟨final, schedule calls.length, run, record, ?_, ?_, ?_⟩
  · rw [schedule, List.length_map, List.length_range]
  · intro accesses member
    obtain ⟨t, -, rfl⟩ := List.mem_map.mp member
    exact accessesAt_single t
  · intro a inside
    rw [accessesTo_schedule inside]
    refine ⟨?_, ?_, ?_⟩
    · have lines : calls.length * 480 ≠ 0 :=
        Nat.mul_ne_zero (fun none => nonempty (List.length_eq_zero_iff.mp none)) (by decide)
      rw [List.head?_map, List.head?_range, if_neg lines, Option.map_some, columnOf, accessOf,
        Nat.zero_mul, Nat.zero_add, Nat.zero_mod, if_pos rfl]
    · rw [List.isChain_map, List.isChain_range]
      intro line _
      unfold columnOf accessOf
      rcases Nat.mod_two_eq_zero_or_one line with even | odd
      · rw [if_pos even, if_neg (by omega)]
        change _ = _
        omega
      · rw [if_neg (by omega), if_pos (by omega)]
        change _ = _
        omega
    · rw [List.pairwise_map]
      refine List.pairwise_lt_range.imp fun {earlier later} before => ?_
      unfold columnOf
      omega

/-- The schedule of two black frames in a row. -/
theorem lineMemory_schedule_black :
    ∃ final log,
      successiveCalls (List.replicate 2 ⟨⟨Frame.black.pixels⟩, ⟨[]⟩⟩) Statics.zero =
        .ok () final ∧
      final.rawLnData.accesses = log.reverse ∧ log.length = 2 * (480 * 752) ∧
      (accessesTo log 0).head? = some (1, .write 0) ∧ (accessesTo log 0).IsChain Alternates := by
  have complete : ∀ frame : Frame,
      ∀ ports ∈ List.replicate 2 (⟨⟨frame.pixels⟩, ⟨[]⟩⟩ : Ports),
        480 * 752 ≤ ports.image.ch.length % 2 ^ 32 := by
    intro frame ports member
    rw [List.eq_of_mem_replicate member, frame.complete]
    decide
  have nonempty : List.replicate 2 (⟨⟨Frame.black.pixels⟩, ⟨[]⟩⟩ : Ports) ≠ [] :=
    List.cons_ne_nil _ _
  obtain ⟨final, log, run, record, length, -, words⟩ :=
    lineMemory_schedule _ nonempty (complete Frame.black) Statics.zero
  rw [List.length_replicate] at length
  obtain ⟨head, chain, -⟩ := words 0 (by decide)
  exact ⟨final, log, run, record.trans (List.append_nil _), length, head, chain⟩

end DownSample
