import Mathlib.Data.List.Basic
import Mathlib.Tactic.Linarith

/-! # Events along a timeline

A timeline gives the events of every step. `Timeline.events` lists the events of its
first steps with the step each happens in. When the timeline is cut into periods and
every period has one event, the list has one entry a period
(`Timeline.events_of_periods`), so what consecutive events are to each other is a matter of
consecutive periods.
-/

namespace Timeline

variable {Event Item : Type*}

/-- The events of the first `steps` steps, with the step of each. -/
def events (timeline : ℕ → List Event) (steps : ℕ) : List (ℕ × Event) :=
  (List.range steps).flatMap fun t => (timeline t).map (t, ·)

/-- Going through whole periods is going through each of them in turn. -/
theorem flatMap_range_mul (f : ℕ → List Item) (periods length : ℕ) :
    (List.range (periods * length)).flatMap f =
      (List.range periods).flatMap fun j =>
        (List.range length).flatMap fun c => f (j * length + c) := by
  induction periods with
  | zero => rw [Nat.zero_mul, List.range_zero, List.flatMap_nil, List.flatMap_nil]
  | succ periods ih =>
      rw [Nat.add_mul, Nat.one_mul, List.range_add, List.flatMap_append, ih, List.range_succ,
        List.flatMap_append, List.flatMap_map, List.flatMap_singleton]

theorem flatMap_range_of_single {f : ℕ → List Item} {length place : ℕ} (inside : place < length)
    (elsewhere : ∀ c < length, c ≠ place → f c = []) :
    (List.range length).flatMap f = f place := by
  induction length with
  | zero => omega
  | succ length ih =>
      rw [List.range_succ, List.flatMap_append, List.flatMap_singleton]
      by_cases last : place = length
      · subst last
        have before : (List.range place).flatMap f = [] := by
          rw [List.flatMap_eq_nil_iff]
          intro c member
          have below := List.mem_range.mp member
          exact elsewhere c (by omega) (by omega)
        rw [before, List.nil_append]
      · rw [ih (by omega) fun c below other => elsewhere c (by omega) other,
          elsewhere length (by omega) (by omega), List.append_nil]

/-- **One event a period.** If step `j * length + c` of every period `j` has an event exactly
when `c` is the place of the period, the events of the periods are listed by period. -/
theorem events_of_periods {timeline : ℕ → List Event} {length : ℕ} (place : ℕ → ℕ)
    (event : ℕ → Event) (inside : ∀ j, place j < length)
    (single : ∀ j, ∀ c < length,
      timeline (j * length + c) = if c = place j then [event j] else []) (periods : ℕ) :
    events timeline (periods * length) =
      (List.range periods).map fun j => (j * length + place j, event j) := by
  rw [events, flatMap_range_mul, ← List.flatMap_pure_eq_map]
  apply List.flatMap_congr
  intro j _
  rw [flatMap_range_of_single (inside j)]
  · rw [single j _ (inside j), if_pos rfl]
    rfl
  · intro c below other
    rw [single j c below, if_neg other, List.map_nil]

theorem events_congr {timeline other : ℕ → List Event} {steps : ℕ}
    (agree : ∀ t < steps, timeline t = other t) : events timeline steps = events other steps := by
  apply List.flatMap_congr
  intro t member
  rw [agree t (List.mem_range.mp member)]

end Timeline
