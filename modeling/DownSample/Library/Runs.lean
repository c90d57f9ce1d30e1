import Mathlib.Data.List.Induction

/-! # Runs of events and their simulation

A machine takes one event after the other and may refuse one. `Runs.run_matches` is the
rule for a concrete machine with faults against an abstract one: if every event that is
within the bounds takes related states to related states, or is refused by both, so does
every run. What is related may depend on the events so far, and so may the bounds, as long
as they hold of the beginnings of a run that is within them. `Runs.run_invariant` is the rule
for what every event keeps that returns.
-/

namespace Runs

variable {ε σ α event : Type}

section Run

variable {m : Type → Type} [Monad m] [LawfulMonad m]

/-- A machine after a list of events. -/
def run (step : event → σ → m σ) (events : List event) (s : σ) : m σ :=
  events.foldlM (fun s event => step event s) s

theorem run_concat (step : event → σ → m σ) (events : List event) (last : event) (s : σ) :
    run step (events ++ [last]) s = run step events s >>= step last := by
  simp only [run, List.foldlM_append, List.foldlM_cons, List.foldlM_nil, bind_pure]

end Run

/-- **What every returning event keeps** holds after every run that returns. -/
theorem run_invariant {step : event → σ → Except ε σ} (holds : List event → σ → Prop) {s₀ : σ}
    (start : holds [] s₀)
    (kept : ∀ events last s s', holds events s → step last s = .ok s' → holds (events ++ [last]) s')
    {events : List event} {s : σ} (returns : run step events s₀ = .ok s) : holds events s := by
  induction events using List.reverseRecOn generalizing s with
  | nil =>
      cases returns
      exact start
  | append_singleton events last ih =>
      rw [run_concat] at returns
      cases before : run step events s₀ with
      | error fault =>
          rw [before] at returns
          exact nomatch returns
      | ok s' =>
          rw [before] at returns
          exact kept events last s' s (ih before) returns

/-- Both machines are in related states, or both have refused, the concrete one with an
expected fault. -/
def Matches (related : σ → α → Prop) (expected : ε → Prop) : Except ε σ → Option α → Prop
  | .ok s, some a => related s a
  | .error fault, none => expected fault
  | _, _ => False

section Simulation

variable {expected : ε → Prop}

theorem Matches.of_some {related : σ → α → Prop} {result : Except ε σ} {a : α}
    (both : Matches related expected result (some a)) : ∃ s, result = .ok s ∧ related s a := by
  cases result with
  | ok s => exact ⟨s, rfl, both⟩
  | error fault => exact both.elim

theorem Matches.of_none {related : σ → α → Prop} {result : Except ε σ}
    (both : Matches related expected result (none : Option α)) :
    ∃ fault, result = .error fault ∧ expected fault := by
  cases result with
  | ok s => exact both.elim
  | error fault => exact ⟨fault, rfl, both⟩

/-- Matching results are continued alike. -/
theorem Matches.bind {τ β : Type} {related : σ → α → Prop} {continued : τ → β → Prop}
    {result : Except ε σ} {abstract : Option α} {next : σ → Except ε τ} {next' : α → Option β}
    (both : Matches related expected result abstract)
    (step : ∀ s a, related s a → Matches continued expected (next s) (next' a)) :
    Matches continued expected (result >>= next) (abstract >>= next') := by
  cases abstract with
  | none =>
      obtain ⟨fault, rfl, known⟩ := both.of_none
      exact known
  | some a =>
      obtain ⟨s, rfl, held⟩ := both.of_some
      exact step s a held

/-- **Simulation of runs.** The induction is on the events from the last one on, so that
what is related may speak of all events before. -/
theorem run_matches {concrete : event → σ → Except ε σ} {abstract : event → α → Option α}
    {related : List event → σ → α → Prop} {s₀ : σ} {a₀ : α} (within : List event → Prop)
    (closed : ∀ events last, within (events ++ [last]) → within events) (start : related [] s₀ a₀)
    (step : ∀ events last s a, within (events ++ [last]) → run abstract events a₀ = some a →
      related events s a →
      Matches (related (events ++ [last])) expected (concrete last s) (abstract last a))
    (events : List event) (inside : within events) :
    Matches (related events) expected (run concrete events s₀) (run abstract events a₀) := by
  induction events using List.reverseRecOn with
  | nil => exact start
  | append_singleton events last ih =>
      have before := ih (closed events last inside)
      rw [run_concat, run_concat]
      cases reached : run abstract events a₀ with
      | none =>
          rw [reached] at before
          obtain ⟨fault, faults, known⟩ := before.of_none
          rw [faults]
          exact known
      | some a =>
          rw [reached] at before
          obtain ⟨s, returns, held⟩ := before.of_some
          rw [returns]
          exact step events last s a inside reached held

end Simulation

end Runs
