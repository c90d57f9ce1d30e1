import DownSample.Library.Loop
import Mathlib.Data.List.Count
import Mathlib.Logic.Function.Basic

/-! # Clients of a shared scratch state

Clients take turns running one operation. Each has a private state of its own; all of
them share a scratch state that the operation may read and overwrite. An operation
forgets the scratch state if what it does to the private state, faults included, does
not depend on it. Then sharing goes unnoticed: in a run that returns, every client ends
as if it had made its own calls alone (`Interleaving.interleaved_alone`). A fault ends the
run of all the clients, so a run returns exactly when every call is enabled in the
state it starts in (`Interleaving.interleaved_returns_iff`). Where a measure of the private
state tells what is enabled, the measures at the start and the number of calls of each client
decide that (`Interleaving.allEnabled_iff_measure`).
-/

namespace Interleaving

open Imperative

variable {ε σ κ ι : Type} (op : EStateM ε (σ × κ) Unit)

/-- The private side of an outcome. -/
def privately : EStateM.Result ε (σ × κ) Unit → EStateM.Result ε κ Unit
  | .ok _ state => .ok () state.2
  | .error fault state => .error fault state.2

/-- What an operation does to the private state does not depend on the scratch state. -/
def Forgetful : Prop :=
  ∀ (scratch scratch' : σ) (own : κ), privately (op (scratch, own)) = privately (op (scratch', own))

/-- A number of calls by one client alone. -/
def alone : ℕ → EStateM ε (σ × κ) Unit
  | 0 => pure ()
  | count + 1 => do
    op
    alone count

/-- A forgetful call that returns from one scratch state returns from every other. -/
theorem Forgetful.returns {op : EStateM ε (σ × κ) Unit} (forgetful : Forgetful op) {scratch : σ}
    {own : κ} {next : σ × κ} (call : op (scratch, own) = .ok () next) (scratch' : σ) :
    ∃ left, op (scratch', own) = .ok () (left, next.2) := by
  have same := forgetful scratch' scratch own
  rw [call] at same
  cases other : op (scratch', own) with
  | ok _ final =>
      rw [other] at same
      injection same with _ privateSide
      exact ⟨final.1, by rw [← privateSide]⟩
  | error fault final =>
      rw [other] at same
      cases same

variable [DecidableEq ι]

/-- A call by one of the clients. -/
def byClient (m : ι) : EStateM ε (σ × (ι → κ)) Unit := fun state =>
  match op (state.1, state.2 m) with
  | .ok _ next => .ok () (next.1, Function.update state.2 m next.2)
  | .error fault next => .error fault (next.1, Function.update state.2 m next.2)

/-- The calls of a schedule, in order. -/
def interleaved : List ι → EStateM ε (σ × (ι → κ)) Unit
  | [] => pure ()
  | m :: rest => do
    byClient op m
    interleaved rest

/-- Every call of a schedule finds its client enabled when its turn comes. -/
def AllEnabled (enabled : κ → Prop) : List ι → σ × (ι → κ) → Prop
  | [], _ => True
  | m :: rest, state => enabled (state.2 m) ∧ AllEnabled enabled rest (after (byClient op m state))

variable {op}

theorem byClient_of_ok {m : ι} {state : σ × (ι → κ)} {next : σ × κ}
    (call : op (state.1, state.2 m) = .ok () next) :
    byClient op m state = .ok () (next.1, Function.update state.2 m next.2) := by
  unfold byClient
  rw [call]

theorem byClient_of_error {m : ι} {state : σ × (ι → κ)} {fault : ε} {next : σ × κ}
    (call : op (state.1, state.2 m) = .error fault next) :
    byClient op m state = .error fault (next.1, Function.update state.2 m next.2) := by
  unfold byClient
  rw [call]

theorem interleaved_cons_returns {m : ι} {rest : List ι} {state final : σ × (ι → κ)}
    (run : interleaved op (m :: rest) state = .ok () final) :
    ∃ next, op (state.1, state.2 m) = .ok () next ∧
      interleaved op rest (next.1, Function.update state.2 m next.2) = .ok () final := by
  cases call : op (state.1, state.2 m) with
  | ok _ next =>
      have first := byClient_of_ok call
      exact ⟨next, rfl, (bind_of_ok first).symm.trans run⟩
  | error fault next =>
      have faults : interleaved op (m :: rest) state = .error fault _ :=
        bind_of_error (byClient_of_error call)
      rw [faults] at run
      cases run

/-- **Sharing goes unnoticed.** In a run that returns, each client's private state is the
one its own calls leave when it makes them alone, from any scratch state. -/
theorem interleaved_alone (forgetful : Forgetful op) {schedule : List ι}
    {state final : σ × (ι → κ)} (run : interleaved op schedule state = .ok () final) (m : ι)
    (scratch : σ) :
    ∃ left, alone op (schedule.count m) (scratch, state.2 m) = .ok () (left, final.2 m) := by
  induction schedule generalizing state scratch with
  | nil =>
      cases run
      exact ⟨scratch, rfl⟩
  | cons caller rest ih =>
      obtain ⟨next, call, later⟩ := interleaved_cons_returns run
      by_cases own : caller = m
      · subst own
        obtain ⟨left, returns⟩ := forgetful.returns call scratch
        obtain ⟨last, remaining⟩ := ih later left
        simp only [Function.update_self] at remaining
        refine ⟨last, ?_⟩
        rw [List.count_cons_self]
        exact (bind_of_ok returns).trans remaining
      · obtain ⟨last, remaining⟩ := ih later scratch
        simp only [Function.update_of_ne (Ne.symm own)] at remaining
        refine ⟨last, ?_⟩
        rwa [List.count_cons_of_ne own]

/-- **When a run returns.** If a call returns exactly when its client is enabled, a run
returns exactly when every call finds its client enabled. -/
theorem interleaved_returns_iff {enabled : κ → Prop}
    (op_returns_iff : ∀ scratch own, (∃ next, op (scratch, own) = .ok () next) ↔ enabled own)
    (schedule : List ι) (state : σ × (ι → κ)) :
    (∃ final, interleaved op schedule state = .ok () final) ↔
      AllEnabled op enabled schedule state := by
  induction schedule generalizing state with
  | nil => exact ⟨fun _ => trivial, fun _ => ⟨state, rfl⟩⟩
  | cons m rest ih =>
      constructor
      · rintro ⟨final, run⟩
        obtain ⟨next, call, later⟩ := interleaved_cons_returns run
        refine ⟨(op_returns_iff _ _).mp ⟨next, call⟩, ?_⟩
        rw [byClient_of_ok call]
        exact (ih _).mp ⟨final, later⟩
      · rintro ⟨here, later⟩
        obtain ⟨next, call⟩ := (op_returns_iff state.1 (state.2 m)).mpr here
        have first := byClient_of_ok call
        rw [first] at later
        obtain ⟨final, remaining⟩ := (ih _).mpr later
        exact ⟨final, (bind_of_ok first).trans remaining⟩

/-- A condition on the private states that enables a call and that calls keep enables
every call of every schedule. -/
theorem allEnabled_of_invariant {enabled invariant : κ → Prop}
    (enables : ∀ own, invariant own → enabled own)
    (kept : ∀ scratch own next, invariant own → op (scratch, own) = .ok () next → invariant next.2)
    (op_returns_iff : ∀ scratch own, (∃ next, op (scratch, own) = .ok () next) ↔ enabled own)
    (schedule : List ι) (state : σ × (ι → κ)) (start : ∀ m, invariant (state.2 m)) :
    AllEnabled op enabled schedule state := by
  induction schedule generalizing state with
  | nil => trivial
  | cons caller rest ih =>
      have here := enables _ (start caller)
      obtain ⟨next, call⟩ := (op_returns_iff state.1 (state.2 caller)).mpr here
      refine ⟨here, ?_⟩
      rw [byClient_of_ok call]
      apply ih
      intro m
      by_cases own : m = caller
      · subst own
        simp only [after_ok, Function.update_self]
        exact kept _ _ _ (start m) call
      · simp only [after_ok, Function.update_of_ne own]
        exact start m

/-- **A condition on the start alone.** If what enables a call can be told from a measure of the
private state, and a call that returns moves the measure by a function, then every call of a
schedule is enabled if and only if every client's own calls are, by iterating the function. -/
theorem allEnabled_iff_measure {μ : Type} {enabled : κ → Prop} {holds : μ → Prop}
    (measure : κ → μ) (next : μ → μ) (told : ∀ own, enabled own ↔ holds (measure own))
    (op_returns_iff : ∀ scratch own, (∃ next, op (scratch, own) = .ok () next) ↔ enabled own)
    (moves : ∀ scratch own final, op (scratch, own) = .ok () final →
      measure final.2 = next (measure own))
    (schedule : List ι) (state : σ × (ι → κ)) :
    AllEnabled op enabled schedule state ↔
      ∀ m, ∀ i < schedule.count m, holds (next^[i] (measure (state.2 m))) := by
  induction schedule generalizing state with
  | nil => exact iff_of_true trivial fun m i below => absurd below (Nat.not_lt_zero i)
  | cons caller rest ih =>
      -- what the other calls find when the first one has returned
      have later (here : enabled (state.2 caller)) :
          AllEnabled op enabled rest (after (byClient op caller state)) ↔
            ∀ m, ∀ i < rest.count m,
              holds (next^[if caller = m then i + 1 else i] (measure (state.2 m))) := by
        obtain ⟨final, call⟩ := (op_returns_iff state.1 (state.2 caller)).mpr here
        rw [byClient_of_ok call, after_ok, ih]
        refine forall_congr' fun m => forall₂_congr fun i below => ?_
        by_cases own : caller = m
        · subst own
          dsimp only
          rw [if_pos rfl, Function.update_self, moves _ _ _ call, Function.iterate_succ_apply]
        · dsimp only
          rw [if_neg own, Function.update_of_ne (Ne.symm own)]
      constructor
      · rintro ⟨here, enabled⟩ m i below
        by_cases own : caller = m
        · subst own
          cases i with
          | zero => exact (told _).mp here
          | succ i =>
              have found := (later here).mp enabled caller i
                (by rw [List.count_cons_self] at below; omega)
              rwa [if_pos rfl] at found
        · rw [List.count_cons_of_ne own] at below
          have found := (later here).mp enabled m i below
          rwa [if_neg own] at found
      · intro all
        have here : enabled (state.2 caller) :=
          (told _).mpr (all caller 0 (by rw [List.count_cons_self]; exact Nat.succ_pos _))
        refine ⟨here, (later here).mpr fun m i below => ?_⟩
        by_cases own : caller = m
        · subst own
          rw [if_pos rfl]
          exact all caller (i + 1) (by rw [List.count_cons_self]; omega)
        · rw [if_neg own]
          exact all m i (by rw [List.count_cons_of_ne own]; exact below)

end Interleaving
