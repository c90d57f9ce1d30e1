import Mathlib.Data.Nat.Basic
import Mathlib.Tactic.Linarith

/-! # Counted and guarded loops that may fault

Loops over a state, in the monad whose failures keep the state they happened in. A
counted loop `for (c = 0; c < bound; c++)` runs on a machine counter; while the
counter is below a representable bound its increment does not wrap, which is what
makes the loop terminate, and the loop is the sequence of its iterations
(`Imperative.forLoop_eq_iterations`). Two nested counted loops visit their index
pairs in row-major order (`Imperative.forLoop_nested`). A guarded loop returns the
number of iterations it made; it needs a measure that every successful iteration
lowers.

The rules carry an invariant indexed by the number of iterations made
(`Imperative.iterations_invariant`, `Imperative.whileLoop_invariant`), or a property
every iteration preserves, faults included (`Imperative.whileLoop_preserves`).
-/

namespace Imperative

variable {ε σ α : Type}

/-- The state a computation ends in, whether it returned or faulted. -/
def after : EStateM.Result ε σ α → σ
  | .ok _ s => s
  | .error _ s => s

@[simp] theorem after_ok (value : α) (s : σ) : after (.ok value s : EStateM.Result ε σ α) = s := rfl

@[simp] theorem after_error (fault : ε) (s : σ) :
    after (.error fault s : EStateM.Result ε σ α) = s := rfl

/-- A program that goes on from the state a computation returns in, with variables of its
own. -/
def andThen {τ : Type} (result : EStateM.Result ε σ α) (next : σ → Except ε τ) : Except ε τ :=
  match result with
  | .ok _ s => next s
  | .error fault _ => .error fault

theorem andThen_ok {τ : Type} (value : α) (s : σ) (next : σ → Except ε τ) :
    andThen (.ok value s) next = next s := rfl

theorem andThen_error {τ : Type} (fault : ε) (s : σ) (next : σ → Except ε τ) :
    andThen (.error fault s : EStateM.Result ε σ α) next = .error fault := rfl

section Sequencing

variable {β : Type} {first : EStateM ε σ α} {second : α → EStateM ε σ β} {s s' : σ}

theorem bind_of_ok {value : α} (returns : first s = .ok value s') :
    (first >>= second) s = second value s' := by
  change EStateM.bind first second s = _
  simp only [EStateM.bind, returns]

theorem bind_of_error {fault : ε} (faults : first s = .error fault s') :
    (first >>= second) s = .error fault s' := by
  change EStateM.bind first second s = _
  simp only [EStateM.bind, faults]

/-- What a sequence that returns went through. -/
theorem bind_ok {value : β} (returns : (first >>= second) s = .ok value s') :
    ∃ between middle, first s = .ok between middle ∧ second between middle = .ok value s' := by
  cases result : first s with
  | ok between middle => exact ⟨between, middle, rfl, (bind_of_ok result).symm.trans returns⟩
  | error fault middle => exact nomatch (bind_of_error result).symm.trans returns

end Sequencing

section Iterations

variable {body : ℕ → EStateM ε σ Unit} {s s' : σ}

/-- The first `count` iterations of an indexed body. -/
def iterations (body : ℕ → EStateM ε σ Unit) : ℕ → EStateM ε σ Unit
  | 0 => pure ()
  | count + 1 => do
    iterations body count
    body count

theorem iterations_succ (count : ℕ) :
    iterations body (count + 1) = (iterations body count >>= fun _ => body count) := rfl

theorem iterations_succ_of_ok {count : ℕ} (returns : iterations body count s = .ok () s') :
    iterations body (count + 1) s = body count s' :=
  bind_of_ok returns

theorem iterations_of_error {made total : ℕ} {fault : ε}
    (faults : iterations body made s = .error fault s') (shorter : made ≤ total) :
    iterations body total s = .error fault s' := by
  induction total, shorter using Nat.le_induction with
  | base => exact faults
  | succ total _ ih => exact bind_of_error ih

/-- **Counted invariant.** An invariant that every iteration carries to the next
index holds after all of them, and none of them faults. -/
theorem iterations_invariant (invariant : ℕ → σ → Prop) (count : ℕ)
    (step : ∀ i < count, ∀ s, invariant i s → ∃ s', body i s = .ok () s' ∧ invariant (i + 1) s')
    (start : invariant 0 s) :
    ∃ s', iterations body count s = .ok () s' ∧ invariant count s' := by
  induction count with
  | zero => exact ⟨s, rfl, start⟩
  | succ count ih =>
      obtain ⟨middle, returns, held⟩ := ih fun i below => step i (by omega)
      obtain ⟨final, last, holds⟩ := step count (by omega) middle held
      exact ⟨final, (iterations_succ_of_ok returns).trans last, holds⟩

/-- **Counted outcome.** Where every iteration carries the invariant to the next index or
faults as expected, so do all of them. -/
theorem iterations_outcome (invariant : ℕ → σ → Prop) (expected : ε → σ → Prop) (count : ℕ)
    (step : ∀ i < count, ∀ s, invariant i s →
      (∃ s', body i s = .ok () s' ∧ invariant (i + 1) s') ∨
        ∃ fault s', body i s = .error fault s' ∧ expected fault s')
    (start : invariant 0 s) :
    (∃ s', iterations body count s = .ok () s' ∧ invariant count s') ∨
      ∃ fault s', iterations body count s = .error fault s' ∧ expected fault s' := by
  induction count with
  | zero => exact Or.inl ⟨s, rfl, start⟩
  | succ count ih =>
      rcases ih fun i below => step i (by omega) with
        ⟨middle, returns, held⟩ | ⟨fault, final, faults, stopped⟩
      · rw [iterations_succ_of_ok returns]
        exact step count (by omega) middle held
      · exact Or.inr ⟨fault, final, iterations_of_error faults (by omega), stopped⟩

/-- A row of iterations continues the rows before it. -/
private theorem iterations_row (columns : ℕ) (cell : ℕ → ℕ → EStateM ε σ Unit) (row made : ℕ)
    (within : made ≤ columns) :
    iterations (fun t => cell (t / columns) (t % columns)) (row * columns + made) =
      (iterations (fun t => cell (t / columns) (t % columns)) (row * columns) >>= fun _ =>
        iterations (cell row) made) := by
  induction made with
  | zero =>
      change _ = (iterations _ (row * columns) >>= fun _ => pure ())
      rw [Nat.add_zero, bind_pure_unit]
  | succ made ih =>
      have positive : 0 < columns := by omega
      have rowIs : (row * columns + made) / columns = row := by
        rw [Nat.mul_comm, Nat.mul_add_div positive, Nat.div_eq_of_lt (by omega), Nat.add_zero]
      have columnIs : (row * columns + made) % columns = made := by
        rw [Nat.mul_comm, Nat.mul_add_mod, Nat.mod_eq_of_lt (by omega)]
      rw [← Nat.add_assoc, iterations_succ, ih (by omega), rowIs, columnIs, bind_assoc]
      rfl

/-- **Row-major order.** Nested iterations are the iterations of a single index that
runs through the rows one after the other. -/
theorem iterations_nested (rows columns : ℕ) (cell : ℕ → ℕ → EStateM ε σ Unit) :
    iterations (fun row => iterations (cell row) columns) rows =
      iterations (fun t => cell (t / columns) (t % columns)) (rows * columns) := by
  induction rows with
  | zero => rw [Nat.zero_mul]; rfl
  | succ rows ih =>
      rw [iterations_succ, ih, Nat.succ_mul, iterations_row columns cell rows columns le_rfl]

end Iterations

section ForLoop

variable {width : ℕ}

/-- The increment of a counter below a representable bound does not wrap. -/
theorem toNat_increment {counter : BitVec width} {bound : ℕ} (fits : bound < 2 ^ width)
    (below : counter.toNat < bound) : (counter + 1).toNat = counter.toNat + 1 := by
  have unit : (1 : BitVec width).toNat = 1 % 2 ^ width := BitVec.toNat_ofNat 1 width
  rw [BitVec.toNat_add, unit, Nat.add_mod_mod, Nat.mod_eq_of_lt (by omega)]

/-- `for (; counter < bound; counter++) body(counter)` on a counter of `width` bits. -/
def forLoop (bound : ℕ) (fits : bound < 2 ^ width) (body : BitVec width → EStateM ε σ Unit)
    (counter : BitVec width) : EStateM ε σ Unit :=
  if counter.toNat < bound then do
    body counter
    forLoop bound fits body (counter + 1)
  else pure ()
termination_by bound - counter.toNat
decreasing_by
  rw [toNat_increment fits ‹_›]
  omega

theorem forLoop_of_lt {bound : ℕ} {fits : bound < 2 ^ width}
    {body : BitVec width → EStateM ε σ Unit} {counter : BitVec width}
    (below : counter.toNat < bound) :
    forLoop bound fits body counter =
      (body counter >>= fun _ => forLoop bound fits body (counter + 1)) := by
  conv_lhs => unfold forLoop
  rw [if_pos below]

theorem forLoop_of_le {bound : ℕ} {fits : bound < 2 ^ width}
    {body : BitVec width → EStateM ε σ Unit} {counter : BitVec width}
    (reached : bound ≤ counter.toNat) : forLoop bound fits body counter = pure () := by
  unfold forLoop
  rw [if_neg (Nat.not_lt.mpr reached)]

/-- What a counted loop has left to do completes the iterations made before. -/
private theorem iterations_forLoop {bound : ℕ} (fits : bound < 2 ^ width)
    (body : BitVec width → EStateM ε σ Unit) (left : ℕ) :
    ∀ made, made + left = bound →
      (iterations (fun i => body (BitVec.ofNat width i)) made >>= fun _ =>
        forLoop bound fits body (BitVec.ofNat width made)) =
          iterations (fun i => body (BitVec.ofNat width i)) bound := by
  induction left with
  | zero =>
      intro made complete
      have value : (BitVec.ofNat width made).toNat = made := by
        rw [BitVec.toNat_ofNat, Nat.mod_eq_of_lt (by omega)]
      rw [forLoop_of_le (by omega), bind_pure_unit, ← complete, Nat.add_zero]
  | succ left ih =>
      intro made rest
      have value : (BitVec.ofNat width made).toNat = made := by
        rw [BitVec.toNat_ofNat, Nat.mod_eq_of_lt (by omega)]
      have below : (BitVec.ofNat width made).toNat < bound := by omega
      have next : BitVec.ofNat width made + 1 = BitVec.ofNat width (made + 1) := by
        apply BitVec.eq_of_toNat_eq
        rw [toNat_increment fits below, value, BitVec.toNat_ofNat, Nat.mod_eq_of_lt (by omega)]
      rw [← ih (made + 1) (by omega), iterations_succ, bind_assoc, forLoop_of_lt below, next]

/-- **A counted loop makes every iteration below its bound, in order.** The counter
takes the values `0, …, bound - 1` and never wraps. -/
theorem forLoop_eq_iterations (bound : ℕ) (fits : bound < 2 ^ width)
    (body : BitVec width → EStateM ε σ Unit) :
    forLoop bound fits body 0 = iterations (fun i => body (BitVec.ofNat width i)) bound := by
  rw [← iterations_forLoop fits body bound 0 (Nat.zero_add bound)]
  rfl

/-- Two nested counted loops are the iterations of a single index in row-major order. -/
theorem forLoop_nested {columnWidth rows columns : ℕ} (fitsRows : rows < 2 ^ width)
    (fitsColumns : columns < 2 ^ columnWidth)
    (cell : BitVec width → BitVec columnWidth → EStateM ε σ Unit) :
    forLoop rows fitsRows (fun row => forLoop columns fitsColumns (cell row) 0) 0 =
      iterations (fun t => cell (BitVec.ofNat width (t / columns))
        (BitVec.ofNat columnWidth (t % columns))) (rows * columns) := by
  simp only [forLoop_eq_iterations]
  exact iterations_nested rows columns
    (fun row column => cell (BitVec.ofNat width row) (BitVec.ofNat columnWidth column))

end ForLoop

section WhileLoop

/-- `while (guard) body`, returning the number of iterations made. -/
def whileLoop (guard : σ → Bool) (body : EStateM ε σ Unit) (measure : σ → ℕ)
    (decreases : ∀ s s', guard s = true → body s = .ok () s' → measure s' < measure s) (s : σ) :
    EStateM.Result ε σ ℕ :=
  if _running : guard s = true then
    match _returns : body s with
    | .ok _ next =>
        match whileLoop guard body measure decreases next with
        | .ok count final => .ok (count + 1) final
        | .error fault final => .error fault final
    | .error fault next => .error fault next
  else .ok 0 s
termination_by measure s
decreasing_by exact decreases s next _running _returns

variable {guard : σ → Bool} {body : EStateM ε σ Unit} {measure : σ → ℕ}
  {decreases : ∀ s s', guard s = true → body s = .ok () s' → measure s' < measure s} {s s' : σ}

theorem whileLoop_of_stopped (stopped : guard s = false) :
    whileLoop guard body measure decreases s = .ok 0 s := by
  unfold whileLoop
  rw [dif_neg (by rw [stopped]; exact Bool.false_ne_true)]

theorem whileLoop_of_ok (running : guard s = true) (returns : body s = .ok () s') :
    whileLoop guard body measure decreases s =
      match whileLoop guard body measure decreases s' with
      | .ok count final => .ok (count + 1) final
      | .error fault final => .error fault final := by
  conv_lhs => unfold whileLoop
  rw [dif_pos running]
  split
  · rename_i value next same
    rw [returns] at same
    cases same
    rfl
  · rename_i fault next same
    rw [returns] at same
    cases same

theorem whileLoop_of_error {fault : ε} (running : guard s = true)
    (faults : body s = .error fault s') :
    whileLoop guard body measure decreases s = .error fault s' := by
  unfold whileLoop
  rw [dif_pos running]
  split
  · rename_i value next same
    rw [faults] at same
    cases same
  · rename_i other next same
    rw [faults] at same
    cases same
    rfl

/-- **Total correctness with a count.** If an indexed invariant keeps the guard true
and every iteration successful until the index reaches `total`, where the guard
fails, the loop returns after exactly `total` iterations. -/
theorem whileLoop_invariant (invariant : ℕ → σ → Prop) (total : ℕ)
    (step : ∀ i < total, ∀ s, invariant i s →
      guard s = true ∧ ∃ s', body s = .ok () s' ∧ invariant (i + 1) s')
    (stop : ∀ s, invariant total s → guard s = false) (start : invariant 0 s) :
    ∃ s', whileLoop guard body measure decreases s = .ok total s' ∧ invariant total s' := by
  induction total generalizing invariant s with
  | zero => exact ⟨s, whileLoop_of_stopped (stop s start), start⟩
  | succ total ih =>
      obtain ⟨running, middle, returns, held⟩ := step 0 (Nat.succ_pos total) s start
      obtain ⟨final, loops, holds⟩ := ih (fun i => invariant (i + 1))
        (fun i below => step (i + 1) (by omega)) stop held
      refine ⟨final, ?_, holds⟩
      rw [whileLoop_of_ok running returns, loops]

/-- A property that every iteration preserves, whether it returns or faults, holds
wherever a guarded loop ends. -/
theorem whileLoop_preserves (property : σ → Prop)
    (step : ∀ s, property s → property (after (body s))) (start : property s) :
    property (after (whileLoop guard body measure decreases s)) := by
  induction bound : measure s using Nat.strong_induction_on generalizing s with
  | _ value ih =>
      cases running : guard s with
      | false =>
          rw [whileLoop_of_stopped running]
          exact start
      | true =>
          have preserved := step s start
          cases returns : body s with
          | ok _ next =>
              rw [returns] at preserved
              have lower := decreases s next running returns
              have rest := ih (measure next) (by omega) (s := next) preserved rfl
              rw [whileLoop_of_ok running returns]
              cases loops : whileLoop guard body measure decreases next with
              | ok count final => rw [loops] at rest; exact rest
              | error fault final => rw [loops] at rest; exact rest
          | error fault next =>
              rw [returns] at preserved
              rw [whileLoop_of_error running returns]
              exact preserved

end WhileLoop

end Imperative
