import Mathlib.Data.Nat.Basic
import Mathlib.Tactic.Linarith

/-! # The deque-backed channel

An `ac_channel<T>` without a SystemC fifo keeps its contents in a `std::deque<T>`: a
read takes the front, a write appends at the back. Its size is `(int) ch.size()`
returned as an `unsigned`, so it is the length of the deque modulo `2 ^ 32`; both
`available` and the assertion in `read` use that size. Below `2 ^ 32` entries the size
is the length (`DownSample.AcChannel.size_of_lt`). Every read lowers the size by one
(`DownSample.AcChannel.size_drop`), so a channel yields its size many entries and
then asserts, whatever else the deque still holds.
-/

namespace DownSample

/-- What stops a run: the assertion `Read from empty channel` of a channel read, or an
access outside an array. -/
inductive Fault where
  | readFromEmptyChannel
  | line0OutOfRange (addr : ℤ)
  | matOutOfRange (row column : ℤ)
  | bmpOutOfRange (index : ℕ)
deriving DecidableEq, Repr

/-- A channel, as the contents of its deque from front to back. -/
structure AcChannel (α : Type) where
  ch : List α
deriving DecidableEq, Repr

namespace AcChannel

variable {α : Type}

/-- `size()`: the length of the deque, cut to 32 bits. -/
def size (c : AcChannel α) : ℕ := c.ch.length % 2 ^ 32

/-- `available(k)`. -/
def available (c : AcChannel α) (k : ℕ) : Bool := decide (k ≤ c.size)

/-- `read()`: `none` where the assertion on the size fails. -/
def read (c : AcChannel α) : Option (α × AcChannel α) :=
  if c.size = 0 then none
  else match c.ch with
    | [] => none
    | t :: rest => some (t, ⟨rest⟩)

/-- `write(t)`. -/
def write (c : AcChannel α) (t : α) : AcChannel α := ⟨c.ch ++ [t]⟩

/-- The channel after its first `count` entries have been taken. -/
def drop (c : AcChannel α) (count : ℕ) : AcChannel α := ⟨c.ch.drop count⟩

@[simp] theorem ch_drop (c : AcChannel α) (count : ℕ) : (c.drop count).ch = c.ch.drop count := rfl

theorem size_le_length (c : AcChannel α) : c.size ≤ c.ch.length := Nat.mod_le _ _

theorem size_of_lt (c : AcChannel α) (small : c.ch.length < 2 ^ 32) : c.size = c.ch.length :=
  Nat.mod_eq_of_lt small

theorem available_one (c : AcChannel α) : c.available 1 = decide (c.size ≠ 0) := by
  unfold available
  simp only [Nat.one_le_iff_ne_zero]

theorem size_drop (c : AcChannel α) (count : ℕ) (within : count ≤ c.size) :
    (c.drop count).size = c.size - count := by
  have shorter := c.size_le_length
  unfold size at within shorter ⊢
  rw [ch_drop, List.length_drop]
  omega

/-- A read within the size takes the next entry. -/
theorem read_drop (c : AcChannel α) (count : ℕ) (within : count < c.size) :
    ∃ inside : count < c.ch.length,
      (c.drop count).read = some (c.ch[count], c.drop (count + 1)) := by
  have shorter := c.size_le_length
  have inside : count < c.ch.length := by omega
  refine ⟨inside, ?_⟩
  have remains : (c.drop count).size ≠ 0 := by
    rw [size_drop c count (by omega)]
    omega
  unfold read
  rw [if_neg remains]
  simp only [List.drop_eq_getElem_cons inside, drop]

/-- A read takes the front of the deque, and only within the size. -/
theorem ch_of_read {c rest : AcChannel α} {t : α} (taken : c.read = some (t, rest)) :
    c.size ≠ 0 ∧ c.ch = t :: rest.ch := by
  unfold read at taken
  split at taken
  · cases taken
  · rename_i remains
    split at taken
    · cases taken
    · rename_i front back contents
      cases taken
      exact ⟨remains, contents⟩

theorem read_of_size (c : AcChannel α) (spent : c.size = 0) : c.read = none := by
  unfold read
  rw [if_pos spent]

end AcChannel

end DownSample
