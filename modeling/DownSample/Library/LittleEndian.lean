import Mathlib.Data.List.Basic
import Mathlib.Tactic.Linarith

/-! # Little-endian words

A word in memory is the list of its bytes, the least significant first.
`LittleEndian.split` writes a word and `LittleEndian.combine` reads it back
(`LittleEndian.combine_split`). A read that comes short overwrites the first bytes of an
object and keeps the others (`LittleEndian.overwrite`).
-/

namespace LittleEndian

/-- The low `count` bytes of a number. -/
def split : ℕ → ℕ → List (BitVec 8)
  | 0, _ => []
  | count + 1, n => BitVec.ofNat 8 n :: split count (n / 256)

/-- The number that a list of bytes stands for. -/
def combine : List (BitVec 8) → ℕ
  | [] => 0
  | byte :: rest => byte.toNat + 256 * combine rest

@[simp] theorem length_split (count n : ℕ) : (split count n).length = count := by
  induction count generalizing n with
  | zero => rfl
  | succ count ih => rw [split, List.length_cons, ih]

/-- The bytes of a number are its low digits. -/
theorem combine_split (count n : ℕ) : combine (split count n) = n % 256 ^ count := by
  induction count generalizing n with
  | zero => rw [split, combine, Nat.pow_zero, Nat.mod_one]
  | succ count ih =>
      rw [split, combine, ih, Nat.pow_succ', Nat.mod_mul, BitVec.toNat_ofNat]

theorem combine_split_of_lt {count n : ℕ} (fits : n < 256 ^ count) :
    combine (split count n) = n := by
  rw [combine_split, Nat.mod_eq_of_lt fits]

theorem combine_lt (bytes : List (BitVec 8)) : combine bytes < 256 ^ bytes.length := by
  induction bytes with
  | nil => exact Nat.one_pos
  | cons byte rest ih =>
      have low := byte.isLt
      rw [combine, List.length_cons, Nat.pow_succ]
      omega

/-- The digits of a number are the bytes of the list. -/
theorem digit_combine {bytes : List (BitVec 8)} {k : ℕ} (inside : k < bytes.length) :
    combine bytes / 256 ^ k % 256 = bytes[k].toNat := by
  induction bytes generalizing k with
  | nil => exact absurd inside (Nat.not_lt_zero k)
  | cons byte rest ih =>
      have low := byte.isLt
      cases k with
      | zero =>
          rw [Nat.pow_zero, Nat.div_one, combine, List.getElem_cons_zero]
          omega
      | succ k =>
          have quotient : combine (byte :: rest) / 256 = combine rest := by
            rw [combine]
            omega
          rw [Nat.pow_succ', ← Nat.div_div_eq_div_mul, quotient, List.getElem_cons_succ]
          exact ih (by rw [List.length_cons] at inside; omega)

/-- An object of the bytes `old` after a read into it that came to the bytes `new`. -/
def overwrite (old new : List (BitVec 8)) : List (BitVec 8) := new ++ old.drop new.length

/-- A read that fills the object replaces it. -/
theorem overwrite_of_full {old new : List (BitVec 8)} (full : old.length ≤ new.length) :
    overwrite old new = new := by
  rw [overwrite, List.drop_eq_nil_of_le full, List.append_nil]

theorem length_overwrite {old new : List (BitVec 8)} (inside : new.length ≤ old.length) :
    (overwrite old new).length = old.length := by
  rw [overwrite, List.length_append, List.length_drop]
  omega

/-- A read sets the bytes it came to. -/
theorem getElem?_overwrite (old : List (BitVec 8)) {new : List (BitVec 8)} {k : ℕ}
    (inside : k < new.length) :
    (overwrite old new)[k]? = new[k]? := by
  rw [overwrite, List.getElem?_append_left inside]

end LittleEndian
