import Mathlib.Data.Fintype.Card
import Mathlib.Data.Fintype.Prod
import Mathlib.Data.Nat.ModEq

/-! # Filling a grid over and over

Items are put into the cells of a grid in row-major order, from the start of some row
on, and from the last row back to the first. Item `n` goes to row `Grid.rowOf` and column
`Grid.columnOf`. Items that are less than a grid apart go to different cells
(`Grid.eq_of_same_cell`), so among as many consecutive items as there are cells each
cell gets exactly one (`Grid.existsUnique_item`).
-/

namespace Grid

variable (rows columns first : ℕ)

/-- The row of item `n` when item 0 goes to row `first`. -/
def rowOf (n : ℕ) : ℕ := (first + n / columns) % rows

/-- The column of item `n`. -/
def columnOf (n : ℕ) : ℕ := n % columns

variable {rows columns first}

theorem rowOf_lt (positive : 0 < rows) (n : ℕ) : rowOf rows columns first n < rows :=
  Nat.mod_lt _ positive

theorem columnOf_lt (positive : 0 < columns) (n : ℕ) : columnOf columns n < columns :=
  Nat.mod_lt _ positive

theorem rowOf_zero (inside : first < rows) : rowOf rows columns first 0 = first := by
  rw [rowOf, Nat.zero_div, Nat.add_zero, Nat.mod_eq_of_lt inside]

/-- The column counter is reset at the end of a row. -/
theorem columnOf_succ (positive : 0 < columns) (n : ℕ) :
    columnOf columns (n + 1) =
      if columnOf columns n + 1 = columns then 0 else columnOf columns n + 1 := by
  unfold columnOf
  split
  · rename_i last
    rw [← Nat.mod_add_mod, last, Nat.mod_self]
  · rename_i more
    have below := Nat.mod_lt n positive
    rw [← Nat.mod_add_mod, Nat.mod_eq_of_lt (by omega)]

/-- The row counter moves at the end of a row, and is reset after the last row. -/
theorem rowOf_succ (positive : 0 < columns) (n : ℕ) :
    rowOf rows columns first (n + 1) =
      if columnOf columns n + 1 = columns then
        if rowOf rows columns first n + 1 = rows then 0 else rowOf rows columns first n + 1
      else rowOf rows columns first n := by
  have whole := Nat.div_add_mod' n columns
  have below := Nat.mod_lt n positive
  unfold columnOf
  split
  · rename_i last
    have lands : n + 1 = (n / columns + 1) * columns := by
      rw [Nat.add_mul, Nat.one_mul]
      omega
    have row : (n + 1) / columns = n / columns + 1 := by
      rw [lands, Nat.mul_div_cancel _ positive]
    rw [rowOf, row, rowOf, ← Nat.add_assoc, ← Nat.mod_add_mod (first + n / columns)]
    split
    · rename_i wraps
      rw [wraps, Nat.mod_self]
    · rename_i inside
      rcases Nat.eq_zero_or_pos rows with none | some
      · rw [none, Nat.mod_zero, Nat.mod_zero]
      · have rowBelow := Nat.mod_lt (first + n / columns) some
        exact Nat.mod_eq_of_lt (by omega)
  · rename_i more
    have row : (n + 1) / columns = n / columns := by
      refine Nat.div_eq_of_lt_le ?_ ?_
      · omega
      · rw [Nat.add_mul, Nat.one_mul]
        omega
    rw [rowOf, row, rowOf]

/-- **Items less than a grid apart go to different cells.** -/
theorem eq_of_same_cell {m n : ℕ} (ordered : m ≤ n) (near : n < m + rows * columns)
    (row : rowOf rows columns first m = rowOf rows columns first n)
    (column : columnOf columns m = columnOf columns n) : m = n := by
  unfold columnOf at column
  have wholeM := Nat.div_add_mod' m columns
  have wholeN := Nat.div_add_mod' n columns
  have blocks : m / columns ≡ n / columns [MOD rows] := Nat.ModEq.add_left_cancel' first row
  have rowsApart : n / columns < m / columns + rows := by
    apply Nat.lt_of_mul_lt_mul_right (a := columns)
    rw [Nat.add_mul]
    omega
  have ordered' : m / columns ≤ n / columns := Nat.div_le_div_right ordered
  have divides : rows ∣ n / columns - m / columns := (Nat.modEq_iff_dvd' ordered').mp blocks
  have none : n / columns - m / columns = 0 := Nat.eq_zero_of_dvd_of_lt divides (by omega)
  have same : m / columns = n / columns := by omega
  rw [← wholeM, ← wholeN, same, column]

/-- **Each cell gets exactly one item** of as many consecutive ones as there are cells. -/
theorem existsUnique_item (start : ℕ) {i j : ℕ} (row : i < rows) (column : j < columns) :
    ∃! n, (start ≤ n ∧ n < start + rows * columns) ∧
      rowOf rows columns first n = i ∧ columnOf columns n = j := by
  let cell : Fin (rows * columns) → Fin rows × Fin columns := fun t =>
    (⟨rowOf rows columns first (start + t), rowOf_lt (by omega) _⟩,
      ⟨columnOf columns (start + t), columnOf_lt (by omega) _⟩)
  have injective : Function.Injective cell := by
    intro t u same
    have rowSame := congrArg (fun place => place.1.val) same
    have columnSame := congrArg (fun place => place.2.val) same
    apply Fin.ext
    rcases Nat.le_total t.val u.val with ordered | ordered
    · have equal := eq_of_same_cell (Nat.add_le_add_left ordered start) (by omega)
        rowSame columnSame
      omega
    · have equal := eq_of_same_cell (Nat.add_le_add_left ordered start) (by omega)
        rowSame.symm columnSame.symm
      omega
  have bijective : Function.Bijective cell := by
    rw [Fintype.bijective_iff_injective_and_card, Fintype.card_prod]
    simp only [Fintype.card_fin, and_true]
    exact injective
  obtain ⟨t, hits⟩ := bijective.2 (⟨i, row⟩, ⟨j, column⟩)
  have rowHit : rowOf rows columns first (start + t) = i := congrArg (fun place => place.1.val) hits
  have columnHit : columnOf columns (start + t) = j := congrArg (fun place => place.2.val) hits
  refine ⟨start + t, ⟨⟨by omega, by omega⟩, rowHit, columnHit⟩, ?_⟩
  rintro n ⟨⟨above, below⟩, rowSame, columnSame⟩
  have sameRow := rowSame.trans rowHit.symm
  have sameColumn := columnSame.trans columnHit.symm
  rcases Nat.le_total n (start + t) with ordered | ordered
  · exact eq_of_same_cell ordered (by omega) sameRow sameColumn
  · exact (eq_of_same_cell ordered (by omega) sameRow.symm sameColumn.symm).symm

/-- In every grid of items, cell `(i, j)` gets the item of column `j` that lies `first` rows
above row `i` in the grid: the grid is rotated down by `first` rows. -/
theorem cell_of_rotated (grids : ℕ) {i j : ℕ} (row : i < rows) (column : j < columns)
    (start : first < rows) :
    rowOf rows columns first
      (grids * (rows * columns) + ((i + rows - first) % rows * columns + j)) = i ∧
    columnOf columns (grids * (rows * columns) + ((i + rows - first) % rows * columns + j)) =
      j := by
  have regroup : grids * (rows * columns) + ((i + rows - first) % rows * columns + j) =
      j + (grids * rows + (i + rows - first) % rows) * columns := by
    rw [Nat.add_mul, Nat.mul_assoc]
    omega
  have positive : 0 < columns := by omega
  rw [regroup, rowOf, columnOf, Nat.add_mul_div_right _ _ positive, Nat.div_eq_of_lt column,
    Nat.zero_add, Nat.add_mul_mod_self_right, Nat.mod_eq_of_lt column]
  refine ⟨?_, rfl⟩
  rw [Nat.add_left_comm, Nat.add_comm, Nat.add_mul_mod_self_right, Nat.add_mod_mod]
  have turns : first + (i + rows - first) = i + rows := by omega
  rw [turns, Nat.add_mod_right, Nat.mod_eq_of_lt row]

end Grid
