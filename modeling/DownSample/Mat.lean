import DownSample.AcInt
import Mathlib.Data.Fin.Basic

/-! # Index-checked pictures

A `cv::Mat` of type `CV_8UC1` as an array whose accesses are checked. Reading and
assigning `at<uchar>(row, column)` outside the picture is a fault of the program, and
inside it an assignment changes one element (`DownSample.Mat.atUchar_assign`).
-/

namespace DownSample

/-- A picture of bytes. -/
structure Mat (rows columns : ℕ) where
  data : Vector (Vector Uint8 columns) rows
deriving DecidableEq, Repr

namespace Mat

variable {rows columns : ℕ}

/-- `cv::Mat::zeros`. -/
def zeros (rows columns : ℕ) : Mat rows columns :=
  ⟨Vector.replicate rows (Vector.replicate columns 0)⟩

/-- `at<uchar>(row, column)` as a value: `none` outside the picture. -/
def atUchar (m : Mat rows columns) (row column : ℤ) : Option Uint8 :=
  if inside : (0 ≤ row ∧ row.toNat < rows) ∧ 0 ≤ column ∧ column.toNat < columns then
    some m.data[row.toNat][column.toNat]
  else none

/-- `at<uchar>(row, column) = value`: `none` outside the picture. -/
def assignUchar (m : Mat rows columns) (row column : ℤ) (value : Uint8) :
    Option (Mat rows columns) :=
  if inside : (0 ≤ row ∧ row.toNat < rows) ∧ 0 ≤ column ∧ column.toNat < columns then
    some ⟨m.data.set row.toNat (m.data[row.toNat].set column.toNat value)⟩
  else none

/-- The brightness of an element. -/
def brightness (m : Mat rows columns) (row column : ℕ) : ℕ :=
  ((m.atUchar row column).getD 0).toNat

theorem atUchar_inside (m : Mat rows columns) {i j : ℕ} (row : i < rows) (column : j < columns) :
    m.atUchar i j = some m.data[i][j] := by
  unfold atUchar
  rw [dif_pos ⟨⟨Int.natCast_nonneg i, row⟩, Int.natCast_nonneg j, column⟩]
  rfl

theorem assignUchar_inside (m : Mat rows columns) {i j : ℕ} (row : i < rows)
    (column : j < columns) (value : Uint8) :
    m.assignUchar i j value = some ⟨m.data.set i (m.data[i].set j value)⟩ := by
  unfold assignUchar
  rw [dif_pos ⟨⟨Int.natCast_nonneg i, row⟩, Int.natCast_nonneg j, column⟩]
  rfl

theorem assignUchar_of_neg (m : Mat rows columns) {i : ℤ} (row : i < 0) (j : ℤ) (value : Uint8) :
    m.assignUchar i j value = none := by
  unfold assignUchar
  rw [dif_neg fun inside => absurd inside.1.1 (by omega)]

/-- **One element changes.** An assignment inside the picture returns, sets its element and
leaves the others alone. -/
theorem atUchar_assign (m : Mat rows columns) {i j : ℕ} (row : i < rows) (column : j < columns)
    (value : Uint8) :
    ∃ next, m.assignUchar i j value = some next ∧ next.atUchar i j = some value ∧
      ∀ i' < rows, ∀ j' < columns, (i', j') ≠ (i, j) → next.atUchar i' j' = m.atUchar i' j' := by
  refine ⟨_, assignUchar_inside m row column value, ?_, ?_⟩
  · rw [atUchar_inside _ row column, Vector.getElem_set_self, Vector.getElem_set_self]
  · intro i' row' j' column' other
    rw [atUchar_inside _ row' column', atUchar_inside _ row' column']
    by_cases sameRow : i = i'
    · subst sameRow
      have otherColumn : j ≠ j' := fun same => other (by rw [same])
      rw [Vector.getElem_set_self, Vector.getElem_set_ne _ _ otherColumn]
    · rw [Vector.getElem_set_ne _ _ sameRow]

end Mat

end DownSample
