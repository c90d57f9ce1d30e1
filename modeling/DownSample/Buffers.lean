import DownSample.AcInt
import DownSample.AcChannel
import DownSample.Library.Loop

/-! # The line buffer and the shift register

`down_ln` keeps the last even line in `line0`, two pixels a word. A word is fetched on
the even column of an odd line and stored on the odd column of an even line, through
the registers `rd_buffer` and `wr_buffer`, which keep stale halves in between. The
record of accesses to `line0` is a ghost: `process` never reads it.

Four lemmas, one for each parity of the line and the column, say all that a call does
(`DownSample.DownLn.process_even_even` to `DownSample.DownLn.process_odd_odd`).

`down_shreg` collects a 2 by 2 block from two columns, the even one first. The mean that
is written is computed from its registers in the widening arithmetic of `ac_int`, and is
the truncated mean on the integers (`DownSample.DownShreg.downPixel_toNat`).
-/

namespace DownSample

open Imperative

/-- An access to the memory `line0`. -/
inductive Access where
  | read (addr : ℕ)
  | write (addr : ℕ)
deriving DecidableEq, Repr

/-- The address of an access. -/
def Access.addr : Access → ℕ
  | .read addr => addr
  | .write addr => addr

/-- The members of class `down_ln`, and the accesses to `line0` grouped by iteration of
the inner loop, both the iterations and the accesses of one latest first. -/
structure DownLn where
  wrBuffer : Uint16
  rdBuffer : Uint16
  line0 : Vector Uint16 376
  rdData : Vector Uint8 2
  accesses : List (List Access)
deriving DecidableEq, Repr

namespace DownLn

/-- Add an access to the record of the current iteration. -/
def record (m : DownLn) (access : Access) : DownLn :=
  { m with
    accesses := match m.accesses with
      | [] => [[access]]
      | current :: earlier => (access :: current) :: earlier }

/-- Open the access record of an iteration. -/
def beginIteration (m : DownLn) : DownLn := { m with accesses := [] :: m.accesses }

/-- `line0[addr]` as a value. -/
def loadLine0 (addr : ℤ) : EStateM Fault DownLn Uint16 := fun m =>
  if inside : 0 ≤ addr ∧ addr.toNat < 376 then
    .ok m.line0[addr.toNat] (m.record (.read addr.toNat))
  else .error (.line0OutOfRange addr) m

/-- `line0[addr] = word`. -/
def storeLine0 (addr : ℤ) (word : Uint16) : EStateM Fault DownLn Unit := fun m =>
  if inside : 0 ≤ addr ∧ addr.toNat < 376 then
    .ok () ({ m with line0 := m.line0.set addr.toNat word }.record (.write addr.toNat))
  else .error (.line0OutOfRange addr) m

/-- `down_ln::process`. -/
def process (data : Uint8) (ln px : ℤ) : EStateM Fault DownLn Unit := do
  let addr := (px - 0).tdiv 2
  if px.tmod 2 = 0 then
    if ln.tmod 2 = 1 then -- read
      let word ← loadLine0 addr
      modify fun m => { m with rdBuffer := word }
      modify fun m => { m with rdData := m.rdData.set 0 (AcInt.slc 8 m.rdBuffer 0) }
      modify fun m => { m with rdData := m.rdData.set 1 data }
    if ln.tmod 2 = 0 then -- write
      modify fun m => { m with wrBuffer := AcInt.setSlc m.wrBuffer 0 data }
  else
    if ln.tmod 2 = 1 then -- read
      modify fun m => { m with rdData := m.rdData.set 0 (AcInt.slc 8 m.rdBuffer 8) }
      modify fun m => { m with rdData := m.rdData.set 1 data }
    if ln.tmod 2 = 0 then -- write
      modify fun m => { m with wrBuffer := AcInt.setSlc m.wrBuffer 8 data }
      storeLine0 addr (← get).wrBuffer

/-! ## What one call does -/

section Calls

variable (m : DownLn) (data : Uint8) {ln px : ℕ}

theorem tmod_two (n : ℕ) : (n : ℤ).tmod 2 = ((n % 2 : ℕ) : ℤ) := (Int.ofNat_tmod n 2).symm

private theorem tdiv_two (n : ℕ) : ((n : ℤ) - 0).tdiv 2 = ((n / 2 : ℕ) : ℤ) := by
  rw [Int.sub_zero]
  exact (Int.ofNat_tdiv n 2).symm

private theorem set_pair {α : Type} (v : Vector α 2) (x y : α) :
    (v.set 0 x).set 1 y = #v[x, y] := by
  apply Vector.ext
  intro i below
  match i, below with
  | 0, _ => simp
  | 1, _ => simp

private theorem loadLine0_of_lt {a : ℕ} (inside : a < 376) :
    loadLine0 a m = .ok m.line0[a] (m.record (.read a)) := by
  unfold loadLine0
  rw [dif_pos ⟨Int.natCast_nonneg a, inside⟩]
  rfl

private theorem storeLine0_of_lt {a : ℕ} (word : Uint16) (inside : a < 376) :
    storeLine0 a word m = .ok () ({ m with line0 := m.line0.set a word }.record (.write a)) := by
  unfold storeLine0
  rw [dif_pos ⟨Int.natCast_nonneg a, inside⟩]
  rfl

/-- On an even line the even column fills the low half of the write buffer. -/
theorem process_even_even (line : ln % 2 = 0) (column : px % 2 = 0) :
    process data ln px m = .ok () { m with wrBuffer := AcInt.setSlc m.wrBuffer 0 data } := by
  unfold process
  simp only [tmod_two, line, column, Nat.cast_zero, zero_ne_one, ↓reduceIte]
  rfl

/-- On an even line the odd column fills the high half and stores the word. -/
theorem process_even_odd (line : ln % 2 = 0) (column : px % 2 = 1) (inside : px / 2 < 376) :
    process data ln px m =
      .ok () ({ m with
        wrBuffer := AcInt.setSlc m.wrBuffer 8 data
        line0 := m.line0.set (px / 2) (AcInt.setSlc m.wrBuffer 8 data) }.record
          (.write (px / 2))) := by
  unfold process
  simp only [tmod_two, tdiv_two, line, column, Nat.cast_zero, Nat.cast_one, zero_ne_one,
    one_ne_zero, ↓reduceIte]
  exact storeLine0_of_lt _ _ inside

/-- On an odd line the even column fetches the word and shows its low half. -/
theorem process_odd_even (line : ln % 2 = 1) (column : px % 2 = 0) (inside : px / 2 < 376) :
    process data ln px m =
      .ok () { m.record (.read (px / 2)) with
        rdBuffer := m.line0[px / 2]
        rdData := #v[AcInt.slc 8 m.line0[px / 2] 0, data] } := by
  unfold process
  simp only [tmod_two, tdiv_two, line, column, Nat.cast_zero, Nat.cast_one, one_ne_zero,
    ↓reduceIte]
  rw [bind_of_ok (loadLine0_of_lt m inside), ← set_pair m.rdData]
  rfl

/-- On an odd line the odd column shows the high half of the word fetched before. -/
theorem process_odd_odd (line : ln % 2 = 1) (column : px % 2 = 1) :
    process data ln px m = .ok () { m with rdData := #v[AcInt.slc 8 m.rdBuffer 8, data] } := by
  unfold process
  simp only [tmod_two, line, column, Nat.cast_one, one_ne_zero, ↓reduceIte]
  rw [← set_pair m.rdData]
  rfl

end Calls

end DownLn

/-! ## The shift register -/

/-- The members of class `down_shreg`. -/
structure DownShreg where
  shregY0 : Vector Uint8 2
  shregY1 : Vector Uint8 2
deriving DecidableEq, Repr

/-- `down_shreg::process`. -/
def DownShreg.process (m : DownShreg) (data : Vector Uint8 2) (_ln px : ℤ) : DownShreg :=
  let m := if px.tmod 2 = 0 then
      { m with shregY0 := m.shregY0.set 0 data[0], shregY1 := m.shregY1.set 0 data[1] }
    else m
  if px.tmod 2 ≠ 0 then
    { m with shregY0 := m.shregY0.set 1 data[0], shregY1 := m.shregY1.set 1 data[1] }
  else m

/-- The value assigned to `down_pixel`: the four registers are added in widening
unsigned arithmetic, the sum is divided by the `int` 4 and cut to 8 bits. -/
def DownShreg.downPixel (m : DownShreg) : Uint8 :=
  AcInt.ofStorage 8
    (AcInt.divInt
      (AcInt.plus (AcInt.plus (AcInt.plus m.shregY0[0] m.shregY0[1]) m.shregY1[0]) m.shregY1[1])
      4)

/-- The registers of the even column, of the upper and of the lower row. -/
def DownShreg.left (m : DownShreg) : Uint8 × Uint8 := (m.shregY0[0], m.shregY1[0])

/-- An even column fills the registers of the left half of a block. -/
theorem DownShreg.left_process (m : DownShreg) (upper lower : Uint8) (ln : ℕ) {px : ℕ}
    (column : px % 2 = 0) : (m.process #v[upper, lower] ln px).left = (upper, lower) := by
  unfold process left
  simp only [DownLn.tmod_two, column, Nat.cast_zero, ↓reduceIte, ne_eq, not_true_eq_false,
    Vector.getElem_set_self]
  rfl

/-- The mean computed in the source's types is the truncated mean on the integers. -/
theorem DownShreg.downPixel_toNat (m : DownShreg) :
    m.downPixel.toNat =
      (m.shregY0[0].toNat + m.shregY0[1].toNat + m.shregY1[0].toNat + m.shregY1[1].toNat) / 4 := by
  have y00 := m.shregY0[0].isLt
  have y01 := m.shregY0[1].isLt
  have y10 := m.shregY1[0].isLt
  have y11 := m.shregY1[1].isLt
  have four : (4 : BitVec 32).toNat = 4 := rfl
  rw [downPixel, AcInt.ofStorage_eq_setWidth _ (by decide) (by decide), BitVec.toNat_setWidth,
    AcInt.divInt_toNat _ _ (by decide) (by decide), AcInt.plus_toNat _ _ (by decide),
    AcInt.plus_toNat _ _ (by decide), AcInt.plus_toNat _ _ (by decide), four]
  omega

/-- After an odd column the registers hold the block whose left half they held before. -/
theorem DownShreg.downPixel_process (m : DownShreg) (upper lower : Uint8) (ln : ℕ) {px : ℕ}
    (column : px % 2 = 1) :
    (m.process #v[upper, lower] ln px).downPixel.toNat =
      (m.left.1.toNat + upper.toNat + m.left.2.toNat + lower.toNat) / 4 := by
  rw [downPixel_toNat]
  unfold process left
  simp only [DownLn.tmod_two, column, Nat.cast_one, one_ne_zero, ↓reduceIte, ne_eq,
    not_false_eq_true, Vector.getElem_set_self, Vector.getElem_set_ne]
  rfl

end DownSample
