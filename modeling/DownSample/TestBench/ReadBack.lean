import DownSample.AcChannel
import DownSample.Mat
import DownSample.Library.Grid
import DownSample.Library.Loop
import Mathlib.Data.List.GetD

/-! # The read-back loop

The testbench of the OpenCV version puts the output values into a picture, keeping the
position in two 9-bit counters: before each store the column wraps at 376 and carries
into the row, and the row wraps at 240. The row counter is declared without an
initialiser, so its storage word starts out arbitrary. From a nonnegative word, value
`n` goes to the cell of item `n` in a filling of the grid that starts in row
`DownSample.startRow` (`DownSample.readBackLoop_of_lt`); a negative word faults in the first
access (`DownSample.readBackLoop_of_neg`).
-/

namespace DownSample

open Imperative

/-- The locals of the loop. `lnOut` is the storage word of a `uint9` that nothing may have
adjusted yet. -/
structure ReadBack where
  dout : AcChannel Uint8
  downSample : Mat 240 376
  lnOut : BitVec 32
  pxOut : BitVec 9
deriving DecidableEq, Repr

/-- The two tests before a store. -/
def ReadBack.wrapCounters (s : ReadBack) : ReadBack :=
  let s := if AcInt.geInt (AcInt.storage s.pxOut) 376 then
      { s with pxOut := 0, lnOut := AcInt.storage (AcInt.ofStorage 9 (s.lnOut + 1)) }
    else s
  if AcInt.geInt s.lnOut 240 then { s with lnOut := 0 } else s

/-- `dout.read()`. -/
def readDout : EStateM Fault ReadBack Uint8 := fun s =>
  match s.dout.read with
  | some (value, rest) => .ok value { s with dout := rest }
  | none => .error .readFromEmptyChannel s

/-- `DownSample.at<uchar>(ln_out, px_out) = value`. -/
def assignDownSample (value : Uint8) : EStateM Fault ReadBack Unit := fun s =>
  let row := s.lnOut.toInt
  let column := (AcInt.storage s.pxOut).toInt
  match s.downSample.assignUchar row column value with
  | some next => .ok () { s with downSample := next }
  | none => .error (.matOutOfRange row column) s

/-- The body of the read-back loop. -/
def readBackBody : EStateM Fault ReadBack Unit := do
  modify ReadBack.wrapCounters
  let value ← readDout
  assignDownSample value
  modify fun s => { s with pxOut := AcInt.ofStorage 9 (AcInt.storage s.pxOut + 1) }

/-! ## One iteration -/

@[simp] theorem ReadBack.wrapCounters_dout (s : ReadBack) : s.wrapCounters.dout = s.dout := by
  unfold wrapCounters
  dsimp only
  split <;> split <;> rfl

@[simp] theorem ReadBack.wrapCounters_downSample (s : ReadBack) :
    s.wrapCounters.downSample = s.downSample := by
  unfold wrapCounters
  dsimp only
  split <;> split <;> rfl

section Body

variable {s : ReadBack} {value : Uint8} {rest : AcChannel Uint8}

theorem readBackBody_of_read (taken : s.dout.read = some (value, rest)) :
    readBackBody s =
      (assignDownSample value >>= fun _ =>
        modify fun s => { s with pxOut := AcInt.ofStorage 9 (AcInt.storage s.pxOut + 1) })
        { s.wrapCounters with dout := rest } := by
  have reads : readDout s.wrapCounters = .ok value { s.wrapCounters with dout := rest } := by
    unfold readDout
    rw [ReadBack.wrapCounters_dout, taken]
  exact (bind_of_ok rfl).trans (bind_of_ok reads)

theorem readBackBody_of_empty (empty : s.dout.read = none) :
    readBackBody s = .error .readFromEmptyChannel s.wrapCounters := by
  have faults : readDout s.wrapCounters = .error .readFromEmptyChannel s.wrapCounters := by
    unfold readDout
    rw [ReadBack.wrapCounters_dout, empty]
  exact (bind_of_ok rfl).trans (bind_of_error faults)

theorem readBackBody_of_assign {next : Mat 240 376} (taken : s.dout.read = some (value, rest))
    (stores : s.downSample.assignUchar s.wrapCounters.lnOut.toInt
      (AcInt.storage s.wrapCounters.pxOut).toInt value = some next) :
    readBackBody s = .ok ()
      { dout := rest
        downSample := next
        lnOut := s.wrapCounters.lnOut
        pxOut := AcInt.ofStorage 9 (AcInt.storage s.wrapCounters.pxOut + 1) } := by
  have assigns : assignDownSample value { s.wrapCounters with dout := rest } =
      .ok () { s.wrapCounters with dout := rest, downSample := next } := by
    unfold assignDownSample
    dsimp only
    rw [ReadBack.wrapCounters_downSample, stores]
  rw [readBackBody_of_read taken]
  exact bind_of_ok assigns

theorem readBackBody_of_outside (taken : s.dout.read = some (value, rest))
    (outside : s.downSample.assignUchar s.wrapCounters.lnOut.toInt
      (AcInt.storage s.wrapCounters.pxOut).toInt value = none) :
    readBackBody s =
      .error (.matOutOfRange s.wrapCounters.lnOut.toInt
        (AcInt.storage s.wrapCounters.pxOut).toInt) { s.wrapCounters with dout := rest } := by
  have faults : assignDownSample value { s.wrapCounters with dout := rest } =
      .error (.matOutOfRange s.wrapCounters.lnOut.toInt
        (AcInt.storage s.wrapCounters.pxOut).toInt) { s.wrapCounters with dout := rest } := by
    unfold assignDownSample
    dsimp only
    rw [ReadBack.wrapCounters_downSample, outside]
  rw [readBackBody_of_read taken]
  exact bind_of_error faults

/-- An iteration with a value to read takes it, however it ends. -/
theorem dout_readBackBody (taken : s.dout.read = some (value, rest)) :
    (after (readBackBody s)).dout = rest := by
  cases stores : s.downSample.assignUchar s.wrapCounters.lnOut.toInt
      (AcInt.storage s.wrapCounters.pxOut).toInt value with
  | some next =>
      rw [readBackBody_of_assign taken stores]
      rfl
  | none =>
      rw [readBackBody_of_outside taken stores]
      rfl

end Body

theorem readBackBody_decreases (s s' : ReadBack) (_running : s.dout.available 1 = true)
    (returns : readBackBody s = .ok () s') : s'.dout.ch.length < s.dout.ch.length := by
  cases taken : s.dout.read with
  | none =>
      rw [readBackBody_of_empty taken] at returns
      cases returns
  | some entry =>
      have left := dout_readBackBody taken
      rw [returns, after_ok] at left
      rw [left, (AcChannel.ch_of_read taken).2]
      exact Nat.lt_succ_self _

/-- The read-back loop, returning the number of iterations. -/
def readBackLoop : ReadBack → EStateM.Result Fault ReadBack ℕ :=
  whileLoop (fun s => s.dout.available 1) readBackBody (fun s => s.dout.ch.length)
    readBackBody_decreases

/-! ## Where the values go -/

/-- The row of the first store, from a nonnegative storage word. -/
def startRow (lnOut : BitVec 32) : ℕ := if lnOut.toInt < 240 then lnOut.toInt.toNat else 0

theorem startRow_lt (lnOut : BitVec 32) : startRow lnOut < 240 := by
  unfold startRow
  split <;> omega

private theorem geInt_counter {n : ℕ} (fits : n < 2 ^ 9) (bound : ℕ) :
    AcInt.geInt (AcInt.storage (BitVec.ofNat 9 n)) bound = decide (bound ≤ n) := by
  rw [AcInt.geInt_storage _ (by decide), AcInt.toNat_counter fits]

private theorem increment_counter (n : ℕ) :
    AcInt.ofStorage 9 (AcInt.storage (BitVec.ofNat 9 n) + 1) = BitVec.ofNat 9 (n + 1) := by
  rw [BitVec.ofNat_add]
  exact AcInt.increment_eq _ (by decide) (by decide)

/-- The tests turn an initial word into a row of the picture. -/
theorem ReadBack.wrapCounters_start (s : ReadBack) (row : 0 ≤ s.lnOut.toInt)
    (column : s.pxOut = 0) :
    s.wrapCounters.lnOut = AcInt.storage (BitVec.ofNat 9 (startRow s.lnOut)) ∧
      s.wrapCounters.pxOut = BitVec.ofNat 9 0 := by
  have first : AcInt.geInt (AcInt.storage s.pxOut) 376 = false := by
    rw [column]
    exact geInt_counter (by decide) 376
  unfold wrapCounters startRow
  simp only [first, Bool.false_eq_true, ↓reduceIte]
  by_cases below : s.lnOut.toInt < 240
  · have stays : AcInt.geInt s.lnOut 240 = false := decide_eq_false (by omega)
    rw [if_pos below, stays, if_neg Bool.false_ne_true]
    refine ⟨BitVec.eq_of_toInt_eq ?_, column⟩
    rw [AcInt.storage_counter_toInt (by decide) (by omega), Int.toNat_of_nonneg row]
  · have wraps : AcInt.geInt s.lnOut 240 = true := decide_eq_true (by omega)
    rw [if_neg below, wraps]
    exact ⟨rfl, column⟩

/-- The tests after a store in cell `(i, j)` turn to the next cell. -/
theorem ReadBack.wrapCounters_next (s : ReadBack) {i j : ℕ} (row : i < 240) (column : j < 376)
    (lnOut : s.lnOut = AcInt.storage (BitVec.ofNat 9 i))
    (pxOut : s.pxOut = BitVec.ofNat 9 (j + 1)) :
    s.wrapCounters.lnOut = AcInt.storage (BitVec.ofNat 9
        (if j + 1 = 376 then (if i + 1 = 240 then 0 else i + 1) else i)) ∧
      s.wrapCounters.pxOut = BitVec.ofNat 9 (if j + 1 = 376 then 0 else j + 1) := by
  unfold wrapCounters
  rw [pxOut, lnOut, geInt_counter (by omega), increment_counter]
  by_cases carries : j + 1 = 376
  · rw [decide_eq_true (by omega), if_pos rfl, if_pos carries, if_pos carries]
    dsimp only
    rw [geInt_counter (by omega)]
    by_cases wraps : i + 1 = 240
    · rw [decide_eq_true (by omega), if_pos rfl, if_pos wraps]
      exact ⟨rfl, rfl⟩
    · rw [decide_eq_false (by omega), if_neg Bool.false_ne_true, if_neg wraps]
      exact ⟨rfl, rfl⟩
  · rw [decide_eq_false (by omega), if_neg Bool.false_ne_true, if_neg carries, if_neg carries]
    dsimp only
    rw [lnOut, geInt_counter (by omega), decide_eq_false (by omega), if_neg Bool.false_ne_true]
    exact ⟨lnOut, pxOut⟩

/-- The row of value `n`. -/
def rowAt (lnOut : BitVec 32) (n : ℕ) : ℕ := Grid.rowOf 240 376 (startRow lnOut) n

/-- The column of value `n`. -/
def columnAt (n : ℕ) : ℕ := Grid.columnOf 376 n

theorem rowAt_lt (lnOut : BitVec 32) (n : ℕ) : rowAt lnOut n < 240 := Grid.rowOf_lt (by decide) n

theorem columnAt_lt (n : ℕ) : columnAt n < 376 := Grid.columnOf_lt (by decide) n

/-- After `n` iterations the next tests lead to the cell of value `n`, and each cell
holds the last of the values that went to it. -/
structure Placed (values : List Uint8) (lnOut : BitVec 32) (n : ℕ) (s : ReadBack) : Prop where
  dout : s.dout = (⟨values⟩ : AcChannel Uint8).drop n
  row : s.wrapCounters.lnOut = AcInt.storage (BitVec.ofNat 9 (rowAt lnOut n))
  column : s.wrapCounters.pxOut = BitVec.ofNat 9 (columnAt n)
  held : ∀ m < n, n ≤ m + 240 * 376 →
    s.downSample.atUchar (rowAt lnOut m) (columnAt m) = values[m]?

section Loop

variable {values : List Uint8} {lnOut : BitVec 32} (mat : Mat 240 376)

theorem Placed.start (nonnegative : 0 ≤ lnOut.toInt) :
    Placed values lnOut 0 ⟨⟨values⟩, mat, lnOut, 0⟩ := by
  obtain ⟨row, column⟩ := ReadBack.wrapCounters_start ⟨⟨values⟩, mat, lnOut, 0⟩ nonnegative rfl
  exact {
    dout := rfl
    row := by rw [row, rowAt, Grid.rowOf_zero (startRow_lt lnOut)]
    column := column
    held := fun m below => absurd below (Nat.not_lt_zero m) }

/-- What an iteration does when value `n` comes. -/
structure Places (values : List Uint8) (lnOut : BitVec 32) (n : ℕ) (s s' : ReadBack) : Prop where
  row : s.wrapCounters.lnOut.toInt = rowAt lnOut n
  column : (AcInt.storage s.wrapCounters.pxOut).toInt = columnAt n
  stores : ∀ value, values[n]? = some value →
    s.downSample.assignUchar (rowAt lnOut n) (columnAt n) value = some s'.downSample

/-- **One store.** Value `n` goes to its cell, and the invariant holds of the next. -/
theorem placed_step (small : values.length < 2 ^ 32) {n : ℕ} (below : n < values.length)
    {s : ReadBack} (placed : Placed values lnOut n s) :
    ∃ s', readBackBody s = .ok () s' ∧ Places values lnOut n s s' ∧
      Placed values lnOut (n + 1) s' := by
  have size : (⟨values⟩ : AcChannel Uint8).size = values.length := AcChannel.size_of_lt _ small
  obtain ⟨inside, taken⟩ := AcChannel.read_drop ⟨values⟩ n (by rw [size]; exact below)
  rw [← placed.dout] at taken
  have rowLt := rowAt_lt lnOut n
  have columnLt := columnAt_lt n
  have row : s.wrapCounters.lnOut.toInt = rowAt lnOut n := by
    rw [placed.row, AcInt.storage_counter_toInt (by decide) (by omega)]
  have column : (AcInt.storage s.wrapCounters.pxOut).toInt = columnAt n := by
    rw [placed.column, AcInt.storage_counter_toInt (by decide) (by omega)]
  obtain ⟨next, stores, here, elsewhere⟩ := s.downSample.atUchar_assign rowLt columnLt values[n]
  have returns := readBackBody_of_assign taken (by rw [row, column]; exact stores)
  refine ⟨_, returns, ⟨row, column, ?_⟩, ?_⟩
  · intro value entry
    rw [List.getElem?_eq_getElem below] at entry
    cases entry
    exact stores
  · have nextRow : rowAt lnOut (n + 1) =
        if columnAt n + 1 = 376 then
          if rowAt lnOut n + 1 = 240 then 0 else rowAt lnOut n + 1
        else rowAt lnOut n := Grid.rowOf_succ (by decide) n
    have nextColumn : columnAt (n + 1) = if columnAt n + 1 = 376 then 0 else columnAt n + 1 :=
      Grid.columnOf_succ (by decide) n
    have counters := ReadBack.wrapCounters_next
      ⟨(⟨values⟩ : AcChannel Uint8).drop (n + 1), next, s.wrapCounters.lnOut,
        AcInt.ofStorage 9 (AcInt.storage s.wrapCounters.pxOut + 1)⟩ rowLt columnLt placed.row
      (by rw [placed.column, increment_counter])
    exact {
      dout := rfl
      row := by rw [counters.1, nextRow]
      column := by rw [counters.2, nextColumn]
      held := by
        intro m before near
        by_cases last : m = n
        · subst last
          rw [here, List.getElem?_eq_getElem below]
        · have other : (rowAt lnOut m, columnAt m) ≠ (rowAt lnOut n, columnAt n) := by
            intro same
            injection same with sameRow sameColumn
            exact last (Grid.eq_of_same_cell (by omega) (by omega) sameRow sameColumn)
          rw [elsewhere _ (rowAt_lt lnOut m) _ (columnAt_lt m) other]
          exact placed.held m (by omega) (by omega) }

/-- **The read-back loop.** Below `2 ^ 32` values, and from a nonnegative storage word,
the loop takes every value and places it. -/
theorem readBackLoop_of_lt (nonnegative : 0 ≤ lnOut.toInt) (small : values.length < 2 ^ 32) :
    ∃ final, readBackLoop ⟨⟨values⟩, mat, lnOut, 0⟩ = .ok values.length final ∧
      Placed values lnOut values.length final := by
  refine whileLoop_invariant (Placed values lnOut) values.length ?_ ?_
    (Placed.start mat nonnegative)
  · intro n below s placed
    obtain ⟨s', returns, -, next⟩ := placed_step small below placed
    have size : (⟨values⟩ : AcChannel Uint8).size = values.length := AcChannel.size_of_lt _ small
    refine ⟨?_, s', returns, next⟩
    rw [placed.dout, AcChannel.available_one, AcChannel.size_drop _ _ (by omega)]
    exact decide_eq_true (by omega)
  · intro s placed
    rw [placed.dout, AcChannel.drop, List.drop_length]
    rfl

/-- The iteration of each value. -/
theorem places_of_lt (nonnegative : 0 ≤ lnOut.toInt) (small : values.length < 2 ^ 32) {n : ℕ}
    (below : n < values.length) :
    ∃ s s', iterations (fun _ => readBackBody) n ⟨⟨values⟩, mat, lnOut, 0⟩ = .ok () s ∧
      readBackBody s = .ok () s' ∧ Places values lnOut n s s' := by
  have earlier : ∃ s, iterations (fun _ => readBackBody) n ⟨⟨values⟩, mat, lnOut, 0⟩ = .ok () s ∧
      Placed values lnOut n s := by
    refine iterations_invariant (Placed values lnOut) n ?_ (Placed.start mat nonnegative)
    intro m before s placed
    obtain ⟨s', returns, -, next⟩ := placed_step small (by omega) placed
    exact ⟨s', returns, next⟩
  obtain ⟨s, runs, placed⟩ := earlier
  obtain ⟨s', returns, places, -⟩ := placed_step small below placed
  exact ⟨s, s', runs, returns, places⟩

/-- After whole pictures, each cell holds a value of the last one, which is rotated down
by the first row. -/
theorem Placed.last_picture {pictures : ℕ} {s : ReadBack}
    (placed : Placed values lnOut values.length s) (some : 1 ≤ pictures)
    (length : values.length = pictures * (240 * 376)) {i j : ℕ} (row : i < 240)
    (column : j < 376) :
    s.downSample.atUchar i j =
      values[(pictures - 1) * (240 * 376) + ((i + 240 - startRow lnOut) % 240 * 376 + j)]? := by
  obtain ⟨rowIs, columnIs⟩ := Grid.cell_of_rotated (pictures - 1) row column (startRow_lt lnOut)
  have rotated := Nat.mod_lt (i + 240 - startRow lnOut) (show 0 < 240 by decide)
  have pictureBefore : pictures * (240 * 376) = (pictures - 1) * (240 * 376) + 240 * 376 := by
    rw [← Nat.add_one_mul, Nat.sub_add_cancel some]
  have held := placed.held
    ((pictures - 1) * (240 * 376) + ((i + 240 - startRow lnOut) % 240 * 376 + j))
    (by rw [length, pictureBefore]; omega) (by rw [length, pictureBefore]; omega)
  rw [rowAt, columnAt, rowIs, columnIs] at held
  exact held

/-- A word that is negative as an `int` faults in the first store. -/
theorem readBackLoop_of_neg (negative : lnOut.toInt < 0) (some : values ≠ [])
    (small : values.length < 2 ^ 32) :
    ∃ fault final, readBackLoop ⟨⟨values⟩, mat, lnOut, 0⟩ = .error fault final := by
  have length : values.length ≠ 0 := fun none => some (List.length_eq_zero_iff.mp none)
  have size : (⟨values⟩ : AcChannel Uint8).size = values.length := AcChannel.size_of_lt _ small
  obtain ⟨inside, taken⟩ := AcChannel.read_drop ⟨values⟩ 0 (by omega)
  have stays : AcInt.geInt lnOut 240 = false := decide_eq_false (by omega)
  have first : AcInt.geInt (AcInt.storage (0 : BitVec 9)) 376 = false :=
    geInt_counter (by decide) 376
  have row : (⟨⟨values⟩, mat, lnOut, 0⟩ : ReadBack).wrapCounters.lnOut = lnOut := by
    unfold ReadBack.wrapCounters
    simp only [first, stays, Bool.false_eq_true, ↓reduceIte]
  have faults := readBackBody_of_outside (s := ⟨⟨values⟩, mat, lnOut, 0⟩) taken
    (Mat.assignUchar_of_neg mat (by rw [row]; exact negative) _ _)
  refine ⟨_, _, whileLoop_of_error ?_ faults⟩
  rw [AcChannel.available_one, size]
  exact decide_eq_true length

end Loop

/-! ## Exact placement -/

/-- The loop takes all values in as many iterations as there are values, each store is
inside the picture and puts value `n` in row `(r0 + n / 376) % 240` and column `n % 376`, as
many consecutive stores as there are cells hit each cell once, and after whole pictures
the last one is left, rotated down by `r0` rows. -/
def ReadsBack (values : List Uint8) (v : BitVec 9) : Prop :=
  let start : ReadBack := ⟨⟨values⟩, Mat.zeros 240 376, AcInt.storage v, 0⟩
  let r0 := if v.toNat < 240 then v.toNat else 0
  (∃ final, readBackLoop start = .ok values.length final ∧ final.dout = ⟨[]⟩ ∧
    ∀ k ≥ 1, values.length = k * (240 * 376) → ∀ i < (240 : ℕ), ∀ j < (376 : ℕ),
      final.downSample.atUchar i j =
        values[(k - 1) * (240 * 376) + ((i + 240 - r0) % 240 * 376 + j)]?) ∧
  (∀ n value, values[n]? = some value → ∃ s s',
    iterations (fun _ => readBackBody) n start = .ok () s ∧ readBackBody s = .ok () s' ∧
    s.wrapCounters.lnOut.toInt = ((r0 + n / 376) % 240 : ℕ) ∧
    (AcInt.storage s.wrapCounters.pxOut).toInt = (n % 376 : ℕ) ∧
    s.downSample.assignUchar ((r0 + n / 376) % 240 : ℕ) (n % 376 : ℕ) value =
      some s'.downSample) ∧
  ∀ first, ∀ i < 240, ∀ j < 376, ∃! n, (first ≤ n ∧ n < first + 240 * 376) ∧
    (r0 + n / 376) % 240 = i ∧ n % 376 = j

/-- An iteration never takes a channel of at least `2 ^ 32` values below `2 ^ 32`. -/
private theorem readBackBody_keeps_full (s : ReadBack) (full : 2 ^ 32 ≤ s.dout.ch.length) :
    2 ^ 32 ≤ (after (readBackBody s)).dout.ch.length := by
  cases taken : s.dout.read with
  | none =>
      rw [readBackBody_of_empty taken, after_error, ReadBack.wrapCounters_dout]
      exact full
  | some entry =>
      obtain ⟨size, contents⟩ := AcChannel.ch_of_read taken
      rw [dout_readBackBody taken]
      rw [AcChannel.size] at size
      rw [contents, List.length_cons] at full size
      omega

/-- From `2 ^ 32` values on, the loop never empties the channel. -/
private theorem not_readsBack {values : List Uint8} {v : BitVec 9} (full : 2 ^ 32 ≤ values.length) :
    ¬ ReadsBack values v := by
  rintro ⟨⟨final, loops, emptied, -⟩, -⟩
  have kept : 2 ^ 32 ≤ (after (readBackLoop
      ⟨⟨values⟩, Mat.zeros 240 376, AcInt.storage v, 0⟩)).dout.ch.length :=
    whileLoop_preserves (fun s : ReadBack => 2 ^ 32 ≤ s.dout.ch.length) readBackBody_keeps_full full
  rw [loops, after_ok, emptied] at kept
  exact absurd kept (Nat.not_le_of_lt (by decide : 0 < 2 ^ 32))

/-- **Exact placement.** From any 9-bit value of the row counter, the loop reads back every
value into its cell exactly when there are fewer than `2 ^ 32` of them. -/
theorem readsBack_iff (values : List Uint8) (v : BitVec 9) :
    ReadsBack values v ↔ values.length < 2 ^ 32 := by
  constructor
  · intro reads
    by_contra full
    exact not_readsBack (by omega) reads
  · intro small
    have word : (AcInt.storage v).toInt = (v.toNat : ℤ) := AcInt.storage_toInt v (by decide)
    have nonnegative : 0 ≤ (AcInt.storage v).toInt := by rw [word]; exact Int.natCast_nonneg _
    have first : startRow (AcInt.storage v) = if v.toNat < 240 then v.toNat else 0 := by
      rw [startRow, word, Int.toNat_natCast]
      simp only [Nat.cast_lt_ofNat]
    unfold ReadsBack
    dsimp only
    rw [← first]
    refine ⟨?_, ?_, ?_⟩
    · obtain ⟨final, loops, placed⟩ := readBackLoop_of_lt (Mat.zeros 240 376) nonnegative small
      refine ⟨final, loops, ?_, ?_⟩
      · rw [placed.dout, AcChannel.drop, List.drop_length]
      · intro k some length i row j column
        exact placed.last_picture some length row column
    · intro n value entry
      obtain ⟨below, -⟩ := List.getElem?_eq_some_iff.mp entry
      obtain ⟨s, s', runs, returns, places⟩ :=
        places_of_lt (Mat.zeros 240 376) nonnegative small below
      exact ⟨s, s', runs, returns, places.row, places.column, places.stores value entry⟩
    · intro start i row j column
      exact Grid.existsUnique_item start row column

/-- The first count at which the loop fails. -/
theorem not_readsBack_full : ¬ ReadsBack (List.replicate (2 ^ 32) 0) 0 :=
  not_readsBack (by rw [List.length_replicate])

end DownSample
