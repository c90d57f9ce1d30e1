import DownSample.Buffers
import DownSample.Library.Overlay
import Mathlib.Data.List.Basic
import Mathlib.Logic.Function.Basic

/-! # The line buffer as a line of bytes

Read as a line of bytes (`DownSample.DownLn.byteLine`), the packed buffer is a plain
memory. A pair of calls at the two columns of a word replaces the two bytes of that
word on an even line and observes them on an odd line, whatever stale halves the two
registers hold (`DownSample.DownLn.pairStep_even`, `DownSample.DownLn.pairStep_odd`).
Over any sequence of pairs the buffer therefore simulates the byte line that is only
written on even lines (`DownSample.DownLn.pairSteps_simulate`).
-/

namespace DownSample

open Imperative

namespace DownLn

/-- The low byte of a word. -/
def lowByte (word : Uint16) : Uint8 := word.setWidth 8

/-- The high byte of a word. -/
def highByte (word : Uint16) : Uint8 := (word >>> 8).setWidth 8

section Bytes

variable (word : Uint16) (data : Uint8)

theorem slc_low : AcInt.slc 8 word 0 = lowByte word := by
  apply BitVec.eq_of_getLsbD_eq
  intro i below
  rw [AcInt.getLsbD_slc word (by omega) (by omega) (by omega) 0 (by omega), Nat.zero_add, lowByte,
    BitVec.getLsbD_setWidth]

theorem slc_high : AcInt.slc 8 word 8 = highByte word := by
  apply BitVec.eq_of_getLsbD_eq
  intro i below
  rw [AcInt.getLsbD_slc word (by omega) (by omega) (by omega) 8 (by omega), highByte,
    BitVec.getLsbD_setWidth, BitVec.getLsbD_ushiftRight]

private theorem getLsbD_highByte (i : ℕ) (below : i < 8) :
    (highByte word).getLsbD i = word.getLsbD (8 + i) := by
  rw [highByte, BitVec.getLsbD_setWidth, BitVec.getLsbD_ushiftRight, decide_eq_true below,
    Bool.true_and]

private theorem getLsbD_lowByte (i : ℕ) (below : i < 8) :
    (lowByte word).getLsbD i = word.getLsbD i := by
  rw [lowByte, BitVec.getLsbD_setWidth, decide_eq_true below, Bool.true_and]

theorem lowByte_setSlc_low : lowByte (AcInt.setSlc word 0 data) = data := by
  apply BitVec.eq_of_getLsbD_eq
  intro i below
  rw [getLsbD_lowByte _ i below,
    AcInt.getLsbD_setSlc word 0 data (by omega) (by omega) i (by omega), if_pos (by omega),
    Nat.sub_zero]

theorem lowByte_setSlc_high : lowByte (AcInt.setSlc word 8 data) = lowByte word := by
  apply BitVec.eq_of_getLsbD_eq
  intro i below
  rw [getLsbD_lowByte _ i below, getLsbD_lowByte _ i below,
    AcInt.getLsbD_setSlc word 8 data (by omega) (by omega) i (by omega), if_neg (by omega)]

theorem highByte_setSlc_high : highByte (AcInt.setSlc word 8 data) = data := by
  apply BitVec.eq_of_getLsbD_eq
  intro i below
  rw [getLsbD_highByte _ i below,
    AcInt.getLsbD_setSlc word 8 data (by omega) (by omega) (8 + i) (by omega), if_pos (by omega),
    Nat.add_sub_cancel_left]

end Bytes

/-- The pixel the buffer holds for a column: the low half of its word for an even
column, the high half for an odd one. -/
def byteLine (m : DownLn) (column : ℕ) : Uint8 :=
  let word := m.line0[column / 2]?.getD 0
  if column % 2 = 0 then lowByte word else highByte word

theorem byteLine_even (m : DownLn) {a : ℕ} (inside : a < 376) :
    m.byteLine (2 * a) = lowByte m.line0[a] := by
  have index : 2 * a / 2 = a := by omega
  have parity : 2 * a % 2 = 0 := by omega
  simp only [byteLine, index, parity, ↓reduceIte, Vector.getElem?_eq_getElem inside,
    Option.getD_some]

theorem byteLine_odd (m : DownLn) {a : ℕ} (inside : a < 376) :
    m.byteLine (2 * a + 1) = highByte m.line0[a] := by
  have index : (2 * a + 1) / 2 = a := by omega
  have parity : (2 * a + 1) % 2 = 1 := by omega
  simp only [byteLine, index, parity, one_ne_zero, ↓reduceIte, Vector.getElem?_eq_getElem inside,
    Option.getD_some]

/-- Storing a word replaces its two bytes and no other. -/
theorem byteLine_of_set {m stored : DownLn} {a : ℕ} (inside : a < 376) (word : Uint16)
    (line : stored.line0 = m.line0.set a word) :
    stored.byteLine =
      Function.update (Function.update m.byteLine (2 * a) (lowByte word)) (2 * a + 1)
        (highByte word) := by
  funext column
  by_cases even : column = 2 * a
  · subst even
    rw [Function.update_of_ne (by omega), Function.update_self, byteLine_even stored inside]
    simp only [line, Vector.getElem_set_self]
  · by_cases odd : column = 2 * a + 1
    · subst odd
      rw [Function.update_self, byteLine_odd stored inside]
      simp only [line, Vector.getElem_set_self]
    · rw [Function.update_of_ne odd, Function.update_of_ne even]
      have other : a ≠ column / 2 := by omega
      simp only [byteLine, line, Vector.getElem?_set_ne inside other]

theorem byteLine_congr {m other : DownLn} (line : other.line0 = m.line0) :
    other.byteLine = m.byteLine := by
  unfold byteLine
  rw [line]

/-! ## Pairs of calls -/

/-- Two successive calls of `process` on one line, at the two columns of a word. -/
structure PairStep where
  ln : ℕ
  addr : Fin 376
  first : Uint8
  second : Uint8

/-- The two calls of a pair. -/
def pairStep (step : PairStep) : EStateM Fault DownLn Unit := do
  process step.first step.ln (2 * step.addr.val : ℕ)
  process step.second step.ln (2 * step.addr.val + 1 : ℕ)

/-- What a pair writes to a plain line of bytes: on an even line its two pixels at its
two columns, on an odd line nothing. -/
def PairStep.writes (step : PairStep) (column : ℕ) : Option Uint8 :=
  if step.ln % 2 = 0 then
    if column = 2 * step.addr then some step.first
    else if column = 2 * step.addr + 1 then some step.second
    else none
  else none

/-- A pair on an even line writes its two bytes and leaves the read side alone. -/
theorem pairStep_even (m : DownLn) (step : PairStep) (line : step.ln % 2 = 0) :
    ∃ m₁ m₂, process step.first step.ln (2 * step.addr.val : ℕ) m = .ok () m₁ ∧
      process step.second step.ln (2 * step.addr.val + 1 : ℕ) m₁ = .ok () m₂ ∧
      m₂.byteLine =
        Function.update (Function.update m.byteLine (2 * step.addr) step.first)
          (2 * step.addr + 1) step.second ∧
      m₂.rdData = m.rdData ∧ m₂.rdBuffer = m.rdBuffer := by
  have index : (2 * step.addr.val + 1) / 2 = step.addr.val := by omega
  have inside : (2 * step.addr.val + 1) / 2 < 376 := index.trans_lt step.addr.isLt
  refine ⟨_, _, process_even_even m step.first line (by omega),
    process_even_odd _ step.second line (by omega) inside, ?_, rfl, rfl⟩
  simp only [index]
  rw [byteLine_of_set (m := m) step.addr.isLt _ rfl, lowByte_setSlc_high, lowByte_setSlc_low,
    highByte_setSlc_high]

/-- A pair on an odd line shows its two bytes one after the other, each with the
pixel of its call, and leaves the write side alone. -/
theorem pairStep_odd (m : DownLn) (step : PairStep) (line : step.ln % 2 = 1) :
    ∃ m₁ m₂, process step.first step.ln (2 * step.addr.val : ℕ) m = .ok () m₁ ∧
      process step.second step.ln (2 * step.addr.val + 1 : ℕ) m₁ = .ok () m₂ ∧
      m₁.rdData = #v[m.byteLine (2 * step.addr), step.first] ∧
      m₂.rdData = #v[m.byteLine (2 * step.addr + 1), step.second] ∧
      m₂.byteLine = m.byteLine ∧ m₂.wrBuffer = m.wrBuffer := by
  have index : 2 * step.addr.val / 2 = step.addr.val := by omega
  have inside : 2 * step.addr.val / 2 < 376 := index.trans_lt step.addr.isLt
  refine ⟨_, _, process_odd_even m step.first line (by omega) inside,
    process_odd_odd _ step.second line (by omega), ?_, ?_, byteLine_congr rfl, rfl⟩
  · simp only [index, slc_low, byteLine_even m step.addr.isLt]
  · simp only [index, slc_high, byteLine_odd m step.addr.isLt]

/-- Every pair returns and acts on the byte line as its writes say. -/
theorem pairStep_simulates (m : DownLn) (step : PairStep) :
    ∃ m', pairStep step m = .ok () m' ∧
      m'.byteLine = Memory.overlay step.writes m.byteLine := by
  rcases Nat.mod_two_eq_zero_or_one step.ln with even | odd
  · obtain ⟨m₁, m₂, first, second, line, -, -⟩ := pairStep_even m step even
    refine ⟨m₂, (bind_of_ok first).trans second, line.trans ?_⟩
    funext column
    simp only [Memory.overlay, PairStep.writes, even, ↓reduceIte]
    by_cases high : column = 2 * step.addr + 1
    · subst high
      rw [Function.update_self, if_neg (by omega), if_pos rfl, Option.getD_some]
    · by_cases low : column = 2 * step.addr
      · subst low
        rw [Function.update_of_ne high, Function.update_self, if_pos rfl, Option.getD_some]
      · rw [Function.update_of_ne high, Function.update_of_ne low, if_neg low, if_neg high,
          Option.getD_none]
  · obtain ⟨m₁, m₂, first, second, -, -, line, -⟩ := pairStep_odd m step odd
    refine ⟨m₂, (bind_of_ok first).trans second, line.trans ?_⟩
    funext column
    simp only [Memory.overlay, PairStep.writes, odd, one_ne_zero, ↓reduceIte, Option.getD_none]

/-- A sequence of pairs replays their writes on the byte line. -/
theorem pairSteps_simulate (m : DownLn) (steps : List PairStep) :
    ∃ m', forM steps pairStep m = .ok () m' ∧
      m'.byteLine = Memory.replay PairStep.writes steps m.byteLine := by
  induction steps generalizing m with
  | nil => exact ⟨m, rfl, rfl⟩
  | cons step rest ih =>
      obtain ⟨middle, returns, line⟩ := pairStep_simulates m step
      obtain ⟨final, runs, replayed⟩ := ih middle
      refine ⟨final, ?_, ?_⟩
      · rw [List.forM_cons, bind_of_ok returns, runs]
      · rw [replayed, line]
        rfl

/-- What a pair does in a state of the buffer, in terms of the line of bytes the state
holds: an even line writes the two bytes of its word only, an odd line observes them. -/
def PairStep.ActsOnBytes (step : PairStep) (m : DownLn) : Prop :=
  ∃ m₁ m₂, process step.first step.ln (2 * step.addr.val : ℕ) m = .ok () m₁ ∧
    process step.second step.ln (2 * step.addr.val + 1 : ℕ) m₁ = .ok () m₂ ∧
    (step.ln % 2 = 0 →
      m₂.byteLine =
        Function.update (Function.update m.byteLine (2 * step.addr) step.first)
          (2 * step.addr + 1) step.second ∧
      m₂.rdData = m.rdData ∧ m₂.rdBuffer = m.rdBuffer) ∧
    (step.ln % 2 = 1 →
      m₁.rdData = #v[m.byteLine (2 * step.addr), step.first] ∧
      m₂.rdData = #v[m.byteLine (2 * step.addr + 1), step.second] ∧
      m₂.byteLine = m.byteLine ∧ m₂.wrBuffer = m.wrBuffer)

/-- **The packed buffer refines a line of bytes.** From every state, a sequence of
pairs in any order of addresses and parities returns; it leaves in every column the
byte last written there by an even line, or the initial one, and the next pair again
acts on exactly that line of bytes. -/
theorem packedLine_refines_byteLine (m : DownLn) (steps : List PairStep) :
    ∃ m', forM steps pairStep m = .ok () m' ∧
      (∀ column, m'.byteLine column =
        ((steps.filterMap fun step => step.writes column).getLast?).getD (m.byteLine column)) ∧
      ∀ next : PairStep, next.ActsOnBytes m' := by
  obtain ⟨m', runs, replayed⟩ := pairSteps_simulate m steps
  refine ⟨m', runs, fun column => ?_, fun next => ?_⟩
  · rw [replayed]
    exact Memory.replay_eq_getLast PairStep.writes m.byteLine steps column
  · rcases Nat.mod_two_eq_zero_or_one next.ln with even | odd
    · obtain ⟨m₁, m₂, first, second, effect⟩ := pairStep_even m' next even
      exact ⟨m₁, m₂, first, second, fun _ => effect, fun odd => by omega⟩
    · obtain ⟨m₁, m₂, first, second, effect⟩ := pairStep_odd m' next odd
      exact ⟨m₁, m₂, first, second, fun even => by omega, fun _ => effect⟩

end DownLn

end DownSample
