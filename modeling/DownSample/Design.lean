import DownSample.Buffers

/-! # The downsampling block

One call of `DownSample` reads a 480 by 752 frame pixel by pixel. Each iteration of
the inner loop passes the pixel through the line buffer and the 2 by 2 shift register,
both function statics, and on the odd columns of odd lines writes the mean of the
register. The loops run on the wrapping counters of the source; a prefix of their
iterations is `DownSample.iterationsOf`, and all of them are the loops
(`DownSample.frameLoop_eq_iterationsOf`).

`DownSample`, `top_DownSample::DownSample` and `FP1_detect` have the same loops; the
last one has no `available` guard.
-/

namespace DownSample

open Imperative

/-- The function statics of `DownSample`. -/
structure Statics where
  rawLnData : DownLn
  rawShregData : DownShreg
deriving DecidableEq, Repr

/-- What a call of `DownSample` works on: the statics and its two channels. -/
structure Call where
  statics : Statics
  image : AcChannel Uint8
  downImage : AcChannel Uint8
deriving DecidableEq, Repr

/-- `Image.read()`. -/
def readImage : EStateM Fault Call Uint8 := fun c =>
  match c.image.read with
  | some (pixel, rest) => .ok pixel { c with image := rest }
  | none => .error .readFromEmptyChannel c

/-- Run a method of the line buffer `raw_ln_data`. -/
def onRawLnData {α : Type} (method : EStateM Fault DownLn α) : EStateM Fault Call α := fun c =>
  match method c.statics.rawLnData with
  | .ok value m => .ok value { c with statics := { c.statics with rawLnData := m } }
  | .error fault m => .error fault { c with statics := { c.statics with rawLnData := m } }

/-- One iteration of the inner loop. The source also stores `ln / 2` and `px / 2` in two
locals that nothing reads. -/
def iteration (ln : BitVec 9) (px : BitVec 10) : EStateM Fault Call Unit := do
  let pixel ← readImage
  onRawLnData (modify DownLn.beginIteration) -- ghost: a new access record
  onRawLnData (DownLn.process pixel ln.toNat px.toNat)
  modify fun c => { c with statics := { c.statics with
    rawShregData :=
      c.statics.rawShregData.process c.statics.rawLnData.rdData ln.toNat px.toNat } }
  if ln % 2 = 1 ∧ px % 2 = 1 then
    modify fun c => { c with downImage := c.downImage.write c.statics.rawShregData.downPixel }

theorem lines_fit : 480 < 2 ^ 9 := by decide

theorem columns_fit : 752 < 2 ^ 10 := by decide

/-- The nested loops over the lines and the columns of a frame. -/
def frameLoop : EStateM Fault Call Unit :=
  forLoop 480 lines_fit (fun ln => forLoop 752 columns_fit (fun px => iteration ln px) 0) 0

/-- `DownSample`. -/
def downSample : EStateM Fault Call Unit := do
  if (← get).image.available 1 then
    frameLoop

/-- `go`. -/
def go : EStateM Fault Call Unit := downSample

/-- `top_DownSample::run`, which calls the member function `DownSample` with the same body. -/
def TopDownSample.run : EStateM Fault Call Unit := downSample

/-- `FP1_detect`: the loops of `DownSample` without its guard. -/
def fp1Detect : EStateM Fault Call Unit := frameLoop

/-- The iteration of the inner loop that reads pixel `t` of a frame. -/
def iterationAt (t : ℕ) : EStateM Fault Call Unit :=
  iteration (BitVec.ofNat 9 (t / 752)) (BitVec.ofNat 10 (t % 752))

/-- The first `count` iterations of the inner loop in a call. -/
def iterationsOf (count : ℕ) : EStateM Fault Call Unit := iterations iterationAt count

/-- The loops make `480 * 752` iterations in raster order, and their counters do not
wrap. -/
theorem frameLoop_eq_iterationsOf : frameLoop = iterationsOf (480 * 752) := by
  unfold frameLoop iterationsOf
  exact forLoop_nested lines_fit columns_fit iteration

/-! ## What one iteration does -/

private theorem mod_two_eq_one {width : ℕ} (wide : 2 ≤ width) (counter : BitVec width) :
    counter % 2 = 1 ↔ counter.toNat % 2 = 1 := by
  have room : 2 ^ 2 ≤ 2 ^ width := Nat.pow_le_pow_right (by omega) wide
  have two : (2 : BitVec width).toNat = 2 :=
    (BitVec.toNat_ofNat 2 width).trans (Nat.mod_eq_of_lt (by omega))
  have one : (1 : BitVec width).toNat = 1 :=
    (BitVec.toNat_ofNat 1 width).trans (Nat.mod_eq_of_lt (by omega))
  rw [← BitVec.toNat_inj, BitVec.toNat_umod, two, one]

theorem iteration_of_empty (ln : BitVec 9) (px : BitVec 10) (c : Call)
    (empty : c.image.read = none) : iteration ln px c = .error .readFromEmptyChannel c := by
  have faults : readImage c = .error .readFromEmptyChannel c := by
    unfold readImage
    rw [empty]
  exact bind_of_error faults

/-- An iteration takes a pixel, passes it through the line buffer and the shift
register, and writes the mean of the register on the odd columns of odd lines. -/
theorem iteration_of_process (ln : BitVec 9) (px : BitVec 10) (c : Call) {pixel : Uint8}
    {rest : AcChannel Uint8} {m : DownLn} (taken : c.image.read = some (pixel, rest))
    (returns : DownLn.process pixel ln.toNat px.toNat c.statics.rawLnData.beginIteration =
      .ok () m) :
    iteration ln px c = .ok ()
      { statics := ⟨m, c.statics.rawShregData.process m.rdData ln.toNat px.toNat⟩
        image := rest
        downImage :=
          if ln.toNat % 2 = 1 ∧ px.toNat % 2 = 1 then
            c.downImage.write
              (c.statics.rawShregData.process m.rdData ln.toNat px.toNat).downPixel
          else c.downImage } := by
  have reads : readImage c = .ok pixel { c with image := rest } := by
    unfold readImage
    rw [taken]
  have processes : onRawLnData (DownLn.process pixel ln.toNat px.toNat)
      { c with image := rest, statics := { c.statics with
        rawLnData := c.statics.rawLnData.beginIteration } } =
      .ok () { c with image := rest, statics := { c.statics with rawLnData := m } } := by
    unfold onRawLnData
    simp only [returns]
  refine (bind_of_ok reads).trans ((bind_of_ok rfl).trans ((bind_of_ok processes).trans
    ((bind_of_ok rfl).trans ?_)))
  simp only [mod_two_eq_one (show 2 ≤ 9 by decide), mod_two_eq_one (show 2 ≤ 10 by decide)]
  split <;> rfl

end DownSample
