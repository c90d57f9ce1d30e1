import DownSample.Bitmap.Headers

/-! # Taking pixels from a bitmap file

A line of pixels is read in blocks of four bytes (`DownSample.getbyte`), and the rest of a
block is thrown away at the end of a line, which is how the padding of lines is
skipped. `DownSample.Block` says what the object holds after some bytes of a line, and
`DownSample.getbyte_block` is its step.

A pixel of 24 bits is three bytes. The format packs pixels of 1, 4 or 8 bits into bytes, from
the highest bits on (`DownSample.packedPixel`). The code masks the high bits without moving
them down and then shifts the byte to the right, so that the first pixel of a byte is taken
for a multiple of itself and every other pixel for zero (`DownSample.toNat_getpixelAt`). Only at
8 and 24 bits is what it takes the pixel of the format.
-/

namespace DownSample

open Imperative

/-- The members of class `ccs_bmpfile`. -/
structure CcsBmpObject where
  header : CcsBmpHeader
  infoheader : CcsBmpInfoHeader
  colortable : CcsBmpColorTable
  array : List (BitVec 8)
  bytesleft : BitVec 16
  fourbytebuffer : BitVec 32
  bitsleft : BitVec 16
  pixelbuffer : BitVec 8
deriving DecidableEq, Repr

/-- An object that is being read from a file, and the local pointer into its array. -/
structure Loading where
  fp : File
  bmp : CcsBmpObject
  index : ℕ
deriving DecidableEq, Repr

/-- `fread` of the next four bytes into `fourbytebuffer`, and `bytesleft = 4`. -/
def refill : EStateM BmpFault Loading Unit := fun s =>
  match fread 4 s.bmp.fourbytebuffer s.fp with
  | .ok buffer fp =>
      .ok () { s with fp, bmp := { s.bmp with fourbytebuffer := buffer, bytesleft := 4 } }
  | .error fault fp => .error fault { s with fp }

/-- `ccs_bmpfile::getbyte`. -/
def getbyte : EStateM BmpFault Loading (BitVec 8) := do
  if (← get).bmp.bytesleft = 0 then
    refill
  modify fun s => { s with bmp := { s.bmp with bytesleft := s.bmp.bytesleft - 1 } }
  let ret := ((← get).bmp.fourbytebuffer &&& 255).setWidth 8
  modify fun s => { s with bmp := { s.bmp with fourbytebuffer := s.bmp.fourbytebuffer >>> 8 } }
  return ret

/-- Mask the high bits of the pixel buffer and shift it to the right. -/
def takeBits (bits : ℕ) (mask : BitVec 32) : EStateM BmpFault Loading (BitVec 32) := do
  modify fun s => { s with bmp := { s.bmp with bitsleft := s.bmp.bitsleft - BitVec.ofNat 16 bits } }
  let ret := (← get).bmp.pixelbuffer.setWidth 32 &&& mask
  modify fun s => { s with bmp := { s.bmp with pixelbuffer := s.bmp.pixelbuffer >>> bits } }
  return ret

/-- The first line of `ccs_bmpfile::getpixel`: a byte into the pixel buffer when it is spent. -/
def fillPixelbuffer : EStateM BmpFault Loading Unit := do
  if (← get).bmp.bitsleft = 0 then
    let byte ← getbyte
    modify fun s => { s with bmp := { s.bmp with pixelbuffer := byte, bitsleft := 8 } }

/-- The switch of `ccs_bmpfile::getpixel`. The operands of `|` are evaluated from left to
right. -/
def switchBitcount : EStateM BmpFault Loading (BitVec 32) := do
  let bitcount := (← get).bmp.infoheader.bitcount
  if bitcount = 1 then takeBits 1 128
  else if bitcount = 2 then takeBits 2 192
  else if bitcount = 4 then takeBits 4 240
  else if bitcount = 8 then
    modify fun s => { s with bmp := { s.bmp with bitsleft := 0 } }
    return (← get).bmp.pixelbuffer.setWidth 32
  else if bitcount = 16 then
    modify fun s => { s with bmp := { s.bmp with bitsleft := 0 } }
    let high := (← get).bmp.pixelbuffer.setWidth 32
    let low ← getbyte
    return (high <<< 8) ||| low.setWidth 32
  else if bitcount = 24 then
    modify fun s => { s with bmp := { s.bmp with bitsleft := 0 } }
    let high := (← get).bmp.pixelbuffer.setWidth 32
    let middle ← getbyte
    let low ← getbyte
    return (high <<< 16) ||| (middle.setWidth 32 <<< 8) ||| low.setWidth 32
  else throw (.assertion .pixelDepth)

/-- `ccs_bmpfile::getpixel`. -/
def getpixel : EStateM BmpFault Loading (BitVec 32) := do
  fillPixelbuffer
  switchBitcount

/-! ## Bytes -/

/-- The object after a byte has been taken, given what is left of the file and of its
block. -/
def Loading.taken (s : Loading) (fp : File) (bytesleft : BitVec 16) (buffer : BitVec 32) :
    Loading :=
  { s with fp, bmp := { s.bmp with bytesleft := bytesleft, fourbytebuffer := buffer } }

/-- What `fread` leaves in a buffer of four bytes. -/
def blockRead (old : BitVec 32) (fp : File) : BitVec 32 :=
  BitVec.ofNat 32 (LittleEndian.combine
    (LittleEndian.overwrite (LittleEndian.split 4 old.toNat) (fp.take 4)))

/-- Masking the low byte of a word is cutting the word to a byte. -/
theorem and_low (word : BitVec 32) : (word &&& 255).setWidth 8 = word.setWidth 8 := by
  apply BitVec.eq_of_toNat_eq
  have mask : (255 : BitVec 32).toNat = 2 ^ 8 - 1 := rfl
  rw [BitVec.toNat_setWidth, BitVec.toNat_and, mask, Nat.and_two_pow_sub_one_eq_mod, Nat.mod_mod,
    BitVec.toNat_setWidth]

/-- With bytes left, the next byte is the lowest of the buffer. -/
theorem getbyte_of_left (s : Loading) (left : s.bmp.bytesleft ≠ 0) :
    getbyte s = .ok (s.bmp.fourbytebuffer.setWidth 8)
      (s.taken s.fp (s.bmp.bytesleft - 1) (s.bmp.fourbytebuffer >>> 8)) := by
  unfold getbyte
  refine (bind_of_ok rfl).trans ?_
  rw [if_neg left]
  refine (bind_of_ok rfl).trans ((bind_of_ok rfl).trans ((bind_of_ok rfl).trans ?_))
  exact congrArg (EStateM.Result.ok · _) (and_low _)

/-- The object after the next block has been read. -/
def Loading.refilled (s : Loading) : Loading :=
  s.taken (s.fp.drop 4) 4 (blockRead s.bmp.fourbytebuffer s.fp)

theorem Loading.refilled_left (s : Loading) : s.refilled.bmp.bytesleft ≠ 0 :=
  show (4 : BitVec 16) ≠ 0 by decide

/-- Without bytes left, the next block of the file is read first. -/
theorem getbyte_of_none (s : Loading) (none : s.bmp.bytesleft = 0) :
    getbyte s = getbyte s.refilled := by
  unfold getbyte
  refine (bind_of_ok rfl).trans (Eq.trans ?_ (bind_of_ok rfl).symm)
  rw [if_pos none, if_neg s.refilled_left]
  exact bind_of_ok rfl

/-- The bytes of a block that are in the file are its first bytes. -/
theorem digit_blockRead (old : BitVec 32) {fp : File} {k : ℕ} (inside : k < 4)
    (there : k < fp.length) :
    (blockRead old fp).toNat / 256 ^ k % 256 = (fp.getD k 0).toNat := by
  have read : (fp.take 4).length ≤ (LittleEndian.split 4 old.toNat).length := by
    rw [LittleEndian.length_split, List.length_take]
    omega
  have length := LittleEndian.length_overwrite read
  rw [LittleEndian.length_split] at length
  have small : LittleEndian.combine (LittleEndian.overwrite (LittleEndian.split 4 old.toNat)
      (fp.take 4)) < 2 ^ 32 := by
    have bound := LittleEndian.combine_lt
      (LittleEndian.overwrite (LittleEndian.split 4 old.toNat) (fp.take 4))
    rwa [length] at bound
  have taken : k < (fp.take 4).length := by
    rw [List.length_take]
    omega
  have place : k < (LittleEndian.overwrite (LittleEndian.split 4 old.toNat) (fp.take 4)).length :=
    length.symm ▸ inside
  have byte := LittleEndian.getElem?_overwrite (LittleEndian.split 4 old.toNat) taken
  rw [List.getElem?_eq_getElem place, List.getElem?_take_of_lt inside,
    List.getElem?_eq_getElem there] at byte
  rw [blockRead, BitVec.toNat_ofNat, Nat.mod_eq_of_lt small, LittleEndian.digit_combine place,
    List.getD_eq_getElem?_getD, List.getElem?_eq_getElem there, Option.getD_some,
    Option.some_inj.mp byte]

/-- What the object holds at a place of the file when `left` bytes of the block are left:
those of them that are in the file are the next bytes of the file. -/
structure Buffered (file : File) (place left : ℕ) (s : Loading) : Prop where
  fp : s.fp = file.drop (place + left)
  bytesleft : s.bmp.bytesleft = BitVec.ofNat 16 left
  bytes : ∀ k < left, place + k < file.length →
    s.bmp.fourbytebuffer.toNat / 256 ^ k % 256 = (file.getD (place + k) 0).toNat

section Buffered

variable {file : File} {place left : ℕ} {s : Loading}

/-- A block is read from its place in the file. -/
theorem Buffered.refill (buffered : Buffered file place 0 s) :
    Buffered file place 4 s.refilled where
  fp := by
    change s.fp.drop 4 = _
    rw [buffered.fp, List.drop_drop, Nat.add_zero]
  bytesleft := rfl
  bytes k below inside := by
    have length : s.fp.length = file.length - place := by
      rw [buffered.fp, List.length_drop, Nat.add_zero]
    have rest : s.fp.getD k 0 = file.getD (place + k) 0 := by
      rw [buffered.fp, Nat.add_zero, List.getD_eq_getElem?_getD, List.getElem?_drop,
        List.getD_eq_getElem?_getD]
    rw [← rest]
    exact digit_blockRead s.bmp.fourbytebuffer below (by omega)

/-- The next byte of a block is the byte at the place in the file, where the file has it. -/
theorem Buffered.next (buffered : Buffered file place (left + 1) s) (small : left < 4) :
    ∃ byte fp bytesleft buffer, getbyte s = .ok byte (s.taken fp bytesleft buffer) ∧
      (place < file.length → byte = file.getD place 0) ∧
      Buffered file (place + 1) left (s.taken fp bytesleft buffer) := by
  have nonzero : s.bmp.bytesleft ≠ 0 := by
    rw [buffered.bytesleft]
    intro none
    have zero := congrArg BitVec.toNat none
    rw [BitVec.toNat_ofNat] at zero
    change _ = 0 at zero
    omega
  have byte (there : place < file.length) :
      s.bmp.fourbytebuffer.setWidth 8 = file.getD place 0 := by
    apply BitVec.eq_of_toNat_eq
    have first := buffered.bytes 0 (Nat.succ_pos left) there
    rw [Nat.pow_zero, Nat.div_one, Nat.add_zero] at first
    rw [BitVec.toNat_setWidth]
    exact first
  refine ⟨_, _, _, _, getbyte_of_left s nonzero, byte, ?_⟩
  exact {
    fp := by
      change s.fp = _
      rw [buffered.fp, Nat.add_right_comm, Nat.add_assoc]
    bytesleft := by
      change s.bmp.bytesleft - 1 = _
      rw [buffered.bytesleft, BitVec.ofNat_add]
      exact BitVec.add_sub_cancel _ _
    bytes := by
      intro k below inside
      change (s.bmp.fourbytebuffer >>> 8).toNat / _ % _ = _
      have digit := buffered.bytes (k + 1) (by omega) (by omega)
      have shifted : 2 ^ 8 * 256 ^ k = 256 ^ (k + 1) := (Nat.pow_succ' ..).symm
      have next : place + 1 + k = place + (k + 1) := by omega
      rw [BitVec.toNat_ushiftRight, Nat.shiftRight_eq_div_pow, Nat.div_div_eq_div_mul, shifted,
        digit, next] }

end Buffered

/-- What the object holds after `n` bytes of a line that starts at an offset of the file: the
rest of a block of four bytes. -/
def Block (file : File) (start n : ℕ) (s : Loading) : Prop :=
  Buffered file (start + n) (4 * ((n + 3) / 4) - n) s

/-- A byte can always be taken. Where it is in the file, it is taken from the file; beyond
the end of the file the byte is one that was left in the block. -/
theorem getbyte_block {file : File} {start n : ℕ} {s : Loading}
    (block : Block file start n s) :
    ∃ byte fp bytesleft buffer, getbyte s = .ok byte (s.taken fp bytesleft buffer) ∧
      (start + n < file.length → byte = file.getD (start + n) 0) ∧
      Block file start (n + 1) (s.taken fp bytesleft buffer) := by
  unfold Block at block ⊢
  by_cases aligned : n % 4 = 0
  · have empty : 4 * ((n + 3) / 4) - n = 0 := by omega
    have rest : 4 * ((n + 1 + 3) / 4) - (n + 1) = 3 := by omega
    rw [empty] at block
    rw [rest, getbyte_of_none s block.bytesleft]
    exact block.refill.next (by omega)
  · obtain ⟨left, more⟩ : ∃ left, 4 * ((n + 3) / 4) - n = left + 1 :=
      ⟨4 * ((n + 3) / 4) - n - 1, by omega⟩
    have rest : 4 * ((n + 1 + 3) / 4) - (n + 1) = left := by omega
    rw [more] at block
    rw [rest]
    exact block.next (by omega)

/-- The bytes of a line, as they are in the file wherever the file has them. -/
def Agrees (file : File) (start : ℕ) (byteAt : ℕ → BitVec 8) : Prop :=
  ∀ k, start + k < file.length → byteAt k = file.getD (start + k) 0

theorem agrees_file (file : File) (start : ℕ) :
    Agrees file start fun k => file.getD (start + k) 0 := fun _ _ => rfl

theorem Agrees.update {file : File} {start n : ℕ} {byteAt : ℕ → BitVec 8}
    (agrees : Agrees file start byteAt) {byte : BitVec 8}
    (taken : start + n < file.length → byte = file.getD (start + n) 0) :
    Agrees file start (Function.update byteAt n byte) := by
  intro k inside
  by_cases same : k = n
  · subst same
    rw [Function.update_self, taken inside]
  · rw [Function.update_of_ne same, agrees k inside]

/-! ## Pixels -/

/-- The members that taking pixels leaves alone. -/
def Loading.kept (s : Loading) :
    CcsBmpHeader × CcsBmpInfoHeader × CcsBmpColorTable × List (BitVec 8) × ℕ :=
  (s.bmp.header, s.bmp.infoheader, s.bmp.colortable, s.bmp.array, s.index)

/-- The object with another pixel buffer. -/
def Loading.withPixel (s : Loading) (pixelbuffer : BitVec 8) (bitsleft : BitVec 16) : Loading :=
  { s with bmp := { s.bmp with pixelbuffer := pixelbuffer, bitsleft := bitsleft } }

theorem Block.withPixel {file : File} {start n : ℕ} {s : Loading} (block : Block file start n s)
    (pixelbuffer : BitVec 8) (bitsleft : BitVec 16) :
    Block file start n (s.withPixel pixelbuffer bitsleft) :=
  ⟨block.fp, block.bytesleft, block.bytes⟩

/-- The depths that a bitmap can be loaded with. -/
def Readable (depth : ℕ) : Prop := depth = 1 ∨ depth = 4 ∨ depth = 8 ∨ depth = 24

instance (depth : ℕ) : Decidable (Readable depth) :=
  inferInstanceAs (Decidable (_ ∨ _ ∨ _ ∨ _))

/-- The number of bytes that hold the first `j` pixels of a line. -/
def bytesTaken (depth j : ℕ) : ℕ := (depth * j + 7) / 8

/-- The mask of the high `depth` bits of a byte. -/
def highBits (depth : ℕ) : BitVec 8 := ~~~((255 : BitVec 8) >>> depth)

/-- Pixel `j` of a line, as the format packs pixels of at most 8 bits: from the high bits of a
byte to the low ones. -/
def packedPixel (depth : ℕ) (byteAt : ℕ → BitVec 8) (j : ℕ) : ℕ :=
  (byteAt (depth * j / 8)).toNat / 2 ^ (8 - depth - depth * j % 8) % 2 ^ depth

/-- What `getpixel` returns for pixel `j` of a line of bytes. This is not the pixel of the
format at 1 and 4 bits. -/
def getpixelAt (depth : ℕ) (byteAt : ℕ → BitVec 8) (j : ℕ) : BitVec 32 :=
  if depth = 24 then
    ((byteAt (3 * j)).setWidth 32 <<< 16) ||| ((byteAt (3 * j + 1)).setWidth 32 <<< 8) |||
      (byteAt (3 * j + 2)).setWidth 32
  else if depth * j % 8 = 0 then (byteAt (depth * j / 8) &&& highBits depth).setWidth 32
  else 0

/-- What the object holds after `j` pixels of a line: what is left of the pixel buffer has
no high bits. -/
structure LineAt (file : File) (start depth j : ℕ) (s : Loading) : Prop where
  block : Block file start (bytesTaken depth j) s
  bitsleft : s.bmp.bitsleft = BitVec.ofNat 16 (8 * bytesTaken depth j - depth * j)
  spent : depth * j % 8 ≠ 0 → s.bmp.pixelbuffer &&& highBits depth = 0

theorem getLsbD_highBits {depth : ℕ} (i : ℕ) :
    (highBits depth).getLsbD i = decide (i < 8 ∧ 8 ≤ depth + i) := by
  have ones : (255 : BitVec 8) = BitVec.allOnes 8 := rfl
  rw [highBits, ones, BitVec.getLsbD_not, BitVec.getLsbD_ushiftRight, BitVec.getLsbD_allOnes]
  by_cases inside : i < 8
  · by_cases high : depth + i < 8
    · rw [decide_eq_true inside, decide_eq_true high, decide_eq_false (by omega)]
      rfl
    · rw [decide_eq_true inside, decide_eq_false high, decide_eq_true (by omega)]
      rfl
  · have outside : ¬ (i < 8 ∧ 8 ≤ depth + i) := fun both => inside both.1
    rw [decide_eq_false inside, decide_eq_false outside, Bool.false_and]

/-- The high bits of a byte are masked where they stand. -/
theorem toNat_and_highBits {depth : ℕ} (bound : depth ≤ 8) (byte : BitVec 8) :
    (byte &&& highBits depth).toNat = byte.toNat / 2 ^ (8 - depth) * 2 ^ (8 - depth) := by
  have moved : byte &&& highBits depth = (byte >>> (8 - depth)) <<< (8 - depth) := by
    apply BitVec.eq_of_getLsbD_eq
    intro i inside
    rw [BitVec.getLsbD_and, getLsbD_highBits, BitVec.getLsbD_shiftLeft, BitVec.getLsbD_ushiftRight,
      decide_eq_true inside, Bool.true_and]
    by_cases high : 8 ≤ depth + i
    · rw [decide_eq_true ⟨inside, high⟩, decide_eq_false (by omega), Bool.and_true, Bool.not_false,
        Bool.true_and, Nat.add_sub_cancel' (by omega)]
    · rw [decide_eq_false fun both => high both.2, decide_eq_true (by omega), Bool.and_false,
        Bool.not_true, Bool.false_and]
  have small : byte.toNat / 2 ^ (8 - depth) * 2 ^ (8 - depth) < 2 ^ 8 :=
    lt_of_le_of_lt (Nat.div_mul_le_self _ _) byte.isLt
  rw [moved, BitVec.toNat_shiftLeft, BitVec.toNat_ushiftRight, Nat.shiftRight_eq_div_pow,
    Nat.shiftLeft_eq, Nat.mod_eq_of_lt small]

/-- **What is taken for a pixel** of at most 8 bits: a multiple of it at the start of a byte,
and zero elsewhere. -/
theorem toNat_getpixelAt {depth : ℕ} (packed : depth = 1 ∨ depth = 4 ∨ depth = 8)
    (byteAt : ℕ → BitVec 8) (j : ℕ) :
    (getpixelAt depth byteAt j).toNat =
      if depth * j % 8 = 0 then packedPixel depth byteAt j * 2 ^ (8 - depth) else 0 := by
  have bound : depth ≤ 8 := by omega
  rw [getpixelAt, if_neg (by omega)]
  by_cases aligned : depth * j % 8 = 0
  · have byte := (byteAt (depth * j / 8)).isLt
    have powers : 2 ^ (8 - depth) * 2 ^ depth = 2 ^ 8 := by
      rw [← Nat.pow_add, Nat.sub_add_cancel bound]
    have quotient : (byteAt (depth * j / 8)).toNat / 2 ^ (8 - depth) < 2 ^ depth :=
      Nat.div_lt_of_lt_mul (powers.symm ▸ byte)
    have masked := (byteAt (depth * j / 8) &&& highBits depth).isLt
    rw [if_pos aligned, if_pos aligned, BitVec.toNat_setWidth,
      Nat.mod_eq_of_lt (lt_trans masked (by decide)), toNat_and_highBits bound, packedPixel,
      aligned, Nat.sub_zero, Nat.mod_eq_of_lt quotient]
  · rw [if_neg aligned, if_neg aligned]
    rfl

/-- A byte that has been shifted has no high bits left. -/
theorem shifted_spent (byte : BitVec 8) (depth : ℕ) : byte >>> depth &&& highBits depth = 0 := by
  apply BitVec.eq_of_getLsbD_eq
  intro i inside
  rw [BitVec.getLsbD_and, getLsbD_highBits, BitVec.getLsbD_ushiftRight]
  by_cases high : 8 ≤ depth + i
  · rw [BitVec.getLsbD_of_ge byte _ high, Bool.false_and]
    exact (BitVec.getLsbD_zero).symm
  · rw [decide_eq_false (by omega), Bool.and_false]
    exact (BitVec.getLsbD_zero).symm

section Pixel

variable {file : File} {start depth j : ℕ} {s : Loading}

theorem fillPixelbuffer_of_left (left : s.bmp.bitsleft ≠ 0) : fillPixelbuffer s = .ok () s := by
  refine (bind_of_ok rfl).trans ?_
  rw [if_neg left]
  rfl

theorem fillPixelbuffer_of_none (none : s.bmp.bitsleft = 0) {byte : BitVec 8} {s' : Loading}
    (taken : getbyte s = .ok byte s') :
    fillPixelbuffer s = .ok () (s'.withPixel byte 8) := by
  refine (bind_of_ok rfl).trans ?_
  rw [if_pos none]
  exact bind_of_ok taken

theorem getpixel_of_ok {value pixel : BitVec 32} {s₁ s₂ : Loading}
    (fills : fillPixelbuffer s = .ok () s₁) (switches : switchBitcount s₁ = .ok value s₂)
    (same : pixel = value) : getpixel s = .ok pixel s₂ := by
  rw [same]
  exact (bind_of_ok fills).trans switches

/-- At 1 and 4 bits a pixel, the high bits of the pixel buffer are masked and the buffer is
shifted. -/
theorem switchBitcount_bits (bits : depth = 1 ∨ depth = 4)
    (bitcount : s.bmp.infoheader.bitcount = BitVec.ofNat 16 depth) :
    switchBitcount s = .ok ((s.bmp.pixelbuffer &&& highBits depth).setWidth 32)
      (s.withPixel (s.bmp.pixelbuffer >>> depth) (s.bmp.bitsleft - BitVec.ofNat 16 depth)) := by
  refine (bind_of_ok rfl).trans ?_
  rw [BitVec.setWidth_and]
  rcases bits with rfl | rfl
  · rw [bitcount, if_pos (by decide)]
    rfl
  · rw [bitcount, if_neg (by decide), if_neg (by decide), if_pos (by decide)]
    rfl

theorem switchBitcount_byte (bitcount : s.bmp.infoheader.bitcount = BitVec.ofNat 16 8) :
    switchBitcount s =
      .ok (s.bmp.pixelbuffer.setWidth 32) (s.withPixel s.bmp.pixelbuffer 0) := by
  refine (bind_of_ok rfl).trans ?_
  rw [bitcount, if_neg (by decide), if_neg (by decide), if_neg (by decide), if_pos (by decide)]
  rfl

/-- At 24 bits a pixel, two more bytes are taken. -/
theorem switchBitcount_color (bitcount : s.bmp.infoheader.bitcount = BitVec.ofNat 16 24)
    {middle low : BitVec 8} {s₁ s₂ : Loading}
    (first : getbyte (s.withPixel s.bmp.pixelbuffer 0) = .ok middle s₁)
    (second : getbyte s₁ = .ok low s₂) :
    switchBitcount s = .ok ((s.bmp.pixelbuffer.setWidth 32 <<< 16) |||
      (middle.setWidth 32 <<< 8) ||| low.setWidth 32) s₂ := by
  refine (bind_of_ok rfl).trans ?_
  rw [bitcount, if_neg (by decide), if_neg (by decide), if_neg (by decide), if_neg (by decide),
    if_neg (by decide), if_pos (by decide)]
  refine (bind_of_ok rfl).trans ((bind_of_ok rfl).trans ?_)
  exact (bind_of_ok first).trans (bind_of_ok second)

private theorem ofNat_sub_ofNat {x y : ℕ} (below : y ≤ x) :
    BitVec.ofNat 16 x - BitVec.ofNat 16 y = BitVec.ofNat 16 (x - y) := by
  obtain ⟨rest, rfl⟩ := Nat.exists_eq_add_of_le' below
  rw [Nat.add_sub_cancel, BitVec.ofNat_add]
  exact BitVec.add_sub_cancel _ _

/-- The first pixel of a byte is its high bits. -/
private theorem getpixel_fresh (packed : depth = 1 ∨ depth = 4 ∨ depth = 8)
    (line : LineAt file start depth j s)
    (bitcount : s.bmp.infoheader.bitcount = BitVec.ofNat 16 depth) (aligned : depth * j % 8 = 0) :
    ∃ byteAt s', Agrees file start byteAt ∧ getpixel s = .ok (getpixelAt depth byteAt j) s' ∧
      LineAt file start depth (j + 1) s' ∧ s'.kept = s.kept := by
  have next : depth * (j + 1) = depth * j + depth := Nat.mul_succ depth j
  have bound : 1 ≤ depth ∧ depth ≤ 8 := by omega
  have taken : bytesTaken depth j = depth * j / 8 := by
    unfold bytesTaken
    omega
  have takenNext : bytesTaken depth (j + 1) = depth * j / 8 + 1 := by
    unfold bytesTaken
    omega
  have none : s.bmp.bitsleft = 0 := by
    rw [line.bitsleft, taken, show 8 * (depth * j / 8) - depth * j = 0 by omega]
    rfl
  obtain ⟨byte, fp, bytesleft, buffer, byteTaken, there, block⟩ :=
    getbyte_block (taken ▸ line.block)
  have fills := fillPixelbuffer_of_none none byteTaken
  have agrees := (agrees_file file start).update there
  have pixel : getpixelAt depth (Function.update (fun k => file.getD (start + k) 0)
      (depth * j / 8) byte) j = (byte &&& highBits depth).setWidth 32 := by
    rw [getpixelAt, if_neg (by omega), if_pos aligned, Function.update_self]
  rcases or_assoc.mpr packed with bits | rfl
  · refine ⟨_, _, agrees, getpixel_of_ok fills (switchBitcount_bits bits bitcount) pixel, ?_, rfl⟩
    exact {
      block := by
        rw [takenNext]
        exact (block.withPixel _ _).withPixel _ _
      bitsleft := by
        have left : 8 * bytesTaken depth (j + 1) - depth * (j + 1) = 8 - depth := by omega
        rw [left, ← ofNat_sub_ofNat bound.2]
        rfl
      spent := fun _ => shifted_spent _ depth }
  · have whole : highBits 8 = BitVec.allOnes 8 := by decide
    rw [whole, BitVec.and_allOnes] at pixel
    refine ⟨_, _, agrees, getpixel_of_ok fills (switchBitcount_byte bitcount) pixel, ?_, rfl⟩
    exact {
      block := by
        rw [takenNext]
        exact (block.withPixel _ _).withPixel _ _
      bitsleft := by
        have left : 8 * bytesTaken 8 (j + 1) - 8 * (j + 1) = 0 := by omega
        rw [left]
        rfl
      spent := by omega }

/-- The other pixels of a byte are zero. -/
private theorem getpixel_rest (bits : depth = 1 ∨ depth = 4) (line : LineAt file start depth j s)
    (bitcount : s.bmp.infoheader.bitcount = BitVec.ofNat 16 depth) (inside : depth * j % 8 ≠ 0) :
    ∃ byteAt s', Agrees file start byteAt ∧ getpixel s = .ok (getpixelAt depth byteAt j) s' ∧
      LineAt file start depth (j + 1) s' ∧ s'.kept = s.kept := by
  have next : depth * (j + 1) = depth * j + depth := Nat.mul_succ depth j
  have room : depth * j % 8 + depth ≤ 8 := by
    rcases bits with rfl | rfl <;> omega
  have positive : 0 < depth := by omega
  have takenNext : bytesTaken depth (j + 1) = bytesTaken depth j := by
    unfold bytesTaken
    omega
  have left : s.bmp.bitsleft ≠ 0 := by
    intro none
    have zero := congrArg BitVec.toNat (line.bitsleft.symm.trans none)
    rw [BitVec.toNat_ofNat, bytesTaken] at zero
    change _ = 0 at zero
    omega
  have pixel : getpixelAt depth (fun k => file.getD (start + k) 0) j =
      (s.bmp.pixelbuffer &&& highBits depth).setWidth 32 := by
    rw [getpixelAt, if_neg (by omega), if_neg inside, line.spent inside]
    rfl
  refine ⟨_, _, agrees_file file start, getpixel_of_ok (fillPixelbuffer_of_left left)
    (switchBitcount_bits bits bitcount) pixel, ?_, rfl⟩
  exact {
    block := by
      rw [takenNext]
      exact line.block.withPixel _ _
    bitsleft := by
      have enough : depth ≤ 8 * bytesTaken depth j - depth * j := by
        unfold bytesTaken
        omega
      have fewer : 8 * bytesTaken depth (j + 1) - depth * (j + 1) =
          8 * bytesTaken depth j - depth * j - depth := by omega
      rw [fewer, ← ofNat_sub_ofNat enough, ← line.bitsleft]
      rfl
    spent := fun _ => shifted_spent _ depth }

/-- A pixel of 24 bits is the next three bytes. -/
private theorem getpixel_color (line : LineAt file start 24 j s)
    (bitcount : s.bmp.infoheader.bitcount = BitVec.ofNat 16 24) :
    ∃ byteAt s', Agrees file start byteAt ∧ getpixel s = .ok (getpixelAt 24 byteAt j) s' ∧
      LineAt file start 24 (j + 1) s' ∧ s'.kept = s.kept := by
  have taken : bytesTaken 24 j = 3 * j := by
    unfold bytesTaken
    omega
  have takenNext : bytesTaken 24 (j + 1) = 3 * j + 1 + 1 + 1 := by
    unfold bytesTaken
    omega
  have none : s.bmp.bitsleft = 0 := by
    rw [line.bitsleft, taken, show 8 * (3 * j) - 24 * j = 0 by omega]
    rfl
  obtain ⟨high, fp₁, left₁, buffer₁, first, there₁, block₁⟩ := getbyte_block (taken ▸ line.block)
  have fills := fillPixelbuffer_of_none none first
  obtain ⟨middle, fp₂, left₂, buffer₂, second, there₂, block₂⟩ :=
    getbyte_block ((block₁.withPixel high 8).withPixel high 0)
  obtain ⟨low, fp₃, left₃, buffer₃, third, there₃, block₃⟩ := getbyte_block block₂
  have switches := switchBitcount_color (s := (s.taken fp₁ left₁ buffer₁).withPixel high 8)
    bitcount second third
  have agrees := (((agrees_file file start).update there₁).update there₂).update there₃
  have pixel : getpixelAt 24 (Function.update (Function.update (Function.update
      (fun k => file.getD (start + k) 0) (3 * j) high) (3 * j + 1) middle) (3 * j + 1 + 1) low) j =
      (high.setWidth 32 <<< 16) ||| (middle.setWidth 32 <<< 8) ||| low.setWidth 32 := by
    rw [getpixelAt, if_pos rfl, Function.update_self, Function.update_of_ne (by omega),
      Function.update_of_ne (by omega), Function.update_self, Function.update_of_ne (by omega),
      Function.update_self]
  refine ⟨_, _, agrees, getpixel_of_ok fills switches pixel, ?_, rfl⟩
  exact {
    block := by
      rw [takenNext]
      exact block₃
    bitsleft := by
      have left : 8 * bytesTaken 24 (j + 1) - 24 * (j + 1) = 0 := by omega
      rw [left]
      rfl
    spent := by omega }

/-- **One pixel.** A pixel of a supported depth is taken as `getpixelAt` says, from bytes that
are those of the file wherever the file has them, and the object is at the next pixel of
the line. -/
theorem getpixel_line (readable : Readable depth) (line : LineAt file start depth j s)
    (bitcount : s.bmp.infoheader.bitcount = BitVec.ofNat 16 depth) :
    ∃ byteAt s', Agrees file start byteAt ∧ getpixel s = .ok (getpixelAt depth byteAt j) s' ∧
      LineAt file start depth (j + 1) s' ∧ s'.kept = s.kept := by
  by_cases color : depth = 24
  · subst color
    exact getpixel_color line bitcount
  · have packed : depth = 1 ∨ depth = 4 ∨ depth = 8 := by
      unfold Readable at readable
      omega
    by_cases aligned : depth * j % 8 = 0
    · exact getpixel_fresh packed line bitcount aligned
    · have bits : depth = 1 ∨ depth = 4 := by
        rcases packed with one | four | rfl
        · exact Or.inl one
        · exact Or.inr four
        · omega
      exact getpixel_rest bits line bitcount aligned

end Pixel

end DownSample
