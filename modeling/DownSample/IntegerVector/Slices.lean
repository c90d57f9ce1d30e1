import DownSample.IntegerVector.Operators

/-! # Slice assignments across words

`iv<N>::set_slc` writes a slice at any bit index. A slice of one word may cross a word
boundary; a longer one is shifted word by word, with the first and the last word exchanged
under a mask, and may end one word beyond its own length. Vectors of one and of two words
have specializations. Each of them writes exactly the bits of the slice
(`DownSample.Iv.getLsbD_setSlc`), so a slice of an `ac_int` is read back and no other one
changes (`DownSample.Iv.AcInt.slc_setSlc`).
-/

namespace DownSample

namespace Iv

/-- `v[k] ^= (v[k] ^ u) & mask`. -/
def exchange (v : Words) (k : ℕ) (u mask : Word) : Words :=
  Function.update v k (v k ^^^ ((v k ^^^ u) &&& mask))

/-- `~(WS==32 ? 0 : all_ones<<WS)`, in a type of `w` bits. -/
def sliceMask (w ws : ℕ) : BitVec w := ~~~(if ws = w then 0 else BitVec.allOnes w <<< ws)

/-- A word of the slice moved up by `b` bits, with the bits that leave the word below. -/
def movedWord (op2 : Words) (b i : ℕ) : Word :=
  op2 i <<< b ||| (op2 (i - 1) >>> 1) >>> (31 - b)

/-- The general `iv<N>::set_slc`. -/
def setSlcWords (n2 ws lsb : ℕ) (op2 v : Words) : Words :=
  let msb := lsb + ws - 1
  let lsb_v := lsb / 32
  let lsb_b := lsb % 32
  let msb_v := msb / 32
  let msb_b := msb % 32
  let last := ~~~((BitVec.allOnes 32 <<< 1) <<< msb_b)
  if n2 = 1 then
    if msb_v = lsb_v then exchange v lsb_v (op2 0 <<< lsb_b) (sliceMask 32 ws <<< lsb_b)
    else
      let v := exchange v lsb_v (op2 0 <<< lsb_b) (BitVec.allOnes 32 <<< lsb_b)
      let m := (op2 0 >>> 1) >>> (31 - lsb_b)
      exchange v msb_v m last
  else
    let v := exchange v lsb_v (op2 0 <<< lsb_b) (BitVec.allOnes 32 <<< lsb_b)
    let v := fill (n2 - 2) (fun i => movedWord op2 lsb_b (i + 1)) v (lsb_v + 1)
    let t := movedWord op2 lsb_b (n2 - 1)
    if msb_v - lsb_v = n2 then
      let v := Function.update v (msb_v - 1) t
      exchange v msb_v ((op2 (n2 - 1) >>> 1) >>> (31 - lsb_b)) last
    else exchange v msb_v t last

/-- `iv<2>::to_uint64`. -/
def toUint64 (v : Words) : BitVec 64 := (v 1).signExtend 64 <<< 32 ||| (v 0).setWidth 64

/-- `*this = l` for an `iv<2>`, by `iv_assign_uint64<2>`. -/
def assignUint64 (v : Words) (l : BitVec 64) : Words :=
  Function.update (Function.update v 0 (l.setWidth 32)) 1 ((l >>> 32).setWidth 32)

/-- `iv<N>::set_slc(lsb, WS, const iv<N2> &)`, with its specializations. -/
def setSlc (n n2 ws lsb : ℕ) (op2 v : Words) : Words :=
  if n = 1 ∧ n2 = 1 then exchange v 0 (op2 0 <<< lsb) (sliceMask 32 ws <<< lsb)
  else if n = 2 ∧ n2 = 1 then
    let l := toUint64 v
    let l2 := (op2 0).signExtend 64
    assignUint64 v
      (l ^^^ ((l ^^^ (l2 <<< lsb)) &&& (~~~(BitVec.allOnes 64 <<< ws) <<< lsb)))
  else if n = 2 ∧ n2 = 2 then
    let l := toUint64 v
    let l2 := toUint64 op2
    assignUint64 v (l ^^^ ((l ^^^ (l2 <<< lsb)) &&& (sliceMask 64 ws <<< lsb)))
  else setSlcWords n2 ws lsb op2 v

/-! ## Bits of the parts -/

/-- A bit of the words, without an end. -/
def stream (v : Words) (i : ℕ) : Bool := (v (i / 32)).getLsbD (i % 32)

theorem stream_eq {i k j : ℕ} (v : Words) (inside : j < 32) (position : i = 32 * k + j) :
    stream v i = (v k).getLsbD j := by
  have word : i / 32 = k := by omega
  have rest : i % 32 = j := by omega
  rw [stream, word, rest]

/-- An exchange under a mask writes the masked bits of one word. -/
theorem getLsbD_exchange {k j start : ℕ} {u mask : Word} {p : Prop} [Decidable p] (v : Words)
    (masked : mask.getLsbD j = decide p) :
    (exchange v start u mask k).getLsbD j =
      if k = start ∧ p then u.getLsbD j else (v k).getLsbD j := by
  by_cases here : k = start
  · subst here
    rw [exchange, Function.update_self, BitVec.getLsbD_xor, BitVec.getLsbD_and, BitVec.getLsbD_xor,
      masked]
    by_cases kept : p
    · simp [kept]
    · simp [kept]
  · rw [exchange, Function.update_of_ne here, if_neg fun both => here both.1]

/-- The mask of the first word written has its low bits clear. -/
theorem getLsbD_firstMask {w b j : ℕ} (inside : j < w) :
    (BitVec.allOnes w <<< b).getLsbD j = decide (b ≤ j) := by
  rw [BitVec.getLsbD_shiftLeft, BitVec.getLsbD_allOnes, decide_eq_true inside, Bool.true_and,
    decide_eq_true (show j - b < w by omega), Bool.and_true, ← decide_not]
  exact decide_eq_decide.mpr not_lt

/-- The mask of the last word written has its high bits clear. -/
theorem getLsbD_lastMask {b j : ℕ} (inside : j < 32) :
    (~~~((BitVec.allOnes 32 <<< 1) <<< b)).getLsbD j = decide (j ≤ b) := by
  rw [← BitVec.shiftLeft_add, BitVec.getLsbD_not, getLsbD_firstMask inside, decide_eq_true inside,
    Bool.true_and, ← decide_not]
  exact decide_eq_decide.mpr (by omega)

/-- The mask of a slice that stays in one word. -/
theorem getLsbD_sliceMask {w ws b j : ℕ} (inside : j < w) :
    (sliceMask w ws <<< b).getLsbD j = decide (b ≤ j ∧ j < b + ws) := by
  rw [BitVec.getLsbD_shiftLeft, decide_eq_true inside, Bool.true_and, sliceMask]
  by_cases low : j < b
  · rw [decide_eq_true low, Bool.not_true, Bool.false_and, decide_eq_false (by omega)]
  · rw [decide_eq_false low, Bool.not_false, Bool.true_and, BitVec.getLsbD_not,
      decide_eq_true (show j - b < w by omega), Bool.true_and]
    by_cases whole : ws = w
    · rw [if_pos whole, BitVec.ofNat_eq_ofNat, BitVec.getLsbD_zero, decide_eq_true (by omega)]
      rfl
    · rw [if_neg whole, getLsbD_firstMask (by omega), ← decide_not]
      exact decide_eq_decide.mpr (by omega)

/-- A moved word is cut from two neighbours. -/
theorem getLsbD_movedWord {b i j : ℕ} (op2 : Words) (proper : b < 32) (inside : j < 32) :
    (movedWord op2 b i).getLsbD j =
      if j < b then (op2 (i - 1)).getLsbD (j + (32 - b)) else (op2 i).getLsbD (j - b) := by
  have whole : 1 + (31 - b) = 32 - b := by omega
  rw [movedWord, ← BitVec.shiftRight_add, whole, getLsbD_cut _ _ (by omega) inside]

theorem getLsbD_overflow {b j : ℕ} (w : Word) (proper : b < 32) :
    ((w >>> 1) >>> (31 - b)).getLsbD j = w.getLsbD (j + (32 - b)) := by
  rw [← BitVec.shiftRight_add, BitVec.getLsbD_ushiftRight]
  congr 1
  omega

/-! ## The written bits -/

/-- What a slice assignment leaves in a bit. -/
def assigned (lsb ws : ℕ) (op2 v : Words) (i : ℕ) : Bool :=
  if lsb ≤ i ∧ i < lsb + ws then stream op2 (i - lsb) else stream v i

section Words

variable {n2 ws lsb k j : ℕ} (op2 v : Words)

/-- A slice of one word, inside a word. -/
theorem getLsbD_setSlc_inside (inside : j < 32) (within : (lsb + ws - 1) / 32 = lsb / 32)
    (some : 0 < ws) :
    (exchange v (lsb / 32) (op2 0 <<< (lsb % 32)) (sliceMask 32 ws <<< (lsb % 32)) k).getLsbD j =
      assigned lsb ws op2 v (32 * k + j) := by
  rw [getLsbD_exchange v (getLsbD_sliceMask inside), assigned,
    BitVec.getLsbD_shiftLeft, decide_eq_true inside, Bool.true_and]
  by_cases written : lsb ≤ 32 * k + j ∧ 32 * k + j < lsb + ws
  · rw [if_pos written, if_pos (by omega), decide_eq_false (by omega), Bool.not_false,
      Bool.true_and]
    exact (stream_eq op2 (by omega) (by omega)).symm
  · rw [if_neg written, if_neg (by omega)]
    exact (stream_eq v inside rfl).symm

/-- A slice of one word, across two words. -/
theorem getLsbD_setSlc_across (inside : j < 32) (outside : (lsb + ws - 1) / 32 ≠ lsb / 32)
    (some : 0 < ws) (single : ws ≤ 32) :
    (exchange (exchange v (lsb / 32) (op2 0 <<< (lsb % 32)) (BitVec.allOnes 32 <<< (lsb % 32)))
      ((lsb + ws - 1) / 32) ((op2 0 >>> 1) >>> (31 - lsb % 32))
      (~~~((BitVec.allOnes 32 <<< 1) <<< ((lsb + ws - 1) % 32))) k).getLsbD j =
      assigned lsb ws op2 v (32 * k + j) := by
  rw [getLsbD_exchange _ (getLsbD_lastMask inside), getLsbD_exchange v (getLsbD_firstMask inside),
    assigned, getLsbD_overflow _ (by omega), BitVec.getLsbD_shiftLeft, decide_eq_true inside,
    Bool.true_and]
  by_cases written : lsb ≤ 32 * k + j ∧ 32 * k + j < lsb + ws
  · rw [if_pos written]
    by_cases second : k = (lsb + ws - 1) / 32
    · rw [if_pos (by omega)]
      exact (stream_eq op2 (by omega) (by omega)).symm
    · rw [if_neg (by omega), if_pos (by omega), decide_eq_false (by omega), Bool.not_false,
        Bool.true_and]
      exact (stream_eq op2 (by omega) (by omega)).symm
  · rw [if_neg written, if_neg (by omega), if_neg (by omega)]
    exact (stream_eq v inside rfl).symm

/-- The words that a longer slice leaves below its last one. -/
theorem getLsbD_setSlc_low (inside : j < 32) (long : 2 ≤ n2) (words : n2 = (31 + ws) / 32)
    (below : k + 1 < lsb / 32 + n2) :
    (fill (n2 - 2) (fun i => movedWord op2 (lsb % 32) (i + 1))
      (exchange v (lsb / 32) (op2 0 <<< (lsb % 32)) (BitVec.allOnes 32 <<< (lsb % 32)))
      (lsb / 32 + 1) k).getLsbD j = assigned lsb ws op2 v (32 * k + j) := by
  rw [fill_apply, assigned]
  by_cases middle : lsb / 32 + 1 ≤ k ∧ k < lsb / 32 + 1 + (n2 - 2)
  · have written : lsb ≤ 32 * k + j ∧ 32 * k + j < lsb + ws := by omega
    rw [if_pos middle, if_pos written, getLsbD_movedWord _ (by omega) inside]
    by_cases low : j < lsb % 32
    · rw [if_pos low]
      exact (stream_eq op2 (by omega) (by omega)).symm
    · rw [if_neg low]
      exact (stream_eq op2 (by omega) (by omega)).symm
  · rw [if_neg middle, getLsbD_exchange v (getLsbD_firstMask inside), BitVec.getLsbD_shiftLeft,
      decide_eq_true inside, Bool.true_and]
    by_cases written : lsb ≤ 32 * k + j
    · rw [if_pos (by omega), if_pos (by omega), decide_eq_false (by omega), Bool.not_false,
        Bool.true_and]
      exact (stream_eq op2 (by omega) (by omega)).symm
    · rw [if_neg (by omega), if_neg (by omega)]
      exact (stream_eq v inside rfl).symm

/-- Words above the slice stay. -/
theorem getLsbD_setSlc_high (long : 2 ≤ n2) (above : lsb / 32 + n2 ≤ k + 1) :
    fill (n2 - 2) (fun i => movedWord op2 (lsb % 32) (i + 1))
      (exchange v (lsb / 32) (op2 0 <<< (lsb % 32)) (BitVec.allOnes 32 <<< (lsb % 32)))
      (lsb / 32 + 1) k = v k := by
  rw [fill_apply, if_neg (by omega), exchange, Function.update_of_ne (by omega)]

/-- Inside the slice the moved words are what is assigned. -/
theorem getLsbD_movedWord_assigned (inside : j < 32) (first : lsb / 32 + 1 ≤ k)
    (written : 32 * k + j < lsb + ws) :
    (movedWord op2 (lsb % 32) (k - lsb / 32)).getLsbD j =
      assigned lsb ws op2 v (32 * k + j) := by
  rw [assigned, if_pos (by omega), getLsbD_movedWord _ (by omega) inside]
  by_cases low : j < lsb % 32
  · rw [if_pos low]
    exact (stream_eq op2 (by omega) (by omega)).symm
  · rw [if_neg low]
    exact (stream_eq op2 (by omega) (by omega)).symm

/-- Above the slice what is assigned is what was there. -/
theorem assigned_of_outside (inside : j < 32) (outside : lsb + ws ≤ 32 * k + j) :
    (v k).getLsbD j = assigned lsb ws op2 v (32 * k + j) := by
  rw [assigned, if_neg (by omega)]
  exact (stream_eq v inside rfl).symm

/-- The general `set_slc`, bit by bit. -/
theorem getLsbD_setSlcWords (some : 0 < ws) (words : n2 = (31 + ws) / 32) (inside : j < 32) :
    (setSlcWords n2 ws lsb op2 v k).getLsbD j = assigned lsb ws op2 v (32 * k + j) := by
  unfold setSlcWords
  by_cases single : n2 = 1
  · simp only [if_pos single]
    by_cases within : (lsb + ws - 1) / 32 = lsb / 32
    · rw [if_pos within]
      exact getLsbD_setSlc_inside op2 v inside within some
    · rw [if_neg within]
      exact getLsbD_setSlc_across op2 v inside within some (by omega)
  simp only [if_neg single]
  have long : 2 ≤ n2 := by omega
  have low (below : k + 1 < lsb / 32 + n2) := getLsbD_setSlc_low op2 v inside long words below
  have high (above : lsb / 32 + n2 ≤ k + 1) := getLsbD_setSlc_high op2 v long above
  by_cases longer : (lsb + ws - 1) / 32 - lsb / 32 = n2
  · rw [if_pos longer, getLsbD_exchange _ (getLsbD_lastMask inside)]
    by_cases last : k = (lsb + ws - 1) / 32 ∧ j ≤ (lsb + ws - 1) % 32
    · rw [if_pos last, getLsbD_overflow _ (by omega), assigned, if_pos (by omega)]
      exact (stream_eq op2 (by omega) (by omega)).symm
    rw [if_neg last]
    by_cases before : k = (lsb + ws - 1) / 32 - 1
    · rw [before, Function.update_self, ← before,
        ← getLsbD_movedWord_assigned op2 v inside (by omega) (by omega),
        show k - lsb / 32 = n2 - 1 by omega]
    rw [Function.update_of_ne before]
    by_cases below : k + 1 < lsb / 32 + n2
    · exact low below
    · rw [high (by omega)]
      exact assigned_of_outside op2 v inside (by omega)
  · rw [if_neg longer, getLsbD_exchange _ (getLsbD_lastMask inside)]
    by_cases last : k = (lsb + ws - 1) / 32 ∧ j ≤ (lsb + ws - 1) % 32
    · rw [if_pos last, ← getLsbD_movedWord_assigned op2 v inside (by omega) (by omega),
        show k - lsb / 32 = n2 - 1 by omega]
    rw [if_neg last]
    by_cases below : k + 1 < lsb / 32 + n2
    · exact low below
    · rw [high (by omega)]
      exact assigned_of_outside op2 v inside (by omega)

end Words

theorem getLsbD_toUint64 {i : ℕ} (v : Words) (inside : i < 64) :
    (toUint64 v).getLsbD i = stream v i := by
  rw [toUint64, BitVec.getLsbD_or, BitVec.getLsbD_shiftLeft, BitVec.getLsbD_signExtend,
    BitVec.getLsbD_setWidth, decide_eq_true inside, Bool.true_and, Bool.true_and]
  by_cases low : i < 32
  · rw [decide_eq_true low, Bool.not_true, Bool.false_and, Bool.false_or,
      stream_eq v low (show i = 32 * 0 + i by omega)]
  · rw [decide_eq_false low, Bool.not_false, Bool.true_and, decide_eq_true (by omega),
      Bool.true_and, if_pos (by omega), BitVec.getLsbD_of_ge (v 0) i (by omega), Bool.or_false,
      stream_eq v (show i - 32 < 32 by omega) (show i = 32 * 1 + (i - 32) by omega)]

theorem getLsbD_assignUint64 {k j : ℕ} (v : Words) (l : BitVec 64) (two : k < 2)
    (inside : j < 32) : (assignUint64 v l k).getLsbD j = l.getLsbD (32 * k + j) := by
  unfold assignUint64
  by_cases top : k = 1
  · rw [top, Function.update_self, BitVec.getLsbD_setWidth, BitVec.getLsbD_ushiftRight,
      decide_eq_true inside, Bool.true_and]
  · rw [Function.update_of_ne top, show k = 0 by omega, Function.update_self,
      BitVec.getLsbD_setWidth, decide_eq_true inside, Bool.true_and]
    congr 1
    omega

/-- The exchange on two words at once. -/
theorem getLsbD_exchange64 {k j ws lsb : ℕ} (op2 v : Words) {l2 mask : BitVec 64}
    (slice : ∀ i < ws, lsb + i < 64 → l2.getLsbD i = stream op2 i)
    (masked : ∀ i < 64, mask.getLsbD i = decide (lsb ≤ i ∧ i < lsb + ws)) (two : k < 2)
    (inside : j < 32) :
    (assignUint64 v (toUint64 v ^^^ ((toUint64 v ^^^ (l2 <<< lsb)) &&& mask)) k).getLsbD j =
      assigned lsb ws op2 v (32 * k + j) := by
  have bound : 32 * k + j < 64 := by omega
  rw [getLsbD_assignUint64 v _ two inside, BitVec.getLsbD_xor, BitVec.getLsbD_and,
    BitVec.getLsbD_xor, masked _ bound, getLsbD_toUint64 v bound, BitVec.getLsbD_shiftLeft,
    decide_eq_true bound, Bool.true_and, assigned]
  by_cases written : lsb ≤ 32 * k + j ∧ 32 * k + j < lsb + ws
  · rw [if_pos written, decide_eq_true written, decide_eq_false (show ¬ 32 * k + j < lsb by omega),
      slice _ (by omega) (by omega)]
    simp
  · rw [if_neg written, decide_eq_false written]
    simp

/-- **A slice assignment writes exactly its bits**, whatever the lengths. -/
theorem getLsbD_setSlc {n n2 ws lsb k j : ℕ} (op2 v : Words) (some : 0 < ws)
    (words : n2 = (31 + ws) / 32) (fits : lsb + ws ≤ 32 * n) (below : k < n) (inside : j < 32) :
    (setSlc n n2 ws lsb op2 v k).getLsbD j = assigned lsb ws op2 v (32 * k + j) := by
  unfold setSlc
  by_cases one : n = 1 ∧ n2 = 1
  · have within := getLsbD_setSlc_inside (k := k) op2 v inside
      (show (lsb + ws - 1) / 32 = lsb / 32 by omega) some
    rw [show lsb / 32 = 0 by omega, Nat.mod_eq_of_lt (by omega)] at within
    rw [if_pos one, within]
  rw [if_neg one]
  by_cases two : n = 2 ∧ n2 = 1
  · rw [if_pos two]
    refine getLsbD_exchange64 op2 v (fun i early _ => ?_) (fun i bound => ?_) (by omega) inside
    · rw [BitVec.getLsbD_signExtend, decide_eq_true (by omega), Bool.true_and, if_pos (by omega),
        stream_eq op2 (show i < 32 by omega) (show i = 32 * 0 + i by omega)]
    · have mask : sliceMask 64 ws = ~~~(BitVec.allOnes 64 <<< ws) := by
        rw [sliceMask, if_neg (by omega)]
      rw [← mask, getLsbD_sliceMask bound]
  rw [if_neg two]
  by_cases both : n = 2 ∧ n2 = 2
  · rw [if_pos both]
    exact getLsbD_exchange64 op2 v (fun i early _ => getLsbD_toUint64 op2 (by omega))
      (fun i bound => getLsbD_sliceMask bound) (by omega) inside
  · rw [if_neg both]
    exact getLsbD_setSlcWords op2 v some words inside

namespace AcInt

variable {width width2 : ℕ} {sign sign2 : Bool} (r : Words)

/-- `set_slc(unsigned ulsb, slc)`: the slice is converted to `ac_int<W2, true>`. -/
def setSlc (x : AcInt width sign) (ulsb : BitVec 32) (slc : AcInt width2 sign2) :
    AcInt width sign :=
  adjust width sign x.positive
    (Iv.setSlc (wordCount width sign) (wordCount width2 true) width2 ulsb.toNat
      (convert r width2 true slc.positive slc).v x.v)

theorem testBit_toInt (x : AcInt width sign) {i : ℕ} (below : i < 32 * wordCount width sign) :
    x.toInt.testBit i = stream x.v i := by
  rw [toInt, testBit_vec x.wordCount_pos, bit, extended_of_lt _ (by omega), stream]

/-- A slice assignment keeps every bit outside the slice. -/
theorem testBit_setSlc (x : AcInt width sign) (ulsb : BitVec 32) (slc : AcInt width2 sign2)
    (fits : ulsb.toNat + width2 ≤ width) {i : ℕ} (below : i < width) :
    (setSlc r x ulsb slc).toInt.testBit i =
      if ulsb.toNat ≤ i ∧ i < ulsb.toNat + width2 then slc.toInt.testBit (i - ulsb.toNat)
      else x.toInt.testBit i := by
  have room := width_le width sign
  have room2 := width_le width2 true
  have words : wordCount width2 true = (31 + width2) / 32 := by
    rw [wordCount, Bool.not_true, Bool.toNat_false, Nat.add_zero, Nat.add_comm]
  have position : i = 32 * (i / 32) + i % 32 := by omega
  have stored : (setSlc r x ulsb slc).toInt.testBit i = stream (Iv.setSlc (wordCount width sign)
      (wordCount width2 true) width2 ulsb.toNat (convert r width2 true slc.positive slc).v x.v)
      i := by
    rw [setSlc, adjust, toInt, toInt_bitAdjust x.positive, testBit_wrap x.positive, if_pos below,
      testBit_vec x.wordCount_pos, bit, extended_of_lt _ (by omega), stream]
  rw [stored, stream, getLsbD_setSlc _ _ slc.positive words (by omega) (by omega) (by omega),
    ← position, assigned, ← testBit_toInt x (by omega)]
  by_cases written : ulsb.toNat ≤ i ∧ i < ulsb.toNat + width2
  · rw [if_pos written, if_pos written, ← testBit_toInt _ (by omega), toInt_convert,
      testBit_wrap slc.positive, if_pos (by omega)]
  · rw [if_neg written, if_neg written]

end AcInt

end Iv

end DownSample
