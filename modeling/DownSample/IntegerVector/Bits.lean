import DownSample.IntegerVector.Words
import DownSample.Library.IntBits

/-! # Bitwise operations and shifts of integer vectors

The bits of a vector are those of the number that it holds (`DownSample.Iv.testBit_vec`),
also beyond its words, where they are the sign. So the bitwise operations on vectors of
any three lengths are those on the integers (`DownSample.Iv.vec_bitwiseAnd` and the others),
and the shifts, which cut each word of the result out of two words of the operand, divide
by a power of two or multiply by it (`DownSample.Iv.vec_shiftR`,
`DownSample.Iv.vec_shiftL`).
-/

namespace DownSample

namespace Iv

/-! ## Bits -/

/-- A bit of a vector in two's complement, of its sign beyond its words. -/
def bit (n : ℕ) (v : Words) (i : ℕ) : Bool := (extended n v (i / 32)).getLsbD (i % 32)

/-- A bit of the unsigned number is the bit of its word. -/
theorem testBit_magnitude {n i : ℕ} (v : Words) (below : i < 32 * n) :
    (magnitude n v).testBit i = (v (i / 32)).getLsbD (i % 32) := by
  obtain ⟨more, length⟩ : ∃ more, n = i / 32 + (1 + more) := ⟨n - i / 32 - 1, by omega⟩
  have position : i = 32 * (i / 32) + i % 32 := by omega
  have inside : i % 32 < 32 := by omega
  generalize i / 32 = k at length position
  generalize i % 32 = j at position inside
  subst position
  -- the words below `k`, the word `k` and those above it
  have parts : magnitude n v = magnitude k v + ((v k).toNat +
      Radix.value (2 ^ 32) (fun i => ((v (k + (1 + i))).toNat : ℤ)) more * 2 ^ 32) *
        2 ^ (32 * k) := by
    rw [length, magnitude, Radix.value_add, Radix.value_add, Radix.value_one, pow_one, pow_word]
    rfl
  have quotient : magnitude n v / 2 ^ (32 * k) = (v k).toNat +
      Radix.value (2 ^ 32) (fun i => ((v (k + (1 + i))).toNat : ℤ)) more * 2 ^ 32 := by
    rw [parts, Int.add_mul_ediv_right _ _ (by positivity),
      Int.ediv_eq_zero_of_lt (magnitude_nonneg k v) (magnitude_lt k v), zero_add]
  rw [← IntBits.testBit_ediv, quotient, IntBits.testBit_add_mul _ _ inside]
  rfl

theorem getLsbD_vec {n i : ℕ} (v : Words) (below : i < 32 * n) :
    (vec n v).getLsbD i = (v (i / 32)).getLsbD (i % 32) := by
  rw [vec, IntBits.getLsbD_ofInt _ below, testBit_magnitude v below]

/-- **The bits of a vector are those of its number.** -/
theorem testBit_vec {n : ℕ} (positive : 0 < n) (v : Words) (i : ℕ) :
    (vec n v).toInt.testBit i = bit n v i := by
  have inside : i < 32 * (max n (i / 32 + 1)) := by omega
  rw [← toInt_vec_extended positive (le_max_left n (i / 32 + 1)),
    ← IntBits.getLsbD_ofInt _ inside, BitVec.ofInt_toInt, getLsbD_vec _ inside]
  rfl

/-- Words with the bits of a number hold it, up to their length. -/
theorem vec_of_bits {nr : ℕ} {r : Words} {z : ℤ}
    (bits : ∀ k < nr, ∀ j < 32, (r k).getLsbD j = z.testBit (32 * k + j)) :
    vec nr r = BitVec.ofInt (32 * nr) z := by
  apply BitVec.eq_of_getLsbD_eq
  intro i below
  rw [getLsbD_vec r below, IntBits.getLsbD_ofInt z below,
    bits (i / 32) (by omega) (i % 32) (by omega)]
  congr 1
  omega

/-- The bits of one word of an extended vector. -/
theorem bit_word {n k j : ℕ} (v : Words) (inside : j < 32) :
    bit n v (32 * k + j) = (extended n v k).getLsbD j := by
  have word : (32 * k + j) / 32 = k := by omega
  have rest : (32 * k + j) % 32 = j := by omega
  rw [bit, word, rest]

theorem getLsbD_ones (b : Bool) {j : ℕ} (inside : j < 32) : (ones b).getLsbD j = b := by
  cases b with
  | true => rw [ones, if_pos rfl, BitVec.getLsbD_allOnes, decide_eq_true inside]
  | false => rw [ones, if_neg Bool.false_ne_true, BitVec.ofNat_eq_ofNat, BitVec.getLsbD_zero]

/-- A word is negative when its last bit is set. -/
theorem isNeg_eq (w : Word) : isNeg w = w.getLsbD 31 := by
  rw [isNeg, ← BitVec.msb_eq_toInt, BitVec.msb_eq_getLsbD_last]

@[simp] theorem isNeg_ones (b : Bool) : isNeg (ones b) = b := by
  rw [isNeg_eq, getLsbD_ones b (by decide)]

/-! ## Bitwise operations -/

/-- `iv_bitwise_complement<N, Nr>`. -/
def bitwiseComplement (n nr : ℕ) (op r : Words) : Words :=
  let m := min n nr
  let r := fill m (fun i => ~~~op i) r 0
  extend (nr - m) r m (ones (isNeg (r (m - 1))))

/-- The common words, then those that only the longer operand has, then the sign.
`long1` says that `OP1` is `op1`, and `rest` is what is done with the words of the longer
operand where the shorter one has only its sign. -/
def bitwise (long1 : Bool) (word : Word → Word → Word)
    (rest : Bool → ℕ → Words → Words → ℕ → Words) (n1 n2 nr : ℕ) (op1 op2 r : Words) : Words :=
  let m1 := min (max n1 n2) nr
  let m2 := min (min n1 n2) nr
  let p1 := if long1 then op1 else op2
  let p2 := if long1 then op2 else op1
  let r := fill m2 (fun i => word (op1 i) (op2 i)) r 0
  let r := rest (isNeg (p2 (m2 - 1))) (m1 - m2) (shift p1 m2) r m2
  extend (nr - m1) r m1 (ones (isNeg (r (m1 - 1))))

/-- `iv_bitwise_and<N1, N2, Nr>`. -/
def bitwiseAnd (n1 n2 nr : ℕ) (op1 op2 r : Words) : Words :=
  bitwise (decide (n1 > n2)) (· &&& ·)
    (fun negative n p r start => if negative then copy n p r start else extend n r start 0)
    n1 n2 nr op1 op2 r

/-- `iv_bitwise_or<N1, N2, Nr>`. -/
def bitwiseOr (n1 n2 nr : ℕ) (op1 op2 r : Words) : Words :=
  bitwise (decide (n1 ≥ n2)) (· ||| ·)
    (fun negative n p r start =>
      if negative then extend n r start (BitVec.allOnes 32) else copy n p r start)
    n1 n2 nr op1 op2 r

/-- `iv_bitwise_xor<N1, N2, Nr>`. -/
def bitwiseXor (n1 n2 nr : ℕ) (op1 op2 r : Words) : Words :=
  bitwise (decide (n1 ≥ n2)) (· ^^^ ·)
    (fun negative n p r start =>
      if negative then fill n (fun i => ~~~p i) r start else copy n p r start)
    n1 n2 nr op1 op2 r

/-- From its top word on, a vector has the sign of its top word. -/
theorem isNeg_extended {n i : ℕ} (v : Words) (top : n ≤ i + 1) :
    isNeg (extended n v i) = isNeg (v (n - 1)) := by
  unfold extended
  by_cases inside : i < n
  · rw [if_pos inside, show i = n - 1 by omega]
  · rw [if_neg inside, isNeg_ones]

theorem extended_of_le {n i : ℕ} (v : Words) (beyond : n ≤ i) :
    extended n v i = ones (isNeg (v (n - 1))) := if_neg (by omega)

theorem extended_of_lt {n i : ℕ} (v : Words) (inside : i < n) : extended n v i = v i :=
  if_pos inside

section Bitwise

variable {word : Word → Word → Word} {bool : Bool → Bool → Bool}
  (bits : ∀ x y j, j < 32 → (word x y).getLsbD j = bool (x.getLsbD j) (y.getLsbD j))

include bits

theorem isNeg_of_bits (x y : Word) : isNeg (word x y) = bool (isNeg x) (isNeg y) := by
  rw [isNeg_eq, isNeg_eq, isNeg_eq, bits x y 31 (by decide)]

theorem ones_of_bits (b c : Bool) : ones (bool b c) = word (ones b) (ones c) := by
  apply BitVec.eq_of_getLsbD_eq
  intro j inside
  rw [bits _ _ j inside, getLsbD_ones _ inside, getLsbD_ones _ inside, getLsbD_ones _ inside]

/-- The words that `bitwise` leaves with the longer operand first. -/
private theorem bitwise_of_le {l1 l2 nr j : ℕ} (positive : 0 < l2) (ordered : l2 ≤ l1)
    (p1 p2 r : Words) (inside : j < nr) :
    (let m1 := min l1 nr
      let m2 := min l2 nr
      let r := fill m2 (fun i => word (p1 i) (p2 i)) r 0
      let r := fill (m1 - m2) (fun i => word (p1 (m2 + i)) (ones (isNeg (p2 (m2 - 1))))) r m2
      extend (nr - m1) r m1 (ones (isNeg (r (m1 - 1))))) j =
      word (extended l1 p1 j) (extended l2 p2 j) := by
  have low {i : ℕ} (below : i < min l1 nr) :
      fill (min l1 nr - min l2 nr)
        (fun i => word (p1 (min l2 nr + i)) (ones (isNeg (p2 (min l2 nr - 1)))))
        (fill (min l2 nr) (fun i => word (p1 i) (p2 i)) r 0) (min l2 nr) i =
      word (extended l1 p1 i) (extended l2 p2 i) := by
    rw [fill_apply, extended_of_lt p1 (by omega)]
    by_cases common : i < l2
    · rw [if_neg (by omega), fill_apply, if_pos (by omega), extended_of_lt p2 common, Nat.sub_zero]
    · rw [if_pos (by omega), extended_of_le p2 (by omega), Nat.add_sub_cancel' (by omega),
        show min l2 nr = l2 by omega]
  simp only [extend]
  rw [fill_apply]
  by_cases early : j < min l1 nr
  · rw [if_neg (by omega), low early]
  · rw [if_pos (by omega), low (by omega), isNeg_of_bits bits, isNeg_extended p1 (by omega),
      isNeg_extended p2 (by omega), ones_of_bits bits, extended_of_le p1 (by omega),
      extended_of_le p2 (by omega)]

variable {rest : Bool → ℕ → Words → Words → ℕ → Words}
  (rest_eq : ∀ b n p r start, rest b n p r start = fill n (fun i => word (p i) (ones b)) r start)
  (comm : ∀ x y, word x y = word y x)

include rest_eq comm

/-- Each word of the result is the operation on the words of the operands, extended. -/
theorem bitwise_apply {n1 n2 nr j : ℕ} (positive1 : 0 < n1) (positive2 : 0 < n2) {long1 : Bool}
    (longer : if long1 then n2 ≤ n1 else n1 ≤ n2) (op1 op2 r : Words) (inside : j < nr) :
    bitwise long1 word rest n1 n2 nr op1 op2 r j =
      word (extended n1 op1 j) (extended n2 op2 j) := by
  cases long1 with
  | true =>
      have ordered : n2 ≤ n1 := longer
      have result := bitwise_of_le bits positive2 ordered op1 op2 r inside
      simp only [bitwise, ↓reduceIte, max_eq_left ordered, min_eq_right ordered, rest_eq,
        shift_apply]
      exact result
  | false =>
      have ordered : n1 ≤ n2 := longer
      have result := bitwise_of_le bits positive1 ordered op2 op1 r inside
      simp only [bitwise, Bool.false_eq_true, ↓reduceIte, max_eq_right ordered,
        min_eq_left ordered, rest_eq, shift_apply, comm (op1 _) (op2 _)]
      rw [comm (extended n1 op1 j)]
      exact result

variable (bool) in
/-- **A bitwise operation on vectors is that on their numbers.** -/
theorem vec_bitwise {n1 n2 : ℕ} (nr : ℕ) (positive1 : 0 < n1) (positive2 : 0 < n2) {long1 : Bool}
    (longer : if long1 then n2 ≤ n1 else n1 ≤ n2) (op1 op2 r : Words) {z : ℤ}
    (integer : ∀ i, z.testBit i =
      bool ((vec n1 op1).toInt.testBit i) ((vec n2 op2).toInt.testBit i)) :
    vec nr (bitwise long1 word rest n1 n2 nr op1 op2 r) = BitVec.ofInt (32 * nr) z := by
  refine vec_of_bits fun k below j inside => ?_
  rw [bitwise_apply bits rest_eq comm positive1 positive2 longer op1 op2 r below, bits _ _ j inside,
    integer, testBit_vec positive1, testBit_vec positive2, bit_word op1 inside,
    bit_word op2 inside]

end Bitwise

/-- Either comparison of the lengths picks an operand that is at least as long. -/
theorem longer_of_decide {n1 n2 : ℕ} (p : Prop) [Decidable p] (above : p → n2 ≤ n1)
    (below : ¬p → n1 ≤ n2) : if decide p then n2 ≤ n1 else n1 ≤ n2 := by
  by_cases here : p
  · simpa only [decide_eq_true here, ↓reduceIte] using above here
  · simpa only [decide_eq_false here, Bool.false_eq_true, ↓reduceIte] using below here

section Numbers

variable {n1 n2 : ℕ} (nr : ℕ) (positive1 : 0 < n1) (positive2 : 0 < n2) (op1 op2 r : Words)

include positive1 positive2

theorem vec_bitwiseAnd : vec nr (bitwiseAnd n1 n2 nr op1 op2 r) =
    BitVec.ofInt (32 * nr) (Int.land (vec n1 op1).toInt (vec n2 op2).toInt) := by
  refine vec_bitwise and (fun x y j _ => BitVec.getLsbD_and) (fun b n p r start => ?_)
    BitVec.and_comm nr positive1 positive2 (longer_of_decide _ (by omega) (by omega)) op1 op2 r
    fun i => Int.testBit_land _ _ i
  cases b with
  | true => simp only [↓reduceIte, copy, ones, BitVec.and_allOnes]
  | false => simp only [Bool.false_eq_true, ↓reduceIte, extend, ones, BitVec.ofNat_eq_ofNat,
      BitVec.and_zero]

theorem vec_bitwiseOr : vec nr (bitwiseOr n1 n2 nr op1 op2 r) =
    BitVec.ofInt (32 * nr) (Int.lor (vec n1 op1).toInt (vec n2 op2).toInt) := by
  refine vec_bitwise or (fun x y j _ => BitVec.getLsbD_or) (fun b n p r start => ?_)
    BitVec.or_comm nr positive1 positive2 (longer_of_decide _ (by omega) (by omega)) op1 op2 r
    fun i => Int.testBit_lor _ _ i
  cases b with
  | true => simp only [↓reduceIte, extend, ones, BitVec.or_allOnes]
  | false => simp only [Bool.false_eq_true, ↓reduceIte, copy, ones, BitVec.ofNat_eq_ofNat,
      BitVec.or_zero]

theorem vec_bitwiseXor : vec nr (bitwiseXor n1 n2 nr op1 op2 r) =
    BitVec.ofInt (32 * nr) (Int.xor (vec n1 op1).toInt (vec n2 op2).toInt) := by
  refine vec_bitwise xor (fun x y j _ => BitVec.getLsbD_xor) (fun b n p r start => ?_)
    BitVec.xor_comm nr positive1 positive2 (longer_of_decide _ (by omega) (by omega)) op1 op2 r
    fun i => Int.testBit_lxor _ _ i
  cases b with
  | true => simp only [↓reduceIte, ones, BitVec.xor_allOnes]
  | false => simp only [Bool.false_eq_true, ↓reduceIte, copy, ones, BitVec.ofNat_eq_ofNat,
      BitVec.xor_zero]

end Numbers

/-- The complement of an extended vector, word by word. -/
theorem bitwiseComplement_apply {n nr k : ℕ} (positive : 0 < n) (op r : Words) (inside : k < nr) :
    bitwiseComplement n nr op r k = ~~~extended n op k := by
  have low {i : ℕ} (below : i < min n nr) :
      fill (min n nr) (fun i => ~~~op i) r 0 i = ~~~extended n op i := by
    rw [fill_apply, if_pos (by omega), extended_of_lt op (by omega), Nat.sub_zero]
  simp only [bitwiseComplement, extend]
  rw [fill_apply]
  by_cases early : k < min n nr
  · rw [if_neg (by omega), low early]
  · rw [if_pos (by omega), low (by omega), isNeg_eq, BitVec.getLsbD_not, ← isNeg_eq,
      isNeg_extended op (by omega), extended_of_le op (by omega)]
    cases isNeg (op (n - 1)) with
    | true => decide
    | false => decide

theorem vec_bitwiseComplement {n : ℕ} (nr : ℕ) (positive : 0 < n) (op r : Words) :
    vec nr (bitwiseComplement n nr op r) = BitVec.ofInt (32 * nr) (Int.lnot (vec n op).toInt) := by
  refine vec_of_bits fun k below j inside => ?_
  rw [bitwiseComplement_apply positive op r below, BitVec.getLsbD_not, decide_eq_true inside,
    Bool.true_and, Int.testBit_lnot, testBit_vec positive, bit_word op inside]

/-! ## Shifts -/

/-- `hw = words(i); r[i] = cut(lw, hw); lw = hw;`, at one index. -/
def funnelRound (words : ℕ → Word) (cut : Word → Word → Word) (i : ℕ) (s : Word × Words) :
    Word × Words :=
  let hw := words i
  (hw, Function.update s.2 i (cut s.1 hw))

/-- The loop that cuts each word out of two neighbours. -/
def funnel (words : ℕ → Word) (cut : Word → Word → Word) (n : ℕ) (lw : Word) (r : Words) : Words :=
  (rounds (funnelRound words cut) n (lw, r)).2

/-- `iv_shift_l<N, Nr>`. -/
def shiftL (nr : ℕ) (op1 : Words) (op2 : BitVec 32) (r : Words) : Words :=
  let s31 := op2.toNat % 32
  let ishift := if op2.toNat / 32 > nr then nr else op2.toNat / 32
  let words := fun i => if i ≥ ishift then op1 (i - ishift) else 0
  if s31 ≠ 0 ∧ ishift ≠ nr then
    funnel words (fun lw hw => hw <<< s31 ||| lw >>> (32 - s31)) nr 0 r
  else fill nr words r 0

/-- `iv_shift_r<N, Nr>`. -/
def shiftR (n nr : ℕ) (op1 : Words) (op2 : BitVec 32) (r : Words) : Words :=
  let s31 := op2.toNat % 32
  let ishift := if op2.toNat / 32 > n then n else op2.toNat / 32
  let ext := ones (isNeg (op1 (n - 1)))
  if s31 ≠ 0 ∧ ishift ≠ n then
    let lw := if ishift < n then op1 ishift else ext
    funnel (fun i => if i + ishift + 1 < n then op1 (i + ishift + 1) else ext)
      (fun lw hw => lw >>> s31 ||| hw <<< (32 - s31)) nr lw r
  else fill nr (fun i => if i + ishift < n then op1 (i + ishift) else ext) r 0

/-- `iv_shift_l2<N, Nr, true>`, with its specialization to `<1, 1, true>`. The negation of the
least count, undefined in C++, wraps here, and so does a left shift into the sign. -/
def shiftL2 (n nr : ℕ) (op1 : Words) (op2 : BitVec 32) (r : Words) : Words :=
  if n = 1 ∧ nr = 1 then
    Function.update r 0
      (if 0 ≤ op2.toInt then if op2.toInt < 32 then op1 0 <<< op2.toNat else 0
      else if -32 < op2.toInt then (op1 0).sshiftRight (-op2).toNat else (op1 0).sshiftRight 31)
  else if op2.toInt < 0 then shiftR n nr op1 (-op2) r
  else shiftL nr op1 op2 r

/-- `iv_shift_r2<N, Nr, true>`, with its specialization to `<1, 1, true>`. The negation of the
least count wraps here as in `shiftL2`. -/
def shiftR2 (n nr : ℕ) (op1 : Words) (op2 : BitVec 32) (r : Words) : Words :=
  if n = 1 ∧ nr = 1 then
    Function.update r 0
      (if 0 ≤ op2.toInt then
        if op2.toInt < 32 then (op1 0).sshiftRight op2.toNat else (op1 0).sshiftRight 31
      else if -32 < op2.toInt then op1 0 <<< (-op2).toNat else 0)
  else if op2.toInt < 0 then shiftL nr op1 (-op2) r
  else shiftR n nr op1 op2 r

/-- A loop that keeps the word before reads two neighbours a round. -/
theorem funnel_eq (words : ℕ → Word) (cut : Word → Word → Word) (n : ℕ) (lw : Word) (r : Words) :
    funnel words cut n lw r =
      fill n (fun i => cut (if i = 0 then lw else words (i - 1)) (words i)) r 0 := by
  have state : rounds (funnelRound words cut) n (lw, r) =
      (if n = 0 then lw else words (n - 1),
        fill n (fun i => cut (if i = 0 then lw else words (i - 1)) (words i)) r 0) := by
    induction n with
    | zero => rfl
    | succ n ih =>
        rw [rounds, ih, funnelRound, if_neg (Nat.succ_ne_zero n), Nat.add_sub_cancel]
        refine Prod.ext rfl ?_
        change _ = Function.update (fill n _ r 0) (0 + n) _
        rw [Nat.zero_add]
  rw [funnel, state]

theorem funnel_apply (words : ℕ → Word) (cut : Word → Word → Word) {n k : ℕ} (lw : Word)
    (r : Words) (inside : k < n) :
    funnel words cut n lw r k = cut (if k = 0 then lw else words (k - 1)) (words k) := by
  rw [funnel_eq, fill_apply, if_pos (by omega), Nat.sub_zero]

/-- A word cut out of two neighbours. -/
theorem getLsbD_cut (lw hw : Word) {s j : ℕ} (proper : s ≤ 32) (inside : j < 32) :
    (hw <<< s ||| lw >>> (32 - s)).getLsbD j =
      if j < s then lw.getLsbD (j + (32 - s)) else hw.getLsbD (j - s) := by
  rw [BitVec.getLsbD_or, BitVec.getLsbD_shiftLeft, BitVec.getLsbD_ushiftRight,
    decide_eq_true inside, Bool.true_and, Nat.add_comm (32 - s)]
  by_cases low : j < s
  · rw [if_pos low, decide_eq_true low, Bool.not_true, Bool.false_and, Bool.false_or]
  · rw [if_neg low, decide_eq_false low, Bool.not_false, Bool.true_and,
      BitVec.getLsbD_of_ge lw _ (by omega), Bool.or_false]

/-- Beyond the words a bit is the sign. -/
theorem bit_of_ge {n i : ℕ} (v : Words) (beyond : 32 * n ≤ i) :
    bit n v i = isNeg (v (n - 1)) := by
  rw [bit, extended_of_le v (by omega), getLsbD_ones _ (by omega)]

/-- A right shift moves the bits down, the sign after them. -/
theorem getLsbD_shiftR {n nr k j : ℕ} (op1 : Words) (op2 : BitVec 32) (r : Words)
    (below : k < nr) (inside : j < 32) :
    (shiftR n nr op1 op2 r k).getLsbD j = bit n op1 (op2.toNat + (32 * k + j)) := by
  unfold shiftR
  generalize op2.toNat = count
  have position : count = 32 * (count / 32) + count % 32 := by omega
  have rest : count % 32 < 32 := by omega
  generalize count / 32 = q at position
  generalize count % 32 = s at position rest
  subst position
  by_cases both : s ≠ 0 ∧ (if q > n then n else q) ≠ n
  · obtain ⟨proper, short⟩ := both
    have few : ¬ q > n := fun many => short (if_pos many)
    have strict : q ≠ n := fun all => short (by rw [if_neg few, all])
    simp only [if_neg few, if_pos (show s ≠ 0 ∧ q ≠ n from ⟨proper, strict⟩)]
    have before : (if k = 0 then if q < n then op1 q else ones (isNeg (op1 (n - 1)))
        else if k - 1 + q + 1 < n then op1 (k - 1 + q + 1) else ones (isNeg (op1 (n - 1)))) =
          extended n op1 (k + q) := by
      by_cases first : k = 0
      · rw [if_pos first, first, Nat.zero_add]
        rfl
      · rw [if_neg first, show k - 1 + q + 1 = k + q by omega]
        rfl
    have cut := getLsbD_cut (extended n op1 (k + q)) (extended n op1 (k + q + 1))
      (show 32 - s ≤ 32 by omega) inside
    rw [show 32 - (32 - s) = s by omega, BitVec.or_comm] at cut
    rw [funnel_apply _ _ _ _ below, before]
    refine cut.trans ?_
    by_cases low : j < 32 - s
    · rw [if_pos low, ← bit_word op1 (by omega)]
      congr 1
      omega
    · rw [if_neg low, ← bit_word op1 (by omega)]
      congr 1
      omega
  · rw [if_neg both, fill_apply, if_pos (by omega), Nat.sub_zero]
    change (extended n op1 (k + if q > n then n else q)).getLsbD j = _
    rw [← bit_word op1 inside]
    by_cases many : n ≤ q
    · have all : (if q > n then n else q) = n := by split <;> omega
      rw [all, bit_of_ge op1 (by omega), bit_of_ge op1 (by omega)]
    · have few : (if q > n then n else q) = q := if_neg (by omega)
      have even : s = 0 := by
        by_contra proper
        exact both ⟨proper, by omega⟩
      rw [few, even]
      congr 1
      omega

/-- **`iv_shift_r` divides by a power of two**, rounding down. -/
theorem vec_shiftR {n : ℕ} (nr : ℕ) (positive : 0 < n) (op1 : Words) (op2 : BitVec 32) (r : Words) :
    vec nr (shiftR n nr op1 op2 r) =
      BitVec.ofInt (32 * nr) ((vec n op1).toInt / 2 ^ op2.toNat) := by
  refine vec_of_bits fun k below j inside => ?_
  rw [getLsbD_shiftR op1 op2 r below inside, IntBits.testBit_ediv, testBit_vec positive]

/-- A left shift moves the bits up, zeros behind them. -/
theorem getLsbD_shiftL {n nr k j : ℕ} (shorter : nr ≤ n) (op1 : Words) (op2 : BitVec 32) (r : Words)
    (below : k < nr) (inside : j < 32) :
    (shiftL nr op1 op2 r k).getLsbD j =
      (decide (op2.toNat ≤ 32 * k + j) && bit n op1 (32 * k + j - op2.toNat)) := by
  unfold shiftL
  generalize op2.toNat = count
  have position : count = 32 * (count / 32) + count % 32 := by omega
  have rest : count % 32 < 32 := by omega
  generalize count / 32 = q at position
  generalize count % 32 = s at position rest
  subst position
  -- a bit of the word that the shift by whole words puts at an index
  have moved {i l : ℕ} (early : i < nr) (small : l < 32) :
      (if i ≥ q then op1 (i - q) else 0).getLsbD l =
        (decide (32 * q ≤ 32 * i + l) && bit n op1 (32 * i + l - 32 * q)) := by
    by_cases reached : i ≥ q
    · obtain ⟨m, rfl⟩ := Nat.exists_eq_add_of_le reached
      rw [if_pos reached, decide_eq_true (by omega), Bool.true_and, Nat.add_sub_cancel_left,
        show 32 * (q + m) + l - 32 * q = 32 * m + l by omega, bit_word op1 small,
        extended_of_lt op1 (by omega)]
    · rw [if_neg reached, decide_eq_false (by omega), Bool.false_and, BitVec.ofNat_eq_ofNat,
        BitVec.getLsbD_zero]
  by_cases both : s ≠ 0 ∧ (if q > nr then nr else q) ≠ nr
  · obtain ⟨proper, short⟩ := both
    have few : ¬ q > nr := fun many => short (if_pos many)
    have strict : q ≠ nr := fun all => short (by rw [if_neg few, all])
    simp only [if_neg few, if_pos (show s ≠ 0 ∧ q ≠ nr from ⟨proper, strict⟩)]
    rw [funnel_apply _ _ _ _ below, getLsbD_cut _ _ (show s ≤ 32 by omega) inside]
    by_cases low : j < s
    · rw [if_pos low]
      by_cases first : k = 0
      · rw [if_pos first, BitVec.ofNat_eq_ofNat, BitVec.getLsbD_zero, decide_eq_false (by omega),
          Bool.false_and]
      · rw [if_neg first, moved (by omega) (by omega)]
        congr 1
        · exact decide_eq_decide.mpr (by omega)
        · congr 1
          omega
    · rw [if_neg low, moved below (by omega)]
      congr 1
      · exact decide_eq_decide.mpr (by omega)
      · congr 1
        omega
  · rw [if_neg both, fill_apply, if_pos (by omega), Nat.sub_zero]
    by_cases many : nr ≤ q
    · have all : (if q > nr then nr else q) = nr := by split <;> omega
      rw [all, if_neg (by omega), BitVec.ofNat_eq_ofNat, BitVec.getLsbD_zero,
        decide_eq_false (by omega), Bool.false_and]
    · have few : (if q > nr then nr else q) = q := if_neg (by omega)
      have even : s = 0 := by
        by_contra proper
        exact both ⟨proper, by omega⟩
      rw [few, moved below inside, even, Nat.add_zero]

/-- **`iv_shift_l` multiplies by a power of two**, up to the length of the result. -/
theorem vec_shiftL {n nr : ℕ} (positive : 0 < n) (shorter : nr ≤ n) (op1 : Words)
    (op2 : BitVec 32) (r : Words) :
    vec nr (shiftL nr op1 op2 r) =
      BitVec.ofInt (32 * nr) ((vec n op1).toInt * 2 ^ op2.toNat) := by
  refine vec_of_bits fun k below j inside => ?_
  rw [getLsbD_shiftL shorter op1 op2 r below inside, IntBits.testBit_mul, testBit_vec positive]

/-- The bits of a vector of one word. -/
theorem bit_one (op : Words) (i : ℕ) :
    bit 1 op i = if i < 32 then (op 0).getLsbD i else (op 0).msb := by
  by_cases inside : i < 32
  · rw [if_pos inside, show i = 32 * 0 + i by omega, bit_word op inside,
      extended_of_lt op (by decide), Nat.mul_zero, Nat.zero_add]
  · rw [if_neg inside, bit_of_ge op (by omega), isNeg_eq, BitVec.msb_eq_getLsbD_last]

/-- On one word the shift is that of an `unsigned`. -/
theorem shiftL_one (op1 : Words) (op2 : BitVec 32) (r : Words) :
    shiftL 1 op1 op2 r 0 = if op2.toNat < 32 then op1 0 <<< op2.toNat else 0 := by
  apply BitVec.eq_of_getLsbD_eq
  intro j inside
  rw [getLsbD_shiftL le_rfl op1 op2 r (by decide) inside, bit_one]
  by_cases narrow : op2.toNat < 32
  · rw [if_pos narrow, BitVec.getLsbD_shiftLeft, decide_eq_true inside, Bool.true_and,
      if_pos (by omega), Nat.mul_zero, Nat.zero_add]
    congr 1
    rw [← decide_not]
    exact decide_eq_decide.mpr (by omega)
  · rw [if_neg narrow, decide_eq_false (by omega), Bool.false_and, BitVec.ofNat_eq_ofNat,
      BitVec.getLsbD_zero]

/-- On one word the shift is that of an `int`. -/
theorem shiftR_one (op1 : Words) (op2 : BitVec 32) (r : Words) :
    shiftR 1 1 op1 op2 r 0 =
      if op2.toNat < 32 then (op1 0).sshiftRight op2.toNat else (op1 0).sshiftRight 31 := by
  apply BitVec.eq_of_getLsbD_eq
  intro j inside
  rw [getLsbD_shiftR op1 op2 r (by decide) inside, bit_one, Nat.mul_zero, Nat.zero_add]
  by_cases narrow : op2.toNat < 32
  · rw [if_pos narrow, BitVec.getLsbD_sshiftRight, decide_eq_false (by omega), Bool.not_false,
      Bool.true_and]
  · rw [if_neg narrow, if_neg (by omega), BitVec.getLsbD_sshiftRight, decide_eq_false (by omega),
      Bool.not_false, Bool.true_and, BitVec.msb_eq_getLsbD_last]
    by_cases first : j = 0
    · subst first
      rfl
    · rw [if_neg (by omega)]

/-- A number times a power of two, whose exponent may be negative. -/
def scale (z k : ℤ) : ℤ := if 0 ≤ k then z * 2 ^ k.toNat else z / 2 ^ (-k).toNat

theorem scale_natCast (z : ℤ) (k : ℕ) : scale z k = z * 2 ^ k := by
  rw [scale, if_pos (Int.natCast_nonneg k), Int.toNat_natCast]

theorem scale_neg (z : ℤ) (k : ℕ) : scale z (-k) = z / 2 ^ k := by
  by_cases none : k = 0
  · subst none
    rw [Nat.cast_zero, neg_zero, pow_zero, Int.ediv_one, scale, if_pos le_rfl, Int.toNat_zero,
      pow_zero, mul_one]
  · rw [scale, if_neg (by omega), neg_neg, Int.toNat_natCast]

/-- The count of the opposite shift. -/
theorem toNat_neg_of_neg {w : BitVec 32} (negative : w.toInt < 0) :
    (-w).toNat = (-w.toInt).toNat := by
  have word := w.isLt
  rw [BitVec.toInt_eq_toNat_cond] at negative ⊢
  rw [BitVec.toNat_neg]
  split at negative
  · omega
  · omega

theorem toNat_of_nonneg {w : BitVec 32} (nonnegative : 0 ≤ w.toInt) : w.toNat = w.toInt.toNat := by
  have word := w.isLt
  rw [BitVec.toInt_eq_toNat_cond] at nonnegative ⊢
  split at nonnegative
  · omega
  · omega

theorem vec_one_congr {u w : Words} (same : u 0 = w 0) : vec 1 u = vec 1 w :=
  vec_congr fun i below => by rw [show i = 0 by omega, same]

/-- `iv_shift_l2` shifts right where the count is negative, also for one word. -/
theorem shiftL2_eq {n nr : ℕ} (op1 : Words) (op2 : BitVec 32) (r : Words) :
    vec nr (shiftL2 n nr op1 op2 r) =
      vec nr (if op2.toInt < 0 then shiftR n nr op1 (-op2) r else shiftL nr op1 op2 r) := by
  unfold shiftL2
  by_cases single : n = 1 ∧ nr = 1
  · obtain ⟨rfl, rfl⟩ := single
    rw [if_pos ⟨rfl, rfl⟩]
    apply vec_one_congr
    rw [Function.update_self]
    by_cases negative : op2.toInt < 0
    · have count := toNat_neg_of_neg negative
      rw [if_neg (by omega), if_pos negative, shiftR_one]
      by_cases narrow : -32 < op2.toInt
      · rw [if_pos narrow, if_pos (by omega)]
      · rw [if_neg narrow, if_neg (by omega)]
    · have count := toNat_of_nonneg (not_lt.mp negative)
      rw [if_pos (by omega), if_neg negative, shiftL_one]
      by_cases narrow : op2.toInt < 32
      · rw [if_pos narrow, if_pos (by omega)]
      · rw [if_neg narrow, if_neg (by omega)]
  · rw [if_neg single]

/-- `iv_shift_r2` shifts left where the count is negative, also for one word. -/
theorem shiftR2_eq {n nr : ℕ} (op1 : Words) (op2 : BitVec 32) (r : Words) :
    vec nr (shiftR2 n nr op1 op2 r) =
      vec nr (if op2.toInt < 0 then shiftL nr op1 (-op2) r else shiftR n nr op1 op2 r) := by
  unfold shiftR2
  by_cases single : n = 1 ∧ nr = 1
  · obtain ⟨rfl, rfl⟩ := single
    rw [if_pos ⟨rfl, rfl⟩]
    apply vec_one_congr
    rw [Function.update_self]
    by_cases negative : op2.toInt < 0
    · have count := toNat_neg_of_neg negative
      rw [if_neg (by omega), if_pos negative, shiftL_one]
      by_cases narrow : -32 < op2.toInt
      · rw [if_pos narrow, if_pos (by omega)]
      · rw [if_neg narrow, if_neg (by omega)]
    · have count := toNat_of_nonneg (not_lt.mp negative)
      rw [if_pos (by omega), if_neg negative, shiftR_one]
      by_cases narrow : op2.toInt < 32
      · rw [if_pos narrow, if_pos (by omega)]
      · rw [if_neg narrow, if_neg (by omega)]
  · rw [if_neg single]

section Signed

variable {n nr : ℕ} (positive : 0 < n) (shorter : nr ≤ n) (op1 : Words) (op2 : BitVec 32)
  (r : Words)

include positive shorter

/-- A shift by a signed count goes the other way when the count is negative. -/
theorem vec_shiftL2 : vec nr (shiftL2 n nr op1 op2 r) =
    BitVec.ofInt (32 * nr) (scale (vec n op1).toInt op2.toInt) := by
  rw [shiftL2_eq, scale]
  by_cases negative : op2.toInt < 0
  · rw [if_pos negative, if_neg (by omega), vec_shiftR nr positive, toNat_neg_of_neg negative]
  · rw [if_neg negative, if_pos (by omega), vec_shiftL positive shorter,
      toNat_of_nonneg (by omega)]

theorem vec_shiftR2 : vec nr (shiftR2 n nr op1 op2 r) =
    BitVec.ofInt (32 * nr) (scale (vec n op1).toInt (-op2.toInt)) := by
  rw [shiftR2_eq]
  by_cases negative : op2.toInt < 0
  · rw [if_pos negative, scale, if_pos (by omega), vec_shiftL positive shorter,
      toNat_neg_of_neg negative]
  · have count : (op2.toNat : ℤ) = op2.toInt := by
      rw [toNat_of_nonneg (by omega), Int.toNat_of_nonneg (by omega)]
    rw [if_neg negative, vec_shiftR nr positive, ← count, scale_neg]

end Signed

end Iv

end DownSample
