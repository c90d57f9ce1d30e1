import DownSample.IntegerVector.Words

/-! # Sums and differences of integer vectors

`iv_add` and `iv_sub` run over the words that both operands have without signs, then over
the rest of the longer operand with the top word of the shorter one, and last extend the
sign. Whatever the three lengths, the destination holds the sum or the difference of the
operands, cut to its length (`DownSample.Iv.vec_add`, `DownSample.Iv.vec_sub`). Negation,
increment and decrement are passes of the same kind.
-/

namespace DownSample

namespace Iv

/-- `(Ulong) (unsigned) w`. -/
def zext (w : Word) : BitVec 64 := w.setWidth 64

/-- `(Slong) w`. -/
def sext (w : Word) : BitVec 64 := w.signExtend 64

/-- A `bool` in an expression of `long long`s. -/
def promote (b : Bool) : BitVec 64 := if b then 1 else 0

/-- `iv_assign_int64<Nr>`. -/
def assignInt64 (nr : ℕ) (r : Words) (l : BitVec 64) : Words :=
  let r := Function.update r 0 (l.setWidth 32)
  if nr > 1 then
    let r := Function.update r 1 ((l.sshiftRight 32).setWidth 32)
    extend (nr - 2) r 2 (ones (isNeg (r 1)))
  else r

/-- `iv_uadd_n<N>`. -/
def uaddN (n : ℕ) (op1 op2 r : Words) (start : ℕ) : Bool × Words :=
  let (l, r) := pass false (fun i => zext (op1 i) + zext (op2 i)) n 0 r start
  (l.getLsbD 0, r)

/-- The columns of `iv_add_int_carry<N>`: the first round adds `op2`, and the last one reads
its word with the sign. -/
def addIntColumn (n : ℕ) (op1 : Words) (op2 : Word) (i : ℕ) : BitVec 64 :=
  (if i + 1 = n then sext (op1 i) else zext (op1 i)) + (if i = 0 then sext op2 else 0)

/-- `iv_add_int_carry<N>`. -/
def addIntCarry (n : ℕ) (op1 : Words) (op2 : Word) (carry : Bool) (r : Words) (start : ℕ) :
    Bool × Words :=
  if n = 0 then (carry, r)
  else
    let (l, r) := pass true (addIntColumn n op1 op2) n (promote carry) r start
    (l.getLsbD 0, r)

/-- `iv_add<N1, N2, Nr>`, with its specialization to `<1, 1, 2>`. An overflow of the single-word
sum, undefined in C++, wraps here. -/
def add (n1 n2 nr : ℕ) (op1 op2 r : Words) : Words :=
  if nr = 1 then Function.update r 0 (op1 0 + op2 0)
  else if n1 = 1 ∧ n2 = 1 ∧ nr = 2 then assignInt64 2 r (sext (op1 0) + sext (op2 0))
  else
    let m1 := max n1 n2
    let m2 := min n1 n2
    let p1 := if n2 ≤ n1 then op1 else op2
    let p2 := if n2 ≤ n1 then op2 else op1
    let t1 := min (m2 - 1) nr
    let t2 := min m1 nr
    let (carry, r) := uaddN t1 p1 p2 r 0
    let (carry, r) := addIntCarry (t2 - t1) (shift p1 t1) (p2 t1) carry r t1
    extend (nr - t2) r t2 (ones carry)

/-- `iv_usub_n<N>`. -/
def usubN (n : ℕ) (op1 op2 r : Words) (start : ℕ) : Bool × Words :=
  let (l, r) := pass true (fun i => zext (op1 i) - zext (op2 i)) n 0 r start
  (l.getLsbD 0, r)

/-- The columns of `iv_sub_int_borrow<N>(const int *, int, ..)`. -/
def subIntColumn (n : ℕ) (op1 : Words) (op2 : Word) (i : ℕ) : BitVec 64 :=
  (if i + 1 = n then sext (op1 i) else zext (op1 i)) - (if i = 0 then sext op2 else 0)

/-- `iv_sub_int_borrow<N>(const int *op1, int op2, ..)`. -/
def subIntBorrow (n : ℕ) (op1 : Words) (op2 : Word) (borrow : Bool) (r : Words) (start : ℕ) :
    Bool × Words :=
  if n = 0 then (borrow, r)
  else
    let (l, r) := pass true (subIntColumn n op1 op2) n (-promote borrow) r start
    (l.getLsbD 0, r)

/-- The columns of `iv_sub_int_borrow<N>(int, const int *, ..)`. -/
def intSubColumn (n : ℕ) (op1 : Word) (op2 : Words) (i : ℕ) : BitVec 64 :=
  (if i = 0 then sext op1 else 0) - (if i + 1 = n then sext (op2 i) else zext (op2 i))

/-- `iv_sub_int_borrow<N>(int op1, const int *op2, ..)`. -/
def intSubBorrow (n : ℕ) (op1 : Word) (op2 : Words) (borrow : Bool) (r : Words) (start : ℕ) :
    Bool × Words :=
  if n = 0 then (borrow, r)
  else
    let (l, r) := pass true (intSubColumn n op1 op2) n (-promote borrow) r start
    (l.getLsbD 0, r)

/-- `iv_sub<N1, N2, Nr>`, with its specialization to `<1, 1, 2>`. An overflow of the single-word
difference, undefined in C++, wraps here. -/
def sub (n1 n2 nr : ℕ) (op1 op2 r : Words) : Words :=
  if nr = 1 then Function.update r 0 (op1 0 - op2 0)
  else if n1 = 1 ∧ n2 = 1 ∧ nr = 2 then assignInt64 2 r (sext (op1 0) - sext (op2 0))
  else
    let m1 := max n1 n2
    let m2 := min n1 n2
    let t1 := min (m2 - 1) nr
    let t2 := min m1 nr
    let (borrow, r) := usubN t1 op1 op2 r 0
    let (borrow, r) :=
      if n2 < n1 then subIntBorrow (t2 - t1) (shift op1 t1) (op2 t1) borrow r t1
      else intSubBorrow (t2 - t1) (op1 t1) (shift op2 t1) borrow r t1
    extend (nr - t2) r t2 (ones borrow)

/-- `iv_neg<N, Nr>`. -/
def neg (n nr : ℕ) (op1 r : Words) : Words :=
  let (l, r) := pass true (fun i => -zext (op1 i)) (min n nr) 0 r 0
  if n < nr then
    let r := Function.update r n ((l - sext (ones (isNeg (op1 (n - 1))))).setWidth 32)
    extend (nr - n - 1) r (n + 1) (ones (isNeg (r n)))
  else r

/-- `iv_uadd_carry<N>`, in place. -/
def uaddCarry (n : ℕ) (op1 : Words) (carry : Bool) : Bool × Words :=
  let (l, r) := pass true (fun i => zext (op1 i)) n (promote carry) op1 0
  (decide (l ≠ 0), r)

/-- `iv<N>::increment()`. -/
def increment (n : ℕ) (v : Words) : Words := (uaddCarry n v true).2

/-- `iv<N>::decrement()`. -/
def decrement (n : ℕ) (v : Words) : Words := (subIntBorrow n v 0 true v 0).2

/-! ## One word and one carry -/

/-- An unsigned word keeps its number in a `Slong`. -/
theorem toInt_zext (w : Word) : (zext w).toInt = w.toNat := by
  have small := w.isLt
  rw [zext, BitVec.toInt_eq_toNat_of_lt (by rw [BitVec.toNat_setWidth]; omega),
    BitVec.toNat_setWidth, Nat.mod_eq_of_lt (by omega)]

/-- A signed word keeps its number in a `Slong`. -/
theorem toInt_sext (w : Word) : (sext w).toInt = w.toInt :=
  BitVec.toInt_signExtend_of_le (by decide)

/-- The `Slong` holds the sum of two unsigned words. -/
theorem toInt_zext_add (x y : Word) : (zext x + zext y).toInt = x.toNat + y.toNat := by
  have left := toNat_word x
  have right := toNat_word y
  rw [toInt_add_of_fits (by rw [toInt_zext, toInt_zext]; omega), toInt_zext, toInt_zext]

/-- The `Slong` holds the difference of two unsigned words. -/
theorem toInt_zext_sub (x y : Word) : (zext x - zext y).toInt = x.toNat - y.toNat := by
  have left := toNat_word x
  have right := toNat_word y
  rw [toInt_sub_of_fits (by rw [toInt_zext, toInt_zext]; omega), toInt_zext, toInt_zext]

/-- A word with its sign where the vector ends, without it elsewhere. -/
def reading (top : Bool) (w : Word) : ℤ := if top then w.toInt else w.toNat

/-- Either reading of a word lies in the union of the two ranges. -/
theorem reading_bounds (top : Bool) (w : Word) :
    -2 ^ 31 ≤ reading top w ∧ reading top w < 2 ^ 32 := by
  have signed := toInt_word w
  have unsigned := toNat_word w
  unfold reading
  split <;> omega

/-- The source's choice between the two casts is the choice of the reading. -/
theorem toInt_reading (top : Prop) [Decidable top] (w : Word) :
    (if top then sext w else zext w).toInt = reading (decide top) w := by
  unfold reading
  by_cases here : top
  · simp only [if_pos here, toInt_sext, decide_eq_true here, ↓reduceIte]
  · simp only [if_neg here, toInt_zext, decide_eq_false here, Bool.false_eq_true, ↓reduceIte]

/-- The integer operand enters the first column and no other. -/
theorem toInt_first (first : Prop) [Decidable first] (w : Word) :
    (if first then sext w else (0 : BitVec 64)).toInt = if first then w.toInt else 0 := by
  by_cases here : first
  · rw [if_pos here, if_pos here, toInt_sext]
  · rw [if_neg here, if_neg here]
    rfl

/-- The integer in the first column. -/
def firstInt (w : Word) (i : ℕ) : ℤ := if i = 0 then w.toInt else 0

/-- The integer of the first column is an `int`. -/
theorem firstInt_bounds (w : Word) (i : ℕ) :
    -2 ^ 31 ≤ firstInt w i ∧ firstInt w i < 2 ^ 31 := by
  have int := toInt_word w
  unfold firstInt
  split <;> omega

/-- A column of `iv_add_int_carry` does not overflow the `Slong`. -/
theorem toInt_addIntColumn (n : ℕ) (op1 : Words) (op2 : Word) (i : ℕ) :
    (addIntColumn n op1 op2 i).toInt = reading (decide (i + 1 = n)) (op1 i) + firstInt op2 i := by
  have word := reading_bounds (decide (i + 1 = n)) (op1 i)
  have int := firstInt_bounds op2 i
  have summand : (if i = 0 then sext op2 else 0).toInt = firstInt op2 i := toInt_first (i = 0) op2
  rw [addIntColumn, toInt_add_of_fits, toInt_reading, summand]
  rw [toInt_reading, summand]
  omega

/-- A column of `iv_sub_int_borrow` that subtracts the integer does not overflow the `Slong`. -/
theorem toInt_subIntColumn (n : ℕ) (op1 : Words) (op2 : Word) (i : ℕ) :
    (subIntColumn n op1 op2 i).toInt = reading (decide (i + 1 = n)) (op1 i) - firstInt op2 i := by
  have word := reading_bounds (decide (i + 1 = n)) (op1 i)
  have int := firstInt_bounds op2 i
  have summand : (if i = 0 then sext op2 else 0).toInt = firstInt op2 i := toInt_first (i = 0) op2
  rw [subIntColumn, toInt_sub_of_fits, toInt_reading, summand]
  rw [toInt_reading, summand]
  omega

/-- A column of `iv_sub_int_borrow` that subtracts from the integer does not overflow the `Slong`.
-/
theorem toInt_intSubColumn (n : ℕ) (op1 : Word) (op2 : Words) (i : ℕ) :
    (intSubColumn n op1 op2 i).toInt = firstInt op1 i - reading (decide (i + 1 = n)) (op2 i) := by
  have word := reading_bounds (decide (i + 1 = n)) (op2 i)
  have int := firstInt_bounds op1 i
  have summand : (if i = 0 then sext op1 else 0).toInt = firstInt op1 i := toInt_first (i = 0) op1
  rw [intSubColumn, toInt_sub_of_fits, toInt_reading, summand]
  rw [toInt_reading, summand]
  omega

/-- A negated `bool` is a borrow. -/
theorem toInt_neg_promote (b : Bool) : (-promote b).toInt = if b then -1 else 0 := by
  cases b with
  | true => rfl
  | false => rfl

/-- A carry is its lowest bit. -/
theorem carry_eq_promote {l : BitVec 64} (range : 0 ≤ l.toInt ∧ l.toInt ≤ 1) :
    l.toInt = (promote (l.getLsbD 0)).toInt := by
  obtain zero | one : l.toInt = (0#64).toInt ∨ l.toInt = (1#64).toInt := by
    have : (0#64).toInt = 0 := rfl
    have : (1#64).toInt = 1 := rfl
    omega
  · rw [BitVec.toInt_inj] at zero
    subst zero
    rfl
  · rw [BitVec.toInt_inj] at one
    subst one
    rfl

/-- A borrow is its lowest bit. -/
theorem borrow_eq_promote {l : BitVec 64} (range : -1 ≤ l.toInt ∧ l.toInt ≤ 0) :
    l.toInt = (-promote (l.getLsbD 0)).toInt := by
  obtain zero | one : l.toInt = (0#64).toInt ∨ l.toInt = (-1#64).toInt := by
    have : (0#64).toInt = 0 := rfl
    have : (-1#64).toInt = -1 := rfl
    omega
  · rw [BitVec.toInt_inj] at zero
    subst zero
    rfl
  · rw [BitVec.toInt_inj] at one
    subst one
    rfl

/-! ## The parts of a sum -/

/-- Every pass over whole words starts with nothing carried. -/
theorem toInt_zero : (0 : BitVec 64).toInt = 0 := rfl

/-- The sum of two words without signs. -/
def sumColumn (op1 op2 : Words) (i : ℕ) : ℤ := (op1 i).toNat + (op2 i).toNat

/-- `iv_uadd_n` writes the digits of the sum and returns its carry. -/
theorem uaddN_spec (n : ℕ) (op1 op2 r : Words) (start : ℕ) :
    (uaddN n op1 op2 r start).2 = fill n (passWord 0 (sumColumn op1 op2)) r start ∧
      Radix.carry (2 ^ 32) 0 (sumColumn op1 op2) n =
        (promote (uaddN n op1 op2 r start).1).toInt := by
  have bounds (i : ℕ) : 0 ≤ sumColumn op1 op2 i ∧ sumColumn op1 op2 i ≤ 2 ^ 33 - 2 := by
    have left := toNat_word (op1 i)
    have right := toNat_word (op2 i)
    unfold sumColumn
    omega
  have passed : (pass false (fun i => zext (op1 i) + zext (op2 i)) n 0 r start).1.toInt =
        Radix.carry (2 ^ 32) 0 (sumColumn op1 op2) n ∧
      (pass false (fun i => zext (op1 i) + zext (op2 i)) n 0 r start).2 =
        fill n (passWord 0 (sumColumn op1 op2)) r start :=
    pass_of_bounded r start (fun i _ => toInt_zext_add _ _) (by rw [toInt_zero]; omega)
      (fun i _ => by have column := bounds i; omega) (.inr ⟨le_rfl, fun i _ => (bounds i).1⟩)
  have range : 0 ≤ Radix.carry (2 ^ 32) 0 (sumColumn op1 op2) n ∧
      Radix.carry (2 ^ 32) 0 (sumColumn op1 op2) n ≤ 1 :=
    Radix.carry_bounds (by decide) (by omega) fun i _ => by have column := bounds i; omega
  refine ⟨passed.2, ?_⟩
  rw [← passed.1] at range ⊢
  exact carry_eq_promote range

/-- The difference of two words without signs. -/
def differenceColumn (op1 op2 : Words) (i : ℕ) : ℤ := (op1 i).toNat - (op2 i).toNat

/-- `iv_usub_n` writes the digits of the difference and returns its borrow. -/
theorem usubN_spec (n : ℕ) (op1 op2 r : Words) (start : ℕ) :
    (usubN n op1 op2 r start).2 = fill n (passWord 0 (differenceColumn op1 op2)) r start ∧
      Radix.carry (2 ^ 32) 0 (differenceColumn op1 op2) n =
        (-promote (usubN n op1 op2 r start).1).toInt := by
  have bounds (i : ℕ) : -(2 ^ 32 - 1) ≤ differenceColumn op1 op2 i ∧
      differenceColumn op1 op2 i ≤ 2 ^ 32 - 1 := by
    have left := toNat_word (op1 i)
    have right := toNat_word (op2 i)
    unfold differenceColumn
    omega
  have passed : (pass true (fun i => zext (op1 i) - zext (op2 i)) n 0 r start).1.toInt =
        Radix.carry (2 ^ 32) 0 (differenceColumn op1 op2) n ∧
      (pass true (fun i => zext (op1 i) - zext (op2 i)) n 0 r start).2 =
        fill n (passWord 0 (differenceColumn op1 op2)) r start :=
    pass_of_bounded r start (fun i _ => toInt_zext_sub _ _) (by rw [toInt_zero]; omega)
      (fun i _ => by have column := bounds i; omega) (.inl rfl)
  have range : -1 ≤ Radix.carry (2 ^ 32) 0 (differenceColumn op1 op2) n ∧
      Radix.carry (2 ^ 32) 0 (differenceColumn op1 op2) n ≤ 0 :=
    Radix.carry_bounds (by decide) (by omega) fun i _ => by have column := bounds i; omega
  refine ⟨passed.2, ?_⟩
  rw [← passed.1] at range ⊢
  exact borrow_eq_promote range

/-- A pass that ends with a signed word carries the sign. -/
theorem carry_of_signed_end {start : ℤ} {d : ℕ → ℤ} {n : ℕ} (positive : 0 < n)
    (starts : -1 ≤ start ∧ start ≤ 1)
    (inner : ∀ i, i + 1 < n → -(2 ^ 32 + 2 ^ 31) ≤ d i ∧ d i ≤ 2 ^ 32 + 2 ^ 31)
    (only : n = 1 → -2 ^ 32 ≤ start + d 0 ∧ start + d 0 < 2 ^ 32)
    (top : 1 < n → -2 ^ 31 ≤ d (n - 1) ∧ d (n - 1) ≤ 2 ^ 31) :
    -1 ≤ Radix.carry (2 ^ 32) start d n ∧ Radix.carry (2 ^ 32) start d n ≤ 0 := by
  obtain ⟨m, rfl⟩ : ∃ m, n = m + 1 := ⟨n - 1, by omega⟩
  have before : -2 ≤ Radix.carry (2 ^ 32) start d m ∧ Radix.carry (2 ^ 32) start d m ≤ 1 :=
    Radix.carry_bounds (by decide) (by omega) fun i below => by
      have column := inner i (by omega)
      omega
  have sum : -2 ^ 32 ≤ Radix.carry (2 ^ 32) start d m + d m ∧
      Radix.carry (2 ^ 32) start d m + d m < 2 ^ 32 := by
    cases m with
    | zero => exact only rfl
    | succ m =>
        have column : -2 ^ 31 ≤ d (m + 1) ∧ d (m + 1) ≤ 2 ^ 31 := top (by omega)
        omega
  rw [Radix.carry]
  omega

/-- What a part of a sum leaves that resumes a pass and ends it with a signed word. -/
structure Resumed (n : ℕ) (middle : ℤ) (d : ℕ → ℤ) (r : Words) (start : ℕ)
    (result : Bool × Words) : Prop where
  words : result.2 = fill n (passWord middle d) r start
  sign : 0 < n → Radix.carry (2 ^ 32) middle d n = (-promote result.1).toInt

/-- A pass over signed words whose columns are small returns the sign as one bit. -/
theorem resumed_of_pass {column : ℕ → BitVec 64} {n : ℕ} {l : BitVec 64} {d : ℕ → ℤ}
    (positive : 0 < n) (columns : ∀ i, (column i).toInt = d i)
    (starts : -1 ≤ l.toInt ∧ l.toInt ≤ 1)
    (inner : ∀ i, -(2 ^ 32 + 2 ^ 31) ≤ d i ∧ d i ≤ 2 ^ 32 + 2 ^ 31)
    (only : n = 1 → -2 ^ 32 ≤ l.toInt + d 0 ∧ l.toInt + d 0 < 2 ^ 32)
    (top : 1 < n → -2 ^ 31 ≤ d (n - 1) ∧ d (n - 1) ≤ 2 ^ 31) (r : Words) (start : ℕ) :
    Resumed n l.toInt d r start
      ((pass true column n l r start).1.getLsbD 0, (pass true column n l r start).2) := by
  have passed : (pass true column n l r start).1.toInt = Radix.carry (2 ^ 32) l.toInt d n ∧
      (pass true column n l r start).2 = fill n (passWord l.toInt d) r start :=
    pass_of_bounded r start (fun i _ => columns i) (by omega)
      (fun i _ => by have column := inner i; omega) (.inl rfl)
  have range := carry_of_signed_end positive starts (fun i _ => inner i) only top
  refine ⟨passed.2, fun _ => ?_⟩
  rw [← passed.1] at range ⊢
  exact borrow_eq_promote range

/-- A carry is 0 or 1, a borrow 0 or -1. -/
theorem promote_bounds (b : Bool) :
    (0 ≤ (promote b).toInt ∧ (promote b).toInt ≤ 1) ∧
      -1 ≤ (-promote b).toInt ∧ (-promote b).toInt ≤ 0 := by
  cases b with
  | true => decide
  | false => decide

/-- The top word is an `int`. -/
theorem reading_top (w : Word) : -2 ^ 31 ≤ reading true w ∧ reading true w < 2 ^ 31 := toInt_word w

/-- Behind the first column the integer adds nothing. -/
theorem firstInt_of_pos (w : Word) {i : ℕ} (positive : 0 < i) : firstInt w i = 0 :=
  if_neg positive.ne'

/-- `iv_add_int_carry` resumes a sum and ends it with the sign. -/
theorem addIntCarry_spec (n : ℕ) (op1 : Words) (op2 : Word) (carry : Bool) (r : Words)
    (start : ℕ) :
    Resumed n (promote carry).toInt
      (fun i => reading (decide (i + 1 = n)) (op1 i) + firstInt op2 i) r start
      (addIntCarry n op1 op2 carry r start) := by
  by_cases zero : n = 0
  · subst zero
    exact ⟨rfl, fun positive => (lt_irrefl 0 positive).elim⟩
  · have carried := (promote_bounds carry).1
    rw [addIntCarry, if_neg zero]
    refine resumed_of_pass (by omega) (toInt_addIntColumn n op1 op2) (by omega) (fun i => ?_)
      (fun one => ?_) (fun more => ?_) r start
    · have word := reading_bounds (decide (i + 1 = n)) (op1 i)
      have int := firstInt_bounds op2 i
      omega
    · have word := reading_top (op1 0)
      have int := firstInt_bounds op2 0
      rw [decide_eq_true (show 0 + 1 = n by omega)]
      omega
    · have word := reading_top (op1 (n - 1))
      rw [decide_eq_true (show n - 1 + 1 = n by omega), firstInt_of_pos op2 (by omega)]
      omega

/-- `iv_sub_int_borrow` of a vector and an integer resumes a difference and ends it with the sign.
-/
theorem subIntBorrow_spec (n : ℕ) (op1 : Words) (op2 : Word) (borrow : Bool) (r : Words)
    (start : ℕ) :
    Resumed n (-promote borrow).toInt
      (fun i => reading (decide (i + 1 = n)) (op1 i) - firstInt op2 i) r start
      (subIntBorrow n op1 op2 borrow r start) := by
  by_cases zero : n = 0
  · subst zero
    exact ⟨rfl, fun positive => (lt_irrefl 0 positive).elim⟩
  · have borrowed := (promote_bounds borrow).2
    rw [subIntBorrow, if_neg zero]
    refine resumed_of_pass (by omega) (toInt_subIntColumn n op1 op2) (by omega) (fun i => ?_)
      (fun one => ?_) (fun more => ?_) r start
    · have word := reading_bounds (decide (i + 1 = n)) (op1 i)
      have int := firstInt_bounds op2 i
      omega
    · have word := reading_top (op1 0)
      have int := firstInt_bounds op2 0
      rw [decide_eq_true (show 0 + 1 = n by omega)]
      omega
    · have word := reading_top (op1 (n - 1))
      rw [decide_eq_true (show n - 1 + 1 = n by omega), firstInt_of_pos op2 (by omega)]
      omega

/-- `iv_sub_int_borrow` of an integer and a vector resumes a difference and ends it with the sign.
-/
theorem intSubBorrow_spec (n : ℕ) (op1 : Word) (op2 : Words) (borrow : Bool) (r : Words)
    (start : ℕ) :
    Resumed n (-promote borrow).toInt
      (fun i => firstInt op1 i - reading (decide (i + 1 = n)) (op2 i)) r start
      (intSubBorrow n op1 op2 borrow r start) := by
  by_cases zero : n = 0
  · subst zero
    exact ⟨rfl, fun positive => (lt_irrefl 0 positive).elim⟩
  · have borrowed := (promote_bounds borrow).2
    rw [intSubBorrow, if_neg zero]
    refine resumed_of_pass (by omega) (toInt_intSubColumn n op1 op2) (by omega) (fun i => ?_)
      (fun one => ?_) (fun more => ?_) r start
    · have word := reading_bounds (decide (i + 1 = n)) (op2 i)
      have int := firstInt_bounds op1 i
      omega
    · have word := reading_top (op2 0)
      have int := firstInt_bounds op1 0
      rw [decide_eq_true (show 0 + 1 = n by omega)]
      omega
    · have word := reading_top (op2 (n - 1))
      rw [decide_eq_true (show n - 1 + 1 = n by omega), firstInt_of_pos op1 (by omega)]
      omega

/-! ## Sums and differences -/

/-- Places behind the vector add nothing to its number. -/
theorem value_digit_of_le {n total : ℕ} (positive : 0 < n) (shorter : n ≤ total) (v : Words) :
    Radix.value (2 ^ 32) (digit n v) total = (vec n v).toInt := by
  rw [Radix.value_of_zero shorter fun i beyond => digit_beyond v beyond, value_digit positive]

/-- A digit is the word with its sign in the top place, without it elsewhere. -/
theorem digit_of_reading {n i : ℕ} (v : Words) (inside : i < n) :
    digit n v i = reading (decide (i + 1 = n)) (v i) := by
  by_cases top : i + 1 = n
  · rw [digit_top v top, decide_eq_true top]
    rfl
  · rw [digit_of_lt v (by omega), decide_eq_false top]
    rfl

/-- The two readings of a word agree modulo its range. -/
theorem dvd_reading (top top' : Bool) (w : Word) :
    (2 ^ 32 : ℤ) ∣ reading top w - reading top' w := by
  have signed := dvd_toNat_sub_toInt w
  cases top with
  | true =>
      cases top' with
      | true => rw [sub_self]; exact dvd_zero _
      | false => exact (dvd_sub_comm).mp signed
  | false =>
      cases top' with
      | true => exact signed
      | false => rw [sub_self]; exact dvd_zero _

/-- The words of the longer operand as both parts of a sum read them. -/
def longDigit (t1 t2 : ℕ) (v : Words) (i : ℕ) : ℤ :=
  if i < t1 then ((v i).toNat : ℤ)
  else reading (decide (i - t1 + 1 = t2 - t1)) (shift v t1 (i - t1))

/-- The words of the shorter operand as both parts of a sum read them. -/
def shortDigit (t1 : ℕ) (v : Words) (i : ℕ) : ℤ :=
  if i < t1 then ((v i).toNat : ℤ) else firstInt (v t1) (i - t1)

section Truncated

variable {m1 m2 : ℕ} (nr : ℕ) (v : Words)

/-- What both parts of a sum read of the longer operand is its number, modulo the range of the
destination. -/
theorem longDigit_dvd (positive : 0 < m2) (ordered : m2 ≤ m1) :
    (2 ^ (32 * nr) : ℤ) ∣
      Radix.value (2 ^ 32) (longDigit (min (m2 - 1) nr) (min m1 nr) v) (min m1 nr) -
        (vec m1 v).toInt := by
  have low : ∀ i, i < min (m2 - 1) nr →
      longDigit (min (m2 - 1) nr) (min m1 nr) v i = digit m1 v i := fun i below => by
    rw [longDigit, if_pos below, digit_of_lt v (by omega)]
  have high : ∀ i, min (m2 - 1) nr ≤ i → i < min m1 nr →
      longDigit (min (m2 - 1) nr) (min m1 nr) v i =
        reading (decide (i + 1 = min m1 nr)) (v i) := fun i from_ below => by
    rw [longDigit, if_neg (by omega), shift_apply, Nat.add_sub_of_le from_]
    congr 1
    exact decide_eq_decide.mpr (by omega)
  rw [← value_digit (by omega) v, ← pow_word]
  refine Radix.value_truncated (fun i below => ?_) (fun i last => ?_) fun i last fits => ?_
  · by_cases early : i < min (m2 - 1) nr
    · exact low i early
    · rw [high i (by omega) (by omega), decide_eq_false (by omega), digit_of_lt v (by omega)]
      rfl
  · by_cases early : i < min (m2 - 1) nr
    · rw [low i early, sub_self]
      exact dvd_zero _
    · rw [high i (by omega) (by omega), digit_of_reading v (by omega)]
      exact dvd_reading _ _ _
  · rw [high i (by omega) (by omega), decide_eq_true (by omega), digit_top v last]
    rfl

/-- What both parts of a sum read of the shorter operand is its number, modulo the range of the
destination. -/
theorem shortDigit_dvd (positive : 0 < m2) (ordered : m2 ≤ m1) :
    (2 ^ (32 * nr) : ℤ) ∣
      Radix.value (2 ^ 32) (shortDigit (min (m2 - 1) nr) v) (min m1 nr) - (vec m2 v).toInt := by
  have same : ∀ i < min m1 nr, shortDigit (min (m2 - 1) nr) v i = digit m2 v i := fun i below => by
    unfold shortDigit firstInt
    by_cases early : i < min (m2 - 1) nr
    · rw [if_pos early, digit_of_lt v (by omega)]
    · have start : min (m2 - 1) nr = m2 - 1 := by omega
      rw [if_neg early, start]
      by_cases top : i = m2 - 1
      · rw [if_pos (by omega), digit_top v (by omega), top]
      · rw [if_neg (by omega), digit_beyond v (by omega)]
  rw [← value_digit_of_le positive ordered v, ← pow_word]
  refine Radix.value_truncated (fun i below => same i (by omega)) (fun i last => ?_)
    fun i last fits => same i (by omega)
  rw [same i (by omega), sub_self]
  exact dvd_zero _

end Truncated

/-! ## One and two words -/

/-- A vector of one word is the word. -/
theorem toInt_vec_one (v : Words) : (vec 1 v).toInt = (v 0).toInt := by
  rw [← value_digit Nat.one_pos, Radix.value_one, digit_top v rfl]

/-- The lowest word is the number modulo its range. -/
theorem dvd_lowest {n : ℕ} (positive : 0 < n) (v : Words) :
    (2 ^ 32 : ℤ) ∣ (vec n v).toInt - (v 0).toNat := by
  have cut := Radix.value_dvd_sub (2 ^ 32) (digit n v) (show 1 ≤ n from positive)
  rw [value_digit positive, Radix.value_one, digit_of_reading v positive, pow_one] at cut
  have low : (2 ^ 32 : ℤ) ∣ reading (decide (0 + 1 = n)) (v 0) - (v 0).toNat :=
    dvd_reading _ false (v 0)
  have whole := dvd_add cut low
  rwa [sub_add_sub_cancel] at whole

/-- One word is determined by its number modulo the range. -/
theorem vec_one_of_dvd {v : Words} {z : ℤ} (same : (2 ^ 32 : ℤ) ∣ (v 0).toNat - z) :
    vec 1 v = BitVec.ofInt (32 * 1) z := by
  apply vec_eq_ofInt
  rw [magnitude, Radix.value_one]
  exact same

/-- The sum of two words, modulo their range. -/
theorem dvd_add_word (x y : Word) : (2 ^ 32 : ℤ) ∣ (x + y).toNat - (x.toNat + y.toNat) := by
  rw [BitVec.toNat_add]
  exact Int.dvd_of_emod_eq_zero (by omega)

/-- The difference of two words, modulo their range. -/
theorem dvd_sub_word (x y : Word) : (2 ^ 32 : ℤ) ∣ (x - y).toNat - (x.toNat - y.toNat) := by
  have small := y.isLt
  rw [BitVec.toNat_sub]
  exact Int.dvd_of_emod_eq_zero (by omega)

/-- The product of two words, modulo their range. -/
theorem dvd_mul_word (x y : Word) : (2 ^ 32 : ℤ) ∣ (x * y).toNat - x.toNat * y.toNat := by
  rw [BitVec.toNat_mul]
  exact Int.dvd_of_emod_eq_zero (by push_cast; omega)

/-- The word of a small number has its sign. -/
theorem isNeg_ofInt {z : ℤ} (range : -2 ^ 31 ≤ z ∧ z < 2 ^ 31) :
    isNeg (BitVec.ofInt 32 (z % 2 ^ 32)) = decide (z < 0) := by
  have same : BitVec.ofInt 32 (z % 2 ^ 32) = BitVec.ofInt 32 z :=
    ofInt_eq_iff.mpr (Int.dvd_of_emod_eq_zero (by omega))
  rw [isNeg, same, BitVec.toInt_ofInt_eq_self (by decide) range.1 range.2]

/-- The upper word of a `Slong` is its quotient by the range of a word. -/
theorem toInt_setWidth_high (l : BitVec 64) :
    (l.sshiftRight 32).setWidth 32 = BitVec.ofInt 32 (l.toInt / 2 ^ 32 % 2 ^ 32) := by
  rw [setWidth_eq_ofInt, BitVec.toInt_sshiftRight, Int.shiftRight_eq_div_pow]
  rfl

/-- The upper word of a `Slong` has the sign of the quotient. -/
theorem isNeg_high (l : BitVec 64) :
    isNeg ((l.sshiftRight 32).setWidth 32) = decide (l.toInt / 2 ^ 32 < 0) := by
  have range := BitVec.toInt_lt (x := l)
  have least := BitVec.le_toInt l
  rw [toInt_setWidth_high, isNeg_ofInt (by omega)]

/-- `iv_assign_int64` leaves the `Slong`, cut or extended to the length. -/
theorem vec_assignInt64 {nr : ℕ} (positive : 0 < nr) (r : Words) (l : BitVec 64) :
    vec nr (assignInt64 nr r l) = BitVec.ofInt (32 * nr) l.toInt := by
  have range := BitVec.toInt_lt (x := l)
  have least := BitVec.le_toInt l
  have nothing (n : ℕ) : l.toInt + Radix.value (2 ^ 32) (fun _ => 0) n = l.toInt := by
    rw [Radix.value_of_zero (Nat.zero_le n) fun _ _ => rfl, Radix.value_zero, add_zero]
  have first : l.setWidth 32 = BitVec.ofInt 32 (Radix.digit (2 ^ 32) l.toInt (fun _ => 0) 0) := by
    rw [setWidth_eq_ofInt, Radix.digit, Radix.carry, add_zero]
  unfold assignInt64
  by_cases one : nr = 1
  · subst one
    rw [← nothing 1]
    refine vec_of_digits false le_rfl (fun i below => ?_) (fun i _ _ => by omega) (by omega)
    obtain rfl : i = 0 := by omega
    exact first
  · rw [if_pos (by omega), ← nothing 2]
    refine vec_of_digits (decide (l.toInt / 2 ^ 32 < 0)) (by omega) (fun i below => ?_)
      (fun i from_ below => ?_) fun more => ?_
    · rw [extend, fill_apply, if_neg (by omega)]
      obtain rfl | rfl : i = 0 ∨ i = 1 := by omega
      · rw [Function.update_of_ne (by decide), Function.update_self, first]
      · rw [Function.update_self, toInt_setWidth_high, Radix.digit, Radix.carry, Radix.carry,
          add_zero, add_zero]
    · rw [extend, fill_apply, if_pos (by omega), Function.update_self, isNeg_high]
    · rw [Radix.carry, Radix.carry, Radix.carry, add_zero, add_zero]
      by_cases negative : l.toInt / 2 ^ 32 < 0
      · rw [decide_eq_true negative, if_pos rfl]
        omega
      · rw [decide_eq_false negative, if_neg Bool.false_ne_true]
        omega

/-- A part of a sum, one that resumes it and the extension of the sign hold what their
columns are worth. -/
theorem vec_of_parts {t1 t2 nr : ℕ} {first second : Bool × Words} {low high : ℕ → ℤ} {middle z : ℤ}
    {r : Words} (ordered : t1 ≤ t2) (shorter : t2 ≤ nr)
    (written : first.2 = fill t1 (passWord 0 low) r 0)
    (carried : Radix.carry (2 ^ 32) 0 low t1 = middle)
    (resumed : Resumed (t2 - t1) middle high first.2 t1 second) (more : t2 < nr → t1 < t2)
    (total : (2 ^ (32 * nr) : ℤ) ∣
      Radix.value (2 ^ 32) (fun i => if i < t1 then low i else high (i - t1)) t2 - z) :
    vec nr (extend (nr - t2) second.2 t2 (ones second.1)) = BitVec.ofInt (32 * nr) z := by
  rw [resumed.words, written, vec_two_passes r ordered shorter carried fun beyond => ?_]
  · exact ofInt_eq_iff.mpr total
  · have later := more beyond
    rw [resumed.sign (by omega), toInt_neg_promote]

/-- `iv_add` with the longer operand first. -/
theorem add_of_le {m1 m2 nr : ℕ} (positive : 0 < m2) (ordered : m2 ≤ m1) (p1 p2 r : Words) :
    let t1 := min (m2 - 1) nr
    let t2 := min m1 nr
    let first := uaddN t1 p1 p2 r 0
    let second := addIntCarry (t2 - t1) (shift p1 t1) (p2 t1) first.1 first.2 t1
    vec nr (extend (nr - t2) second.2 t2 (ones second.1)) =
      BitVec.ofInt (32 * nr) ((vec m1 p1).toInt + (vec m2 p2).toInt) := by
  intro t1 t2 first second
  obtain ⟨written, carried⟩ := uaddN_spec t1 p1 p2 r 0
  refine vec_of_parts (by omega) (by omega) written carried
    (addIntCarry_spec (t2 - t1) (shift p1 t1) (p2 t1) first.1 first.2 t1) (by omega) ?_
  have columns : (fun i => if i < t1 then sumColumn p1 p2 i else
      reading (decide (i - t1 + 1 = t2 - t1)) (shift p1 t1 (i - t1)) + firstInt (p2 t1) (i - t1)) =
        fun i => longDigit t1 t2 p1 i + shortDigit t1 p2 i := by
    funext i
    unfold longDigit shortDigit
    split <;> rfl
  have long := longDigit_dvd nr p1 positive ordered
  have short := shortDigit_dvd nr p2 positive ordered
  rw [columns, Radix.value_sum, add_sub_add_comm]
  exact dvd_add long short

/-- **Sums.** Whatever the lengths, `iv_add` leaves the sum of its operands, cut to the
length of the destination. -/
theorem vec_add {n1 n2 nr : ℕ} (positive1 : 0 < n1) (positive2 : 0 < n2) (positive : 0 < nr)
    (op1 op2 r : Words) :
    vec nr (add n1 n2 nr op1 op2 r) =
      BitVec.ofInt (32 * nr) ((vec n1 op1).toInt + (vec n2 op2).toInt) := by
  rw [add]
  split
  · rename_i one
    subst one
    apply vec_one_of_dvd
    have left := dvd_lowest positive1 op1
    have right := dvd_lowest positive2 op2
    have sum := dvd_add_word (op1 0) (op2 0)
    rw [Function.update_self]
    omega
  · split
    · rename_i single
      obtain ⟨rfl, rfl, rfl⟩ := single
      have left := toInt_word (op1 0)
      have right := toInt_word (op2 0)
      rw [vec_assignInt64 (by decide), toInt_vec_one, toInt_vec_one, toInt_add_of_fits, toInt_sext,
        toInt_sext]
      rw [toInt_sext, toInt_sext]
      omega
    · by_cases ordered : n2 ≤ n1
      · simp only [if_pos ordered, max_eq_left ordered, min_eq_right ordered]
        exact add_of_le positive2 ordered op1 op2 r
      · have other : n1 ≤ n2 := by omega
        simp only [if_neg ordered, max_eq_right other, min_eq_left other]
        rw [add_comm]
        exact add_of_le positive1 other op2 op1 r

/-- `iv_sub` with a longer minuend. -/
theorem sub_of_lt {n1 n2 nr : ℕ} (positive : 0 < n2) (ordered : n2 < n1) (op1 op2 r : Words) :
    let t1 := min (n2 - 1) nr
    let t2 := min n1 nr
    let first := usubN t1 op1 op2 r 0
    let second := subIntBorrow (t2 - t1) (shift op1 t1) (op2 t1) first.1 first.2 t1
    vec nr (extend (nr - t2) second.2 t2 (ones second.1)) =
      BitVec.ofInt (32 * nr) ((vec n1 op1).toInt - (vec n2 op2).toInt) := by
  intro t1 t2 first second
  obtain ⟨written, borrowed⟩ := usubN_spec t1 op1 op2 r 0
  refine vec_of_parts (by omega) (by omega) written borrowed
    (subIntBorrow_spec (t2 - t1) (shift op1 t1) (op2 t1) first.1 first.2 t1) (by omega) ?_
  have columns : (fun i => if i < t1 then differenceColumn op1 op2 i else
      reading (decide (i - t1 + 1 = t2 - t1)) (shift op1 t1 (i - t1)) -
        firstInt (op2 t1) (i - t1)) =
        fun i => longDigit t1 t2 op1 i + -shortDigit t1 op2 i := by
    funext i
    unfold longDigit shortDigit
    split <;> rfl
  have long := longDigit_dvd nr op1 positive ordered.le
  have short := shortDigit_dvd nr op2 positive ordered.le
  rw [columns, Radix.value_sum, Radix.value_neg, ← sub_eq_add_neg, sub_sub_sub_comm]
  exact dvd_sub long short

/-- `iv_sub` with a subtrahend at least as long. -/
theorem sub_of_le {n1 n2 nr : ℕ} (positive : 0 < n1) (ordered : n1 ≤ n2) (op1 op2 r : Words) :
    let t1 := min (n1 - 1) nr
    let t2 := min n2 nr
    let first := usubN t1 op1 op2 r 0
    let second := intSubBorrow (t2 - t1) (op1 t1) (shift op2 t1) first.1 first.2 t1
    vec nr (extend (nr - t2) second.2 t2 (ones second.1)) =
      BitVec.ofInt (32 * nr) ((vec n1 op1).toInt - (vec n2 op2).toInt) := by
  intro t1 t2 first second
  obtain ⟨written, borrowed⟩ := usubN_spec t1 op1 op2 r 0
  refine vec_of_parts (by omega) (by omega) written borrowed
    (intSubBorrow_spec (t2 - t1) (op1 t1) (shift op2 t1) first.1 first.2 t1) (by omega) ?_
  have columns : (fun i => if i < t1 then differenceColumn op1 op2 i else
      firstInt (op1 t1) (i - t1) -
        reading (decide (i - t1 + 1 = t2 - t1)) (shift op2 t1 (i - t1))) =
        fun i => shortDigit t1 op1 i + -longDigit t1 t2 op2 i := by
    funext i
    unfold longDigit shortDigit
    split <;> rfl
  have long := longDigit_dvd nr op2 positive ordered
  have short := shortDigit_dvd nr op1 positive ordered
  rw [columns, Radix.value_sum, Radix.value_neg, ← sub_eq_add_neg, sub_sub_sub_comm]
  exact dvd_sub short long

/-- **Differences.** Whatever the lengths, `iv_sub` leaves the difference of its operands,
cut to the length of the destination. -/
theorem vec_sub {n1 n2 nr : ℕ} (positive1 : 0 < n1) (positive2 : 0 < n2) (positive : 0 < nr)
    (op1 op2 r : Words) :
    vec nr (sub n1 n2 nr op1 op2 r) =
      BitVec.ofInt (32 * nr) ((vec n1 op1).toInt - (vec n2 op2).toInt) := by
  rw [sub]
  split
  · rename_i one
    subst one
    apply vec_one_of_dvd
    have left := dvd_lowest positive1 op1
    have right := dvd_lowest positive2 op2
    have difference := dvd_sub_word (op1 0) (op2 0)
    rw [Function.update_self]
    omega
  · split
    · rename_i single
      obtain ⟨rfl, rfl, rfl⟩ := single
      have left := toInt_word (op1 0)
      have right := toInt_word (op2 0)
      rw [vec_assignInt64 (by decide), toInt_vec_one, toInt_vec_one, toInt_sub_of_fits, toInt_sext,
        toInt_sext]
      rw [toInt_sext, toInt_sext]
      omega
    · by_cases ordered : n2 < n1
      · simp only [if_pos ordered, max_eq_left ordered.le, min_eq_right ordered.le]
        exact sub_of_lt positive2 ordered op1 op2 r
      · have other : n1 ≤ n2 := by omega
        simp only [if_neg ordered, max_eq_right other, min_eq_left other]
        exact sub_of_le positive1 other op1 op2 r

/-! ## One operand -/

/-- The sign is worth the range. -/
theorem toInt_vec {n : ℕ} (positive : 0 < n) (v : Words) :
    (vec n v).toInt = magnitude n v - if isNeg (v (n - 1)) then 2 ^ (32 * n) else 0 := by
  obtain ⟨m, rfl⟩ : ∃ m, n = m + 1 := ⟨n - 1, by omega⟩
  have low : Radix.value (2 ^ 32) (digit (m + 1) v) m = magnitude m v :=
    Radix.value_congr fun i below => digit_of_lt v (by omega)
  have top : (v m).toInt = (v m).toNat - if isNeg (v m) then 2 ^ 32 else 0 := by
    have small := (v m).isLt
    unfold isNeg
    rw [BitVec.toInt_eq_toNat_cond]
    by_cases nonnegative : 2 * (v m).toNat < 2 ^ 32
    · rw [if_pos nonnegative, decide_eq_false (by omega), if_neg Bool.false_ne_true, sub_zero]
    · rw [if_neg nonnegative, decide_eq_true (by omega), if_pos rfl]
      rfl
  have unsigned : magnitude (m + 1) v = magnitude m v + (v m).toNat * (2 ^ 32) ^ m :=
    Radix.value_succ _ _ _
  rw [← value_digit positive, Radix.value_succ, low, digit_top v rfl, top, unsigned,
    Nat.add_sub_cancel, ← pow_word, pow_succ]
  split <;> ring

/-- The `Slong` holds the negation of an unsigned word. -/
theorem toInt_neg_zext (w : Word) : (-zext w).toInt = -w.toNat := by
  have word := toNat_word w
  have negated : (-zext w) = 0 - zext w := (BitVec.zero_sub _).symm
  rw [negated, toInt_sub_of_fits, toInt_zext, toInt_zero, zero_sub]
  rw [toInt_zext, toInt_zero]
  omega

/-- A vector read without its sign is its number modulo the range. -/
theorem dvd_magnitude_sub_toInt (n : ℕ) (v : Words) :
    (2 ^ (32 * n) : ℤ) ∣ magnitude n v - (vec n v).toInt :=
  ofInt_eq_iff.mp BitVec.ofInt_toInt.symm

/-- The low words hold the number modulo their range. -/
theorem dvd_magnitude_low {n nr : ℕ} (shorter : nr ≤ n) (v : Words) :
    (2 ^ (32 * nr) : ℤ) ∣ magnitude nr v - (vec n v).toInt := by
  have cut := Radix.value_dvd_sub (2 ^ 32) (fun i => ((v i).toNat : ℤ)) shorter
  have wider : (2 ^ (32 * nr) : ℤ) ∣ 2 ^ (32 * n) := pow_dvd_pow 2 (by omega)
  have whole := wider.trans (dvd_magnitude_sub_toInt n v)
  rw [pow_word] at cut
  have low := dvd_sub whole cut
  rwa [magnitude, sub_sub_sub_cancel_left] at low

/-- The pass of `iv_neg` over the words of its operand. -/
theorem negColumns (n : ℕ) (op1 r : Words) :
    (pass true (fun i => -zext (op1 i)) n 0 r 0).1.toInt =
        Radix.carry (2 ^ 32) 0 (fun i => -((op1 i).toNat : ℤ)) n ∧
      (pass true (fun i => -zext (op1 i)) n 0 r 0).2 =
        fill n (passWord 0 fun i => -((op1 i).toNat : ℤ)) r 0 :=
  pass_of_bounded r 0 (fun i _ => toInt_neg_zext (op1 i)) (by rw [toInt_zero]; omega)
    (fun i _ => by have word := toNat_word (op1 i); omega) (.inl rfl)

/-- `iv_neg` into a destination that is no longer. -/
theorem neg_of_le {n nr : ℕ} (shorter : nr ≤ n) (op1 r : Words) :
    neg n nr op1 r = fill nr (passWord 0 fun i => -((op1 i).toNat : ℤ)) r 0 := by
  have cut : min n nr = nr := min_eq_right shorter
  change (if n < nr then _ else (pass true (fun i => -zext (op1 i)) (min n nr) 0 r 0).2) = _
  rw [if_neg (by omega), cut, (negColumns nr op1 r).2]

/-- The column above the operand of a negation: its sign, taken back. -/
def signColumn (n : ℕ) (op1 : Words) : ℤ := if isNeg (op1 (n - 1)) then 1 else 0

/-- The sign taken back is 0 or 1. -/
theorem signColumn_bounds (n : ℕ) (op1 : Words) : 0 ≤ signColumn n op1 ∧ signColumn n op1 ≤ 1 := by
  unfold signColumn
  split <;> decide

/-- A negation borrows at most one. -/
theorem negCarry_bounds (n : ℕ) (op1 : Words) :
    -1 ≤ Radix.carry (2 ^ 32) 0 (fun i => -((op1 i).toNat : ℤ)) n ∧
      Radix.carry (2 ^ 32) 0 (fun i => -((op1 i).toNat : ℤ)) n ≤ 0 :=
  Radix.carry_bounds (by decide) (by omega) fun i _ => by
    have word := toNat_word (op1 i)
    omega

/-- `iv_neg` into a longer destination: one word above the pass, and its sign extended. -/
theorem neg_of_lt {n nr : ℕ} (longer : n < nr) (op1 r : Words) :
    ∃ top : Word,
      top = BitVec.ofInt 32 ((Radix.carry (2 ^ 32) 0 (fun i => -((op1 i).toNat : ℤ)) n +
        signColumn n op1) % 2 ^ 32) ∧
      neg n nr op1 r = extend (nr - n - 1)
        (Function.update (fill n (passWord 0 fun i => -((op1 i).toNat : ℤ)) r 0) n top) (n + 1)
        (ones (isNeg top)) := by
  have whole : min n nr = n := min_eq_left longer.le
  obtain ⟨carried, written⟩ := negColumns n op1 r
  refine ⟨((pass true (fun i => -zext (op1 i)) n 0 r 0).1 -
    sext (ones (isNeg (op1 (n - 1))))).setWidth 32, ?_, ?_⟩
  · have ext : (sext (ones (isNeg (op1 (n - 1))))).toInt = -signColumn n op1 := by
      rw [toInt_sext, signColumn]
      cases isNeg (op1 (n - 1)) with
      | true => rfl
      | false => rfl
    have borrowed := negCarry_bounds n op1
    have sign := signColumn_bounds n op1
    rw [setWidth_eq_ofInt, toInt_sub_of_fits, carried, ext, sub_neg_eq_add]
    rw [carried, ext]
    omega
  · change (if n < nr then extend (nr - n - 1) (Function.update
        (pass true (fun i => -zext (op1 i)) (min n nr) 0 r 0).2 n _) (n + 1) (ones (isNeg
        (Function.update (pass true (fun i => -zext (op1 i)) (min n nr) 0 r 0).2 n _ n)))
      else _) = _
    rw [if_pos longer, whole, written, Function.update_self]
    rfl

/-- `iv_neg` leaves the negation of its operand. -/
theorem vec_neg {n nr : ℕ} (positive : 0 < n) (op1 r : Words) :
    vec nr (neg n nr op1 r) = BitVec.ofInt (32 * nr) (-(vec n op1).toInt) := by
  by_cases longer : n < nr
  · obtain ⟨top, stored, negated⟩ := neg_of_lt longer op1 r
    have borrowed := negCarry_bounds n op1
    have sign := signColumn_bounds n op1
    have low : ∀ i < n, (if i < n then -((op1 i).toNat : ℤ) else signColumn n op1) =
        -((op1 i).toNat : ℤ) := fun i below => if_pos below
    have total : 0 + Radix.value (2 ^ 32)
        (fun i => if i < n then -((op1 i).toNat : ℤ) else signColumn n op1) (n + 1) =
          -(vec n op1).toInt := by
      have magnitudes : Radix.value (2 ^ 32) (fun i => -((op1 i).toNat : ℤ)) n = -magnitude n op1 :=
        Radix.value_neg _ _ _
      rw [Radix.value_succ, if_neg (lt_irrefl n), Radix.value_congr low, magnitudes,
        toInt_vec positive, pow_word, signColumn]
      split <;> ring
    have carried : Radix.carry (2 ^ 32) 0
        (fun i => if i < n then -((op1 i).toNat : ℤ) else signColumn n op1) n =
          Radix.carry (2 ^ 32) 0 (fun i => -((op1 i).toNat : ℤ)) n := Radix.carry_congr low
    rw [negated, ← total]
    refine vec_of_digits (isNeg top) (by omega) (fun i below => ?_) (fun i from_ below => ?_)
      fun more => ?_
    · rw [extend, fill_apply, if_neg (by omega)]
      by_cases last : i = n
      · subst last
        rw [Function.update_self, stored, Radix.digit, carried, if_neg (lt_irrefl i)]
      · rw [Function.update_of_ne last, fill_apply, if_pos (by omega), Nat.sub_zero, passWord,
          Radix.digit_congr fun j earlier => (low j (by omega)).symm]
    · rw [extend, fill_apply, if_pos (by omega)]
    · rw [Radix.carry, carried, if_neg (lt_irrefl n), stored, isNeg_ofInt (by omega)]
      by_cases negative : Radix.carry (2 ^ 32) 0 (fun i => -((op1 i).toNat : ℤ)) n +
          signColumn n op1 < 0
      · rw [decide_eq_true negative, if_pos rfl]
        omega
      · rw [decide_eq_false negative, if_neg Bool.false_ne_true]
        omega
  · have magnitudes : Radix.value (2 ^ 32) (fun i => -((op1 i).toNat : ℤ)) nr = -magnitude nr op1 :=
      Radix.value_neg _ _ _
    have held : vec nr (fill nr (passWord 0 fun i => -((op1 i).toNat : ℤ)) r 0) =
        BitVec.ofInt (32 * nr) (0 + Radix.value (2 ^ 32) (fun i => -((op1 i).toNat : ℤ)) nr) :=
      vec_of_digits false le_rfl (fun i below => by
        rw [fill_apply, if_pos (by omega), Nat.sub_zero, passWord]) (fun i _ _ => by omega)
        (by omega)
    have low := dvd_magnitude_low (show nr ≤ n by omega) op1
    rw [neg_of_le (by omega), held, magnitudes, zero_add]
    refine ofInt_eq_iff.mpr ?_
    rw [neg_sub_neg]
    exact (dvd_sub_comm).mp low

/-- The bit vector of the number one. -/
theorem ofInt_one (w : ℕ) : BitVec.ofInt w 1 = 1 := rfl

/-- `increment()` adds one to the bit vector. -/
theorem vec_increment (n : ℕ) (v : Words) : vec n (increment n v) = vec n v + 1 := by
  have word (i : ℕ) := toNat_word (v i)
  have start : (promote true).toInt = 1 := rfl
  have passed : (pass true (fun i => zext (v i)) n (promote true) v 0).1.toInt =
        Radix.carry (2 ^ 32) 1 (fun i => ((v i).toNat : ℤ)) n ∧
      (pass true (fun i => zext (v i)) n (promote true) v 0).2 =
        fill n (passWord 1 fun i => ((v i).toNat : ℤ)) v 0 :=
    pass_of_bounded v 0 (fun i _ => toInt_zext (v i)) (by rw [start]; omega)
      (fun i _ => by have below := word i; omega) (.inl rfl)
  have held : vec n (fill n (passWord 1 fun i => ((v i).toNat : ℤ)) v 0) =
      BitVec.ofInt (32 * n) (1 + magnitude n v) :=
    vec_of_digits false le_rfl (fun i below => by
      rw [fill_apply, if_pos (by omega), Nat.sub_zero, passWord]) (fun i _ _ => by omega) (by omega)
  change vec n (pass true (fun i => zext (v i)) n (promote true) v 0).2 = _
  rw [passed.2, held, BitVec.ofInt_add, ofInt_one, BitVec.add_comm]
  rfl

/-- `decrement()` subtracts one from the bit vector. -/
theorem vec_decrement {n : ℕ} (positive : 0 < n) (v : Words) :
    vec n (decrement n v) = vec n v - 1 := by
  have resumed := subIntBorrow_spec n v 0 true v 0
  have nothing (i : ℕ) : firstInt 0 i = 0 := by
    unfold firstInt
    split <;> rfl
  have columns : Radix.value (2 ^ 32)
      (fun i => reading (decide (i + 1 = n)) (v i) - firstInt 0 i) n = (vec n v).toInt := by
    rw [← value_digit positive]
    refine Radix.value_congr fun i below => ?_
    rw [digit_of_reading v below, nothing, sub_zero]
  have held : vec n (fill n (passWord (-1)
        fun i => reading (decide (i + 1 = n)) (v i) - firstInt 0 i) v 0) =
      BitVec.ofInt (32 * n) (-1 + (vec n v).toInt) := by
    rw [← columns]
    exact vec_of_digits false le_rfl (fun i below => by
      rw [fill_apply, if_pos (by omega), Nat.sub_zero, passWord]) (fun i _ _ => by omega) (by omega)
  have words : (subIntBorrow n v 0 true v 0).2 = _ := resumed.words
  rw [decrement, words]
  change vec n (fill n (passWord (-1) _) v 0) = _
  rw [held, BitVec.ofInt_add, BitVec.ofInt_neg, ofInt_one, BitVec.ofInt_toInt, BitVec.add_comm,
    ← BitVec.sub_eq_add_neg]

end Iv

end DownSample
