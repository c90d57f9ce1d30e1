import DownSample.IntegerVector.Adjusted
import DownSample.IntegerVector.Order
import DownSample.IntegerVector.Product

/-! # Operators of arbitrary-length integers

The operators that widen their result do not adjust it: the width that the header gives to
the result type is enough, so the result is adjusted already and an expression loses nothing
however deep it is (`DownSample.Iv.Expr.toInt_eval`). Assignments, increments and shifts keep
the type of their left operand: they compute only its words, and adjust them
(`DownSample.Iv.AcInt.assignments`).
-/

namespace DownSample

namespace Iv

/-! ## Widening operators -/

/-- `rt<W2, S2>::logic_w`. -/
def logicWidth (width : ℕ) (sign : Bool) (width2 : ℕ) (sign2 : Bool) : ℕ :=
  max (width + (sign2 && !sign).toNat) (width2 + (sign && !sign2).toNat)

/-- `rt<W2, S2>::plus_w`, and `minus_w`. -/
def plusWidth (width : ℕ) (sign : Bool) (width2 : ℕ) (sign2 : Bool) : ℕ :=
  logicWidth width sign width2 sign2 + 1

section Results

variable {width width2 : ℕ} {sign sign2 : Bool} {x y : ℤ}

/-- The type of a bitwise operation has the values of both operands. -/
theorem Fits.logic_left (fits : Fits width sign x) (positive : 0 < width) :
    Fits (logicWidth width sign width2 sign2) (sign || sign2) x := by
  refine fits.widen positive (fun signed => by rw [signed, Bool.true_or]) ?_
  refine le_trans (le_of_eq ?_) (le_max_left _ _)
  cases sign <;> cases sign2 <;> rfl

theorem Fits.logic_right (fits : Fits width2 sign2 y) (positive : 0 < width2) :
    Fits (logicWidth width sign width2 sign2) (sign || sign2) y := by
  refine fits.widen positive (fun signed => by rw [signed, Bool.or_true]) ?_
  refine le_trans (le_of_eq ?_) (le_max_right _ _)
  cases sign <;> cases sign2 <;> rfl

theorem logicWidth_pos (positive : 0 < width) : 0 < logicWidth width sign width2 sign2 :=
  lt_of_lt_of_le (Nat.add_pos_left positive _) (le_max_left _ _)

/-- The width of `operator +` holds every sum. -/
theorem Fits.plus (left : Fits width sign x) (right : Fits width sign y) (positive : 0 < width) :
    Fits (width + 1) sign (x + y) := by
  have double : (2 : ℤ) ^ width = 2 * 2 ^ (width - 1) := by
    rw [← pow_succ', Nat.sub_add_cancel positive]
  cases sign with
  | true =>
      rw [fits_signed] at left right ⊢
      rw [Nat.add_sub_cancel, double]
      constructor <;> linarith [left.1, left.2, right.1, right.2]
  | false =>
      rw [fits_unsigned] at left right ⊢
      rw [pow_succ]
      constructor <;> linarith [left.1, left.2, right.1, right.2]

/-- The width of `operator -` holds every difference. -/
theorem Fits.minus (left : Fits width sign x) (right : Fits width sign y) (positive : 0 < width) :
    Fits (width + 1) true (x - y) := by
  have double : (2 : ℤ) ^ width = 2 * 2 ^ (width - 1) := by
    rw [← pow_succ', Nat.sub_add_cancel positive]
  rw [fits_signed, Nat.add_sub_cancel]
  cases sign with
  | true =>
      rw [fits_signed] at left right
      rw [double]
      constructor <;> linarith [left.1, left.2, right.1, right.2]
  | false =>
      rw [fits_unsigned] at left right
      constructor <;> linarith [left.1, left.2, right.1, right.2]

private theorem mult_mixed {a b : ℤ} (least : -a ≤ x) (most : x < a) (nonnegative : 0 ≤ y)
    (below : y < b) : -(a * b) ≤ x * y ∧ x * y < a * b := by
  have positive : 0 < a := by linarith
  have lower : 0 ≤ (x + a) * y := mul_nonneg (by linarith) nonnegative
  have upper : 0 ≤ (a - 1 - x) * y := mul_nonneg (by linarith) nonnegative
  have high : 0 < a * (b - y) := mul_pos positive (by linarith)
  constructor <;> nlinarith

/-- The width of `operator *` holds every product. -/
theorem Fits.mult (left : Fits width sign x) (right : Fits width2 sign2 y) (positive : 0 < width)
    (positive2 : 0 < width2) : Fits (width + width2) (sign || sign2) (x * y) := by
  cases sign with
  | true =>
      rw [fits_signed] at left
      rw [Bool.true_or, fits_signed]
      cases sign2 with
      | true =>
          rw [fits_signed] at right
          have range : (2 : ℤ) ^ (width + width2 - 1) =
              2 * (2 ^ (width - 1) * 2 ^ (width2 - 1)) := by
            rw [← pow_add, ← pow_succ']
            congr 1
            omega
          have product : |x * y| ≤ 2 ^ (width - 1) * 2 ^ (width2 - 1) := by
            rw [abs_mul]
            exact mul_le_mul (abs_le.mpr ⟨left.1, left.2.le⟩) (abs_le.mpr ⟨right.1, right.2.le⟩)
              (abs_nonneg y) (by positivity)
          have room : (0 : ℤ) < 2 ^ (width - 1) * 2 ^ (width2 - 1) := by positivity
          rw [range]
          constructor <;> linarith [(abs_le.mp product).1, (abs_le.mp product).2]
      | false =>
          rw [fits_unsigned] at right
          have range : (2 : ℤ) ^ (width + width2 - 1) = 2 ^ (width - 1) * 2 ^ width2 := by
            rw [← pow_add]
            congr 1
            omega
          rw [range]
          exact mult_mixed left.1 left.2 right.1 right.2
  | false =>
      rw [fits_unsigned] at left
      cases sign2 with
      | true =>
          rw [fits_signed] at right
          have range : (2 : ℤ) ^ (width + width2 - 1) = 2 ^ (width2 - 1) * 2 ^ width := by
            rw [← pow_add]
            congr 1
            omega
          rw [Bool.false_or, fits_signed, range, mul_comm x]
          exact mult_mixed right.1 right.2 left.1 left.2
      | false =>
          rw [fits_unsigned] at right
          rw [Bool.false_or, fits_unsigned, pow_add]
          exact ⟨mul_nonneg left.1 right.1,
            mul_lt_mul'' left.2 right.2 left.1 right.1⟩

/-- The width of unary `operator -` holds every negation. -/
theorem Fits.neg (fits : Fits width sign x) (positive : 0 < width) :
    Fits (width + 1) true (-x) := by
  have zero : Fits width sign 0 := by
    cases sign with
    | true => exact fits_signed.mpr ⟨by simp, by positivity⟩
    | false => exact fits_unsigned.mpr ⟨le_rfl, by positivity⟩
  have difference := zero.minus fits positive
  rwa [zero_sub] at difference

/-- The type of `operator ~` has the complement, which is one below the negation. -/
theorem Fits.lnot (fits : Fits width sign x) (positive : 0 < width) :
    Fits (width + (!sign).toNat) true (Int.lnot x) := by
  have wide : Fits (width + (!sign).toNat) true x :=
    fits.widen positive (fun _ => rfl) (by rw [Bool.true_and])
  have room : 0 < width + (!sign).toNat := Nat.add_pos_left positive _
  rw [fits_iff_testBit room] at wide ⊢
  intro i above
  rw [Int.testBit_lnot, Int.testBit_lnot, wide i above, Bool.true_and, Bool.true_and]

/-- Bitwise operations stay in a type. -/
theorem Fits.bitwise {z : ℤ} {bool : Bool → Bool → Bool} (left : Fits width sign x)
    (right : Fits width sign y) (positive : 0 < width) (off : bool false false = false)
    (bits : ∀ i, z.testBit i = bool (x.testBit i) (y.testBit i)) : Fits width sign z := by
  rw [fits_iff_testBit positive] at left right ⊢
  intro i above
  rw [bits, bits, left i above, right i above]
  cases sign with
  | true => rw [Bool.true_and, Bool.true_and, Bool.true_and]
  | false => rw [Bool.false_and, Bool.false_and, Bool.false_and, off]

end Results

namespace AcInt

section Widening

variable {width width2 : ℕ} {sign sign2 : Bool} (r : Words)

/-- `operator +`. The local `r` is not initialized. -/
def plus (x : AcInt width sign) (y : AcInt width2 sign2) :
    Exact (plusWidth width sign width2 sign2) (sign || sign2) (x.toInt + y.toInt) :=
  let n := wordCount width sign
  let n2 := wordCount width2 sign2
  let nr := wordCount (plusWidth width sign width2 sign2) (sign || sign2)
  ofExact (Nat.succ_pos _) (Iv.add n n2 nr x.v y.v r)
    ((x.adjusted.logic_left x.positive).plus (y.adjusted.logic_right y.positive)
      (logicWidth_pos x.positive))
    (vec_add x.wordCount_pos y.wordCount_pos (Iv.wordCount_pos _ (Nat.succ_pos _)) x.v y.v r)

/-- `operator -`. -/
def minus (x : AcInt width sign) (y : AcInt width2 sign2) :
    Exact (plusWidth width sign width2 sign2) true (x.toInt - y.toInt) :=
  let n := wordCount width sign
  let n2 := wordCount width2 sign2
  let nr := wordCount (plusWidth width sign width2 sign2) true
  ofExact (Nat.succ_pos _) (Iv.sub n n2 nr x.v y.v r)
    ((x.adjusted.logic_left x.positive).minus (y.adjusted.logic_right y.positive)
      (logicWidth_pos x.positive))
    (vec_sub x.wordCount_pos y.wordCount_pos (Iv.wordCount_pos _ (Nat.succ_pos _)) x.v y.v r)

/-- A width is an `int`, so the columns of a product are short. -/
theorem wordCount_le (small : width < 2 ^ 31) : wordCount width sign ≤ 2 ^ 28 := by
  have single := Bool.toNat_le (!sign)
  unfold wordCount
  omega

/-- `operator *`. -/
def mult (x : AcInt width sign) (y : AcInt width2 sign2) (small : width < 2 ^ 31) :
    Exact (width + width2) (sign || sign2) (x.toInt * y.toInt) :=
  let n := wordCount width sign
  let n2 := wordCount width2 sign2
  let nr := wordCount (width + width2) (sign || sign2)
  ofExact (Nat.add_pos_left x.positive _) (Iv.mult n n2 nr x.v y.v r)
    (x.adjusted.mult y.adjusted x.positive y.positive)
    (vec_mult x.wordCount_pos y.wordCount_pos
      (Iv.wordCount_pos _ (Nat.add_pos_left x.positive _))
      ((min_le_left _ _).trans (wordCount_le small)) x.v y.v r)

/-- The unary `operator -`, which adjusts its result. -/
def neg (x : AcInt width sign) : Exact (width + 1) true (-x.toInt) :=
  ⟨adjust (width + 1) true (Nat.succ_pos _)
      (Iv.neg (wordCount width sign) (wordCount (width + 1) true) x.v r),
    (toInt_adjust (Nat.succ_pos _) (vec_neg x.wordCount_pos x.v r)).trans
      (wrap_of_fits (Nat.succ_pos _) (x.adjusted.neg x.positive))⟩

/-- `operator ~`. -/
def complement (x : AcInt width sign) : Exact (width + (!sign).toNat) true (Int.lnot x.toInt) :=
  let n := wordCount width sign
  let nr := wordCount (width + (!sign).toNat) true
  ofExact (Nat.add_pos_left x.positive _) (bitwiseComplement n nr x.v r)
    (x.adjusted.lnot x.positive) (vec_bitwiseComplement nr x.wordCount_pos x.v r)

/-- A bitwise operator, for a function on vectors that computes an operation on integers. -/
def logic (function : ℕ → ℕ → ℕ → Words → Words → Words → Words) {op : ℤ → ℤ → ℤ}
    {bool : Bool → Bool → Bool} (off : bool false false = false)
    (bits : ∀ x y i, (op x y).testBit i = bool (x.testBit i) (y.testBit i))
    (computes : ∀ {n1 n2 : ℕ} (nr : ℕ), 0 < n1 → 0 < n2 → ∀ op1 op2 r,
      vec nr (function n1 n2 nr op1 op2 r) =
        BitVec.ofInt (32 * nr) (op (vec n1 op1).toInt (vec n2 op2).toInt))
    (x : AcInt width sign) (y : AcInt width2 sign2) :
    Exact (logicWidth width sign width2 sign2) (sign || sign2) (op x.toInt y.toInt) :=
  let n := wordCount width sign
  let n2 := wordCount width2 sign2
  let nr := wordCount (logicWidth width sign width2 sign2) (sign || sign2)
  ofExact (logicWidth_pos x.positive) (function n n2 nr x.v y.v r)
    ((x.adjusted.logic_left x.positive).bitwise (y.adjusted.logic_right y.positive)
      (logicWidth_pos x.positive) off (bits _ _))
    (computes nr x.wordCount_pos y.wordCount_pos x.v y.v r)

/-- `operator &`. -/
def bitwiseAnd (x : AcInt width sign) (y : AcInt width2 sign2) :
    Exact (logicWidth width sign width2 sign2) (sign || sign2) (Int.land x.toInt y.toInt) :=
  logic r Iv.bitwiseAnd rfl Int.testBit_land vec_bitwiseAnd x y

/-- `operator |`. -/
def bitwiseOr (x : AcInt width sign) (y : AcInt width2 sign2) :
    Exact (logicWidth width sign width2 sign2) (sign || sign2) (Int.lor x.toInt y.toInt) :=
  logic r Iv.bitwiseOr rfl Int.testBit_lor vec_bitwiseOr x y

/-- `operator ^`. -/
def bitwiseXor (x : AcInt width sign) (y : AcInt width2 sign2) :
    Exact (logicWidth width sign width2 sign2) (sign || sign2) (Int.xor x.toInt y.toInt) :=
  logic r Iv.bitwiseXor rfl Int.testBit_lxor vec_bitwiseXor x y

end Widening

end AcInt

/-- Expressions of the operators that do not cut their results, in any nesting. -/
inductive Expr : ℕ → Bool → Type where
  | value {width : ℕ} {sign : Bool} (x : AcInt width sign) : Expr width sign
  | plus {width width2 : ℕ} {sign sign2 : Bool} (a : Expr width sign) (b : Expr width2 sign2) :
      Expr (plusWidth width sign width2 sign2) (sign || sign2)
  | minus {width width2 : ℕ} {sign sign2 : Bool} (a : Expr width sign) (b : Expr width2 sign2) :
      Expr (plusWidth width sign width2 sign2) true
  | mult {width width2 : ℕ} {sign sign2 : Bool} (a : Expr width sign) (b : Expr width2 sign2)
      (small : width < 2 ^ 31) : Expr (width + width2) (sign || sign2)
  | neg {width : ℕ} {sign : Bool} (a : Expr width sign) : Expr (width + 1) true
  | complement {width : ℕ} {sign : Bool} (a : Expr width sign) :
      Expr (width + (!sign).toNat) true
  | bitwiseAnd {width width2 : ℕ} {sign sign2 : Bool} (a : Expr width sign)
      (b : Expr width2 sign2) : Expr (logicWidth width sign width2 sign2) (sign || sign2)
  | bitwiseOr {width width2 : ℕ} {sign sign2 : Bool} (a : Expr width sign)
      (b : Expr width2 sign2) : Expr (logicWidth width sign width2 sign2) (sign || sign2)
  | bitwiseXor {width width2 : ℕ} {sign sign2 : Bool} (a : Expr width sign)
      (b : Expr width2 sign2) : Expr (logicWidth width sign width2 sign2) (sign || sign2)

namespace Expr

/-- What the locals of the left operand's operators hold. -/
def leftLocals (locals : List Bool → Words) : List Bool → Words :=
  fun path => locals (false :: path)

/-- What the locals of the right operand's operators hold. -/
def rightLocals (locals : List Bool → Words) : List Bool → Words :=
  fun path => locals (true :: path)

/-- What the header computes. The result of each operator is a local of its own that is not
initialized: it holds anything before, given by the path to the operator. -/
def eval {width : ℕ} {sign : Bool} : Expr width sign → (List Bool → Words) → AcInt width sign
  | value x, _ => x
  | plus a b, locals =>
      ((a.eval (leftLocals locals)).plus (locals []) (b.eval (rightLocals locals))).result
  | minus a b, locals =>
      ((a.eval (leftLocals locals)).minus (locals []) (b.eval (rightLocals locals))).result
  | mult a b small, locals =>
      ((a.eval (leftLocals locals)).mult (locals []) (b.eval (rightLocals locals)) small).result
  | neg a, locals => ((a.eval (leftLocals locals)).neg (locals [])).result
  | complement a, locals => ((a.eval (leftLocals locals)).complement (locals [])).result
  | bitwiseAnd a b, locals =>
      ((a.eval (leftLocals locals)).bitwiseAnd (locals []) (b.eval (rightLocals locals))).result
  | bitwiseOr a b, locals =>
      ((a.eval (leftLocals locals)).bitwiseOr (locals []) (b.eval (rightLocals locals))).result
  | bitwiseXor a b, locals =>
      ((a.eval (leftLocals locals)).bitwiseXor (locals []) (b.eval (rightLocals locals))).result

/-- The integer that an expression stands for. -/
def toInt {width : ℕ} {sign : Bool} : Expr width sign → ℤ
  | value x => x.toInt
  | plus a b => a.toInt + b.toInt
  | minus a b => a.toInt - b.toInt
  | mult a b _ => a.toInt * b.toInt
  | neg a => -a.toInt
  | complement a => Int.lnot a.toInt
  | bitwiseAnd a b => Int.land a.toInt b.toInt
  | bitwiseOr a b => Int.lor a.toInt b.toInt
  | bitwiseXor a b => Int.xor a.toInt b.toInt

/-- **An expression computes its integer**, however deep it is: no operator in it loses a
bit, whatever the locals hold. -/
theorem toInt_eval {width : ℕ} {sign : Bool} (e : Expr width sign) (locals : List Bool → Words) :
    (e.eval locals).toInt = e.toInt := by
  induction e generalizing locals with
  | value x => rfl
  | plus a b left right => rw [eval, AcInt.Exact.toInt_eq, left, right, toInt]
  | minus a b left right => rw [eval, AcInt.Exact.toInt_eq, left, right, toInt]
  | mult a b small left right => rw [eval, AcInt.Exact.toInt_eq, left, right, toInt]
  | neg a inner => rw [eval, AcInt.Exact.toInt_eq, inner, toInt]
  | complement a inner => rw [eval, AcInt.Exact.toInt_eq, inner, toInt]
  | bitwiseAnd a b left right => rw [eval, AcInt.Exact.toInt_eq, left, right, toInt]
  | bitwiseOr a b left right => rw [eval, AcInt.Exact.toInt_eq, left, right, toInt]
  | bitwiseXor a b left right => rw [eval, AcInt.Exact.toInt_eq, left, right, toInt]

end Expr

/-! ## Operators that keep a type -/

theorem vec_convert {n n2 : ℕ} (positive : 0 < n2) (b v : Words) :
    vec n (Iv.convert n n2 b v) = BitVec.ofInt (32 * n) (vec n2 b).toInt := by
  refine vec_of_bits fun k below j inside => ?_
  rw [convert_apply positive below, testBit_vec positive, bit_word b inside]
  by_cases short : k < n2
  · rw [extended_of_lt b (by omega), extended_of_lt b short]
  · rw [show min n n2 = n2 by omega]

namespace AcInt

section Assignments

variable {width width2 : ℕ} {sign sign2 : Bool} (r : Words)

/-- The constructor from an `ac_int<W2, S2>`, which the assignment is made with. -/
def convert (width : ℕ) (sign : Bool) (positive : 0 < width) (op : AcInt width2 sign2) :
    AcInt width sign :=
  adjust width sign positive
    (Iv.convert (wordCount width sign) (wordCount width2 sign2) op.v r)

/-- A converted value is wrapped to the type. -/
theorem toInt_convert (positive : 0 < width) (op : AcInt width2 sign2) :
    (convert r width sign positive op).toInt = wrap width sign op.toInt :=
  toInt_adjust positive (vec_convert op.wordCount_pos op.v r)

/-- A compound assignment, by a function on vectors of the length of the left operand. Where
the function adds, subtracts or multiplies two single words, an overflow of `int` is
undefined in C++; here it wraps, as on the machines that the header is compiled for. -/
def assign (function : ℕ → ℕ → ℕ → Words → Words → Words → Words) (x : AcInt width sign)
    (op2 : AcInt width2 sign2) : AcInt width sign :=
  adjust width sign x.positive
    (function (wordCount width sign) (wordCount width2 sign2) (wordCount width sign) x.v op2.v r)

/-- `operator +=`. -/
def plusAssign (x : AcInt width sign) (op2 : AcInt width2 sign2) : AcInt width sign :=
  assign r Iv.add x op2

/-- `operator -=`. -/
def minusAssign (x : AcInt width sign) (op2 : AcInt width2 sign2) : AcInt width sign :=
  assign r Iv.sub x op2

/-- `operator *=`. -/
def multAssign (x : AcInt width sign) (op2 : AcInt width2 sign2) : AcInt width sign :=
  assign r Iv.mult x op2

/-- `operator &=`. -/
def andAssign (x : AcInt width sign) (op2 : AcInt width2 sign2) : AcInt width sign :=
  assign r Iv.bitwiseAnd x op2

/-- `operator |=`. -/
def orAssign (x : AcInt width sign) (op2 : AcInt width2 sign2) : AcInt width sign :=
  assign r Iv.bitwiseOr x op2

/-- `operator ^=`. -/
def xorAssign (x : AcInt width sign) (op2 : AcInt width2 sign2) : AcInt width sign :=
  assign r Iv.bitwiseXor x op2

/-- `operator ++`. -/
def increment (x : AcInt width sign) : AcInt width sign :=
  adjust width sign x.positive (Iv.increment (wordCount width sign) x.v)

/-- `operator --`. -/
def decrement (x : AcInt width sign) : AcInt width sign :=
  adjust width sign x.positive (Iv.decrement (wordCount width sign) x.v)

/-- `bit_complement`. -/
def bitComplement (x : AcInt width sign) : AcInt width false :=
  adjust width false x.positive
    (bitwiseComplement (wordCount width sign) (wordCount width false) x.v r)

/-- `operator <<`, and `<<=`. -/
def shiftLeft (x : AcInt width sign) (op2 : AcInt width2 sign2) : AcInt width sign :=
  let n := wordCount width sign
  adjust width sign x.positive
    (if sign2 then shiftL2 n n x.v (op2.v 0) r else shiftL n x.v (op2.v 0) r)

/-- `operator >>`, and `>>=`. -/
def shiftRight (x : AcInt width sign) (op2 : AcInt width2 sign2) : AcInt width sign :=
  let n := wordCount width sign
  adjust width sign x.positive
    (if sign2 then shiftR2 n n x.v (op2.v 0) r else shiftR n n x.v (op2.v 0) r)

/-- `slc<WS>(unsigned)`. -/
def slc (sliceWidth : ℕ) (positive : 0 < sliceWidth) (x : AcInt width sign)
    (uindex : BitVec 32) : AcInt sliceWidth sign :=
  adjust sliceWidth sign positive
    (shiftR (wordCount width sign) (wordCount sliceWidth sign) x.v uindex r)

/-- `operator ==`. -/
def equal (x : AcInt width sign) (op2 : AcInt width2 sign2) : Bool :=
  Iv.equal (wordCount width sign) (wordCount width2 sign2) x.v op2.v

/-- `operator <`. -/
def lessThan (x : AcInt width sign) (op2 : AcInt width2 sign2) : Bool :=
  Iv.compare (wordCount width sign) (wordCount width2 sign2) false x.v op2.v

/-- `operator >`. -/
def greaterThan (x : AcInt width sign) (op2 : AcInt width2 sign2) : Bool :=
  Iv.compare (wordCount width sign) (wordCount width2 sign2) true x.v op2.v

/-- A compound assignment wraps what its operator gives on the numbers. -/
theorem toInt_assign {function : ℕ → ℕ → ℕ → Words → Words → Words → Words} {op : ℤ → ℤ → ℤ}
    {x : AcInt width sign} {op2 : AcInt width2 sign2}
    (computes : vec (wordCount width sign) (function (wordCount width sign)
        (wordCount width2 sign2) (wordCount width sign) x.v op2.v r) =
      BitVec.ofInt (32 * wordCount width sign) (op x.toInt op2.toInt)) :
    (assign r function x op2).toInt = wrap width sign (op x.toInt op2.toInt) :=
  toInt_adjust x.positive computes

/-- **A compound assignment is the operator and an assignment**, although it computes only
the words of its left operand. -/
theorem assignments (r r' : Words) (x : AcInt width sign) (op2 : AcInt width2 sign2)
    (small : width < 2 ^ 31) :
    (plusAssign r x op2).toInt = (convert r width sign x.positive (plus r' x op2).result).toInt ∧
    (minusAssign r x op2).toInt =
      (convert r width sign x.positive (minus r' x op2).result).toInt ∧
    (multAssign r x op2).toInt =
      (convert r width sign x.positive (mult r' x op2 small).result).toInt ∧
    (andAssign r x op2).toInt =
      (convert r width sign x.positive (bitwiseAnd r' x op2).result).toInt ∧
    (orAssign r x op2).toInt =
      (convert r width sign x.positive (bitwiseOr r' x op2).result).toInt ∧
    (xorAssign r x op2).toInt =
      (convert r width sign x.positive (bitwiseXor r' x op2).result).toInt := by
  have words := x.wordCount_pos
  have words2 := op2.wordCount_pos
  simp only [toInt_convert, Exact.toInt_eq]
  exact ⟨toInt_assign r (vec_add words words2 words x.v op2.v r),
    toInt_assign r (vec_sub words words2 words x.v op2.v r),
    toInt_assign r (vec_mult words words2 words ((min_le_left _ _).trans (wordCount_le small))
      x.v op2.v r),
    toInt_assign r (vec_bitwiseAnd _ words words2 x.v op2.v r),
    toInt_assign r (vec_bitwiseOr _ words words2 x.v op2.v r),
    toInt_assign r (vec_bitwiseXor _ words words2 x.v op2.v r)⟩

/-- The `-1` of 40 bits, in two words. -/
def minusOne : AcInt 40 true := adjust 40 true (by decide) fun _ => BitVec.allOnes 32

/-- A word more than the left operand, and without a sign. -/
theorem assignments_mixed :
    (plusAssign (fun _ => 0) minusOne (adjust 70 false (by decide) fun _ => 5)).toInt =
      (convert (fun _ => 0) 40 true (by decide)
        (plus (fun _ => 1) minusOne (adjust 70 false (by decide) fun _ => 5)).result).toInt :=
  (assignments (fun _ => 0) (fun _ => 1) minusOne (adjust 70 false (by decide) fun _ => 5)
    (by decide)).1

/-- **A conversion keeps exactly the values of the type that it converts to**, and of every
value the bits below the width. -/
theorem toInt_convert_iff (positive : 0 < width) (op : AcInt width2 sign2) :
    ((convert r width sign positive op).toInt = op.toInt ↔ Fits width sign op.toInt) ∧
      ∀ i < width, (convert r width sign positive op).toInt.testBit i = op.toInt.testBit i := by
  rw [toInt_convert]
  refine ⟨⟨fun same => ?_, wrap_of_fits positive⟩, fun i below => ?_⟩
  · have kept := fits_wrap positive sign op.toInt
    rwa [same] at kept
  · rw [testBit_wrap positive, if_pos below]

/-- The `-1` of 40 bits is kept by a wider signed type, and not by a byte, which keeps its low
bits. -/
theorem toInt_convert_iff_byte :
    (convert (fun _ => 0) 50 true (by decide) minusOne).toInt = minusOne.toInt ∧
      (convert (fun _ => 0) 8 false (by decide) minusOne).toInt ≠ minusOne.toInt ∧
      ∀ i < 8, (convert (fun _ => 0) 8 false (by decide) minusOne).toInt.testBit i =
        minusOne.toInt.testBit i := by
  have value : minusOne.toInt = -1 := by decide +kernel
  have byte : ((convert (fun _ => 0) 8 false (by decide) minusOne).toInt = minusOne.toInt ↔
      Fits 8 false minusOne.toInt) ∧ _ := toInt_convert_iff (fun _ => 0) (by decide) minusOne
  refine ⟨(toInt_convert_iff (fun _ => 0) (by decide) minusOne).1.mpr ?_, fun kept => ?_, byte.2⟩
  · exact minusOne.adjusted.widen (by decide) (fun signed => signed) (by decide)
  · have fits := byte.1.mp kept
    rw [fits_unsigned, value] at fits
    exact absurd fits.1 (by decide)

theorem toInt_increment (x : AcInt width sign) :
    (increment x).toInt = wrap width sign (x.toInt + 1) := by
  refine toInt_adjust x.positive ?_
  rw [vec_increment, BitVec.ofInt_add, toInt, BitVec.ofInt_toInt]
  rfl

theorem toInt_decrement (x : AcInt width sign) :
    (decrement x).toInt = wrap width sign (x.toInt - 1) := by
  refine toInt_adjust x.positive ?_
  rw [vec_decrement x.wordCount_pos, Int.sub_eq_add_neg, BitVec.ofInt_add, toInt,
    BitVec.ofInt_toInt, BitVec.ofInt_neg, BitVec.sub_eq_add_neg]
  rfl

theorem toInt_bitComplement (x : AcInt width sign) :
    (bitComplement r x).toInt = wrap width false (Int.lnot x.toInt) :=
  toInt_adjust x.positive (vec_bitwiseComplement _ x.wordCount_pos x.v r)

theorem fits_word (sign : Bool) (w : Word) :
    Fits 32 sign (if sign then w.toInt else w.toNat) := by
  cases sign with
  | true => exact fits_signed.mpr (toInt_word w)
  | false => exact fits_unsigned.mpr (toNat_word w)

/-- `to_int` and `to_uint` read the lowest word. -/
theorem wrap_toInt (x : AcInt width sign) :
    wrap 32 sign2 x.toInt = if sign2 then (x.v 0).toInt else ((x.v 0).toNat : ℤ) := by
  rw [← wrap_of_fits (by decide) (fits_word sign2 (x.v 0))]
  refine wrap_congr (by decide) fun i below => ?_
  have low : x.toInt.testBit i = (x.v 0).getLsbD i := by
    rw [toInt, testBit_vec x.wordCount_pos, show i = 32 * 0 + i by omega, bit_word x.v below,
      extended_of_lt x.v x.wordCount_pos, Nat.mul_zero, Nat.zero_add]
  rw [low]
  cases sign2 with
  | true => rw [if_pos rfl, ← IntBits.getLsbD_ofInt _ below, BitVec.ofInt_toInt]
  | false =>
      rw [if_neg Bool.false_ne_true]
      rfl

/-- **A left shift multiplies**, by the count in the lowest word of the right operand. -/
theorem toInt_shiftLeft (x : AcInt width sign) (op2 : AcInt width2 sign2) :
    (shiftLeft r x op2).toInt =
      wrap width sign (scale x.toInt (wrap 32 sign2 op2.toInt)) := by
  refine toInt_adjust x.positive ?_
  rw [wrap_toInt]
  cases sign2 with
  | true => exact vec_shiftL2 x.wordCount_pos le_rfl x.v (op2.v 0) r
  | false =>
      simp only [Bool.false_eq_true, ↓reduceIte]
      rw [vec_shiftL x.wordCount_pos le_rfl, scale_natCast]
      rfl

/-- **A right shift divides and rounds down.** -/
theorem toInt_shiftRight (x : AcInt width sign) (op2 : AcInt width2 sign2) :
    (shiftRight r x op2).toInt =
      wrap width sign (scale x.toInt (-wrap 32 sign2 op2.toInt)) := by
  refine toInt_adjust x.positive ?_
  rw [wrap_toInt]
  cases sign2 with
  | true => exact vec_shiftR2 x.wordCount_pos le_rfl x.v (op2.v 0) r
  | false =>
      simp only [Bool.false_eq_true, ↓reduceIte]
      rw [vec_shiftR _ x.wordCount_pos, scale_neg]
      rfl

theorem toInt_slc {sliceWidth : ℕ} (positive : 0 < sliceWidth) (x : AcInt width sign)
    (uindex : BitVec 32) :
    (slc r sliceWidth positive x uindex).toInt =
      wrap sliceWidth sign (x.toInt / 2 ^ uindex.toNat) :=
  toInt_adjust positive (vec_shiftR _ x.wordCount_pos x.v uindex r)

theorem equal_eq (x : AcInt width sign) (op2 : AcInt width2 sign2) :
    equal x op2 = decide (x.toInt = op2.toInt) := by
  rw [Bool.eq_iff_iff, decide_eq_true_iff]
  exact equal_iff x.wordCount_pos op2.wordCount_pos x.v op2.v

theorem lessThan_eq (x : AcInt width sign) (op2 : AcInt width2 sign2) :
    lessThan x op2 = decide (x.toInt < op2.toInt) :=
  compare_eq x.wordCount_pos op2.wordCount_pos false x.v op2.v

theorem greaterThan_eq (x : AcInt width sign) (op2 : AcInt width2 sign2) :
    greaterThan x op2 = decide (op2.toInt < x.toInt) :=
  compare_eq x.wordCount_pos op2.wordCount_pos true x.v op2.v

/-- **Comparisons order the values**, whatever the two types. -/
theorem relations (x : AcInt width sign) (op2 : AcInt width2 sign2) :
    equal x op2 = decide (x.toInt = op2.toInt) ∧
      lessThan x op2 = decide (x.toInt < op2.toInt) ∧
      greaterThan x op2 = decide (op2.toInt < x.toInt) :=
  ⟨equal_eq x op2, lessThan_eq x op2, greaterThan_eq x op2⟩

/-- **Shifts multiply and divide** by the power of two that the lowest word of the right
operand holds, with its sign. -/
theorem shifts (x : AcInt width sign) (op2 : AcInt width2 sign2) :
    (shiftLeft r x op2).toInt = wrap width sign (scale x.toInt (wrap 32 sign2 op2.toInt)) ∧
      (shiftRight r x op2).toInt =
        wrap width sign (scale x.toInt (-wrap 32 sign2 op2.toInt)) :=
  ⟨toInt_shiftLeft r x op2, toInt_shiftRight r x op2⟩

end Assignments

end AcInt

end Iv

end DownSample
