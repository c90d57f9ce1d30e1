import DownSample.IntegerVector.Words

/-! # Comparisons of integer vectors

`iv_equal` and `iv_compare` compare vectors of different lengths without extending the
shorter one: its missing words are those of its sign. The top words are compared with
their signs, the others from the top down without. The results are those of the numbers
(`DownSample.Iv.equal_iff`, `DownSample.Iv.compare_eq`).
-/

namespace DownSample

namespace Iv

/-- `iv_equal<N1, N2>`. -/
def equal (n1 n2 : ℕ) (op1 op2 : Words) : Bool :=
  let m1 := max n1 n2
  let m2 := min n1 n2
  let p1 := if n2 ≤ n1 then op1 else op2
  let p2 := if n2 ≤ n1 then op2 else op1
  let ext := ones (isNeg (p2 (m2 - 1)))
  (List.range m2).all (fun i => p1 i == p2 i) &&
    (List.range (m1 - m2)).all fun i => p1 (m2 + i) == ext

/-- `for(int i=start+count-1; i >= start; i--)`: whether the first words that differ are in
order, without signs. -/
def scanDown (op1 op2 : Words) (start : ℕ) : ℕ → Option Bool
  | 0 => none
  | count + 1 =>
      if op1 (start + count) ≠ op2 (start + count) then
        some (decide ((op1 (start + count)).toNat < (op2 (start + count)).toNat))
      else scanDown op1 op2 start count

/-- `iv_compare<N1, N2, greater>`. -/
def compare (n1 n2 : ℕ) (greater : Bool) (op1 op2 : Words) : Bool :=
  let m1 := max n1 n2
  let m2 := min n1 n2
  let p1 := if n2 ≤ n1 then op1 else op2
  let p2 := if n2 ≤ n1 then op2 else op1
  let b := decide (n2 ≤ n1) == greater
  let ext := ones (isNeg (p2 (m2 - 1)))
  let i2 := if m2 < m1 then ext else p2 (m1 - 1)
  if p1 (m1 - 1) ≠ i2 then b ^^ decide ((p1 (m1 - 1)).toInt < i2.toInt)
  else match scanDown p1 (fun _ => ext) m2 (m1 - 1 - m2) with
    | some less => b ^^ less
    | none =>
        match scanDown p1 p2 0 m2 with
        | some less => b ^^ less
        | none => false

/-! ## Equality -/

/-- Vectors of one length are equal numbers when they are equal words. -/
theorem toInt_vec_eq_iff {n : ℕ} {u w : Words} :
    (vec n u).toInt = (vec n w).toInt ↔ ∀ i < n, u i = w i :=
  ⟨fun same => vec_inj (BitVec.toInt_inj.mp same), fun same => by rw [vec_congr same]⟩

/-- `iv_equal` with the longer operand first. -/
private theorem equal_of_le {m1 m2 : ℕ} (positive : 0 < m2) (ordered : m2 ≤ m1) (p1 p2 : Words) :
    ((List.range m2).all (fun i => p1 i == p2 i) &&
      (List.range (m1 - m2)).all fun i => p1 (m2 + i) == ones (isNeg (p2 (m2 - 1)))) = true ↔
      (vec m1 p1).toInt = (vec m2 p2).toInt := by
  rw [← toInt_vec_extended positive ordered p2, toInt_vec_eq_iff]
  simp only [Bool.and_eq_true, List.all_eq_true, List.mem_range, beq_iff_eq]
  constructor
  · rintro ⟨low, high⟩ i below
    unfold extended
    by_cases early : i < m2
    · rw [if_pos early, low i early]
    · obtain ⟨j, rfl⟩ := Nat.exists_eq_add_of_le (Nat.not_lt.mp early)
      rw [if_neg early, high j (by omega)]
  · intro same
    refine ⟨fun i below => ?_, fun i below => ?_⟩
    · rw [same i (by omega), extended, if_pos below]
    · rw [same (m2 + i) (by omega), extended, if_neg (by omega)]

/-- `iv_equal` says whether two vectors hold the same number. -/
theorem equal_iff {n1 n2 : ℕ} (positive1 : 0 < n1) (positive2 : 0 < n2) (op1 op2 : Words) :
    equal n1 n2 op1 op2 = true ↔ (vec n1 op1).toInt = (vec n2 op2).toInt := by
  unfold equal
  by_cases ordered : n2 ≤ n1
  · simp only [if_pos ordered, max_eq_left ordered, min_eq_right ordered]
    exact equal_of_le positive2 ordered op1 op2
  · have other : n1 ≤ n2 := by omega
    simp only [if_neg ordered, max_eq_right other, min_eq_left other]
    exact (equal_of_le positive1 other op2 op1).trans eq_comm

/-! ## Order -/

/-- A scan that finds nothing has seen equal words. -/
theorem scanDown_none {op1 op2 : Words} {start count : ℕ}
    (same : scanDown op1 op2 start count = none) :
    ∀ i, start ≤ i → i < start + count → op1 i = op2 i := by
  induction count with
  | zero => intro i from_ below; omega
  | succ count ih =>
      rw [scanDown] at same
      split at same
      · cases same
      · rename_i equal
        intro i from_ below
        by_cases top : i = start + count
        · subst top
          exact not_not.mp equal
        · exact ih same i from_ (by omega)

/-- A scan that stops has found the highest difference. -/
theorem scanDown_some {op1 op2 : Words} {start count : ℕ} {less : Bool}
    (found : scanDown op1 op2 start count = some less) :
    ∃ i, start ≤ i ∧ i < start + count ∧ op1 i ≠ op2 i ∧
      less = decide ((op1 i).toNat < (op2 i).toNat) ∧
      ∀ j, i < j → j < start + count → op1 j = op2 j := by
  induction count with
  | zero => cases found
  | succ count ih =>
      rw [scanDown] at found
      split at found
      · rename_i differ
        cases found
        exact ⟨start + count, by omega, by omega, differ, rfl, fun j above below => by omega⟩
      · rename_i equal
        obtain ⟨i, from_, below, differ, decided, above⟩ := ih found
        refine ⟨i, from_, by omega, differ, decided, fun j later early => ?_⟩
        by_cases top : j = start + count
        · subst top
          exact not_not.mp equal
        · exact above j later (by omega)

/-- Below the top, the first words that differ decide the order without signs. -/
theorem toInt_lt_of_word {n i : ℕ} {u w : Words} (inside : i + 1 < n)
    (above : ∀ j, i < j → j < n → u j = w j) (less : (u i).toNat < (w i).toNat) :
    (vec n u).toInt < (vec n w).toInt := by
  rw [← value_digit (by omega) u, ← value_digit (by omega) w]
  refine Radix.value_lt_value (by norm_num) (show i < n by omega) (fun j below => ?_)
    (fun j below => ?_) (fun j later below => ?_) ?_
  · rw [digit_of_lt u (by omega)]
    exact toNat_word (u j)
  · rw [digit_of_lt w (by omega)]
    exact toNat_word (w j)
  · rw [digit, digit, above j later below]
  · rw [digit_of_lt u inside, digit_of_lt w inside]
    exact_mod_cast less

/-- The top words decide the order with their signs. -/
theorem toInt_lt_of_top {n i : ℕ} {u w : Words} (top : i + 1 = n)
    (less : (u i).toInt < (w i).toInt) : (vec n u).toInt < (vec n w).toInt := by
  rw [← value_digit (by omega) u, ← value_digit (by omega) w]
  refine Radix.value_lt_value (by norm_num) (show i < n by omega) (fun j below => ?_)
    (fun j below => ?_) (fun j later below => by omega) ?_
  · rw [digit_of_lt u (by omega)]
    exact toNat_word (u j)
  · rw [digit_of_lt w (by omega)]
    exact toNat_word (w j)
  · rw [digit_top u top, digit_top w top]
    exact less

/-- The top words decide between different vectors. -/
theorem order_of_top {n i : ℕ} {u w : Words} (top : i + 1 = n) (differ : u i ≠ w i) :
    (vec n u).toInt ≠ (vec n w).toInt ∧
      decide ((u i).toInt < (w i).toInt) = decide ((vec n u).toInt < (vec n w).toInt) := by
  refine ⟨fun same => differ (toInt_vec_eq_iff.mp same i (by omega)), decide_eq_decide.mpr ?_⟩
  refine ⟨toInt_lt_of_top top, fun less => ?_⟩
  have signed : (u i).toInt ≠ (w i).toInt := fun same => differ (BitVec.toInt_inj.mp same)
  by_contra notLess
  have greater := toInt_lt_of_top top (show (w i).toInt < (u i).toInt by omega)
  omega

/-- Below the top, the first words that differ decide between different vectors. -/
theorem order_of_word {n i : ℕ} {u w : Words} (inside : i + 1 < n)
    (above : ∀ j, i < j → j < n → u j = w j) (differ : u i ≠ w i) :
    (vec n u).toInt ≠ (vec n w).toInt ∧
      decide ((u i).toNat < (w i).toNat) = decide ((vec n u).toInt < (vec n w).toInt) := by
  refine ⟨fun same => differ (toInt_vec_eq_iff.mp same i (by omega)), decide_eq_decide.mpr ?_⟩
  refine ⟨toInt_lt_of_word inside above, fun less => ?_⟩
  have unsigned : (u i).toNat ≠ (w i).toNat := fun same => differ (BitVec.eq_of_toNat_eq same)
  by_contra notLess
  have greater := toInt_lt_of_word inside (fun j later below => (above j later below).symm)
    (show (w i).toNat < (u i).toNat by omega)
  omega

/-- `iv_compare` with the longer operand first. -/
private theorem compare_of_le {m1 m2 : ℕ} (positive : 0 < m2) (ordered : m2 ≤ m1) (b : Bool)
    (p1 p2 : Words) :
    (let ext := ones (isNeg (p2 (m2 - 1)))
      let i2 := if m2 < m1 then ext else p2 (m1 - 1)
      if p1 (m1 - 1) ≠ i2 then b ^^ decide ((p1 (m1 - 1)).toInt < i2.toInt)
      else match scanDown p1 (fun _ => ext) m2 (m1 - 1 - m2) with
        | some less => b ^^ less
        | none =>
            match scanDown p1 p2 0 m2 with
            | some less => b ^^ less
            | none => false) =
      if (vec m1 p1).toInt = (vec m2 p2).toInt then false
      else b ^^ decide ((vec m1 p1).toInt < (vec m2 p2).toInt) := by
  have longer : (vec m1 (extended m2 p2)).toInt = (vec m2 p2).toInt :=
    toInt_vec_extended positive ordered p2
  have top : (if m2 < m1 then ones (isNeg (p2 (m2 - 1))) else p2 (m1 - 1)) =
      extended m2 p2 (m1 - 1) := by
    unfold extended
    by_cases strict : m2 < m1
    · rw [if_pos strict, if_neg (by omega)]
    · rw [if_neg strict, if_pos (by omega)]
  have low {i : ℕ} (below : i < m2) : extended m2 p2 i = p2 i := if_pos below
  have high {i : ℕ} (above : m2 ≤ i) : extended m2 p2 i = ones (isNeg (p2 (m2 - 1))) :=
    if_neg (by omega)
  simp only [top, ← longer]
  generalize extended m2 p2 = q at top low high
  by_cases differ : p1 (m1 - 1) ≠ q (m1 - 1)
  · obtain ⟨different, decided⟩ := order_of_top (show m1 - 1 + 1 = m1 by omega) differ
    rw [if_pos differ, if_neg different, decided]
  rw [if_neg differ]
  -- the words of the sign, from the one below the top down to the length of the shorter operand
  cases upper : scanDown p1 (fun _ => ones (isNeg (p2 (m2 - 1)))) m2 (m1 - 1 - m2) with
  | some less =>
      obtain ⟨i, from_, below, differs, decided, above⟩ := scanDown_some upper
      rw [← high from_] at differs decided
      obtain ⟨different, order⟩ := order_of_word (n := m1) (by omega) (fun j later early => by
        by_cases last : j = m1 - 1
        · subst last
          exact not_not.mp differ
        · rw [high (by omega)]
          exact above j later (by omega)) differs
      simp only [if_neg different, decided, order]
  | none =>
      have equal {j : ℕ} (later : m2 ≤ j) (early : j < m1) : p1 j = q j := by
        by_cases last : j = m1 - 1
        · subst last
          exact not_not.mp differ
        · rw [high later]
          exact scanDown_none upper j later (by omega)
      cases lower : scanDown p1 p2 0 m2 with
      | some less =>
          obtain ⟨i, -, below, differs, decided, above⟩ := scanDown_some lower
          rw [Nat.zero_add] at below
          rw [← low below] at differs decided
          have inside : i + 1 < m1 := by
            by_contra last
            have top : i = m1 - 1 := by omega
            exact differ (top ▸ differs)
          obtain ⟨different, order⟩ := order_of_word inside (fun j later early => by
            by_cases short : j < m2
            · rw [low short]
              exact above j later (by omega)
            · exact equal (by omega) early) differs
          simp only [if_neg different, decided, order]
      | none =>
          have same : (vec m1 p1).toInt = (vec m1 q).toInt := toInt_vec_eq_iff.mpr fun j early => by
            by_cases short : j < m2
            · rw [low short]
              exact scanDown_none lower j (by omega) (by omega)
            · exact equal (by omega) early
          simp only [if_pos same]

/-- `iv_compare` orders two vectors as the numbers that they hold. -/
theorem compare_eq {n1 n2 : ℕ} (positive1 : 0 < n1) (positive2 : 0 < n2) (greater : Bool)
    (op1 op2 : Words) :
    compare n1 n2 greater op1 op2 =
      if greater then decide ((vec n2 op2).toInt < (vec n1 op1).toInt)
      else decide ((vec n1 op1).toInt < (vec n2 op2).toInt) := by
  have flip {x y : ℤ} : (if x = y then false else true ^^ decide (x < y)) = decide (y < x) := by
    by_cases same : x = y
    · subst same
      simp
    · rw [if_neg same, Bool.true_xor, ← decide_not]
      exact decide_eq_decide.mpr (by omega)
  have keep {x y : ℤ} : (if x = y then false else false ^^ decide (x < y)) = decide (x < y) := by
    by_cases same : x = y
    · subst same
      simp
    · rw [if_neg same, Bool.false_xor]
  unfold compare
  by_cases ordered : n2 ≤ n1
  · simp only [if_pos ordered, max_eq_left ordered, min_eq_right ordered, decide_eq_true ordered]
    refine (compare_of_le positive2 ordered _ op1 op2).trans ?_
    cases greater with
    | true => exact flip
    | false => exact keep
  · have other : n1 ≤ n2 := by omega
    simp only [if_neg ordered, max_eq_right other, min_eq_left other, decide_eq_false ordered]
    refine (compare_of_le positive1 other _ op2 op1).trans ?_
    cases greater with
    | true => exact keep
    | false => exact flip

end Iv

end DownSample
