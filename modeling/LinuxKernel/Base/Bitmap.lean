import Mathlib.Tactic.Common

/-! # Bitmaps of machine words

A bitmap is a list of words. Setting or clearing one of its bits leaves all others alone.
-/

namespace LinuxKernel.Bitmap

open List BitVec Bool Nat

section Single

variable {w : ℕ} (bmp : List (BitVec w)) (i j : ℕ)

def testBit : Bool := (bmp.getD (i / w) 0).getLsbD (i % w)

def setBit : List (BitVec w) := bmp.set (i / w) (bmp.getD (i / w) 0 ||| 1#w <<< (i % w))

def clearBit : List (BitVec w) := bmp.set (i / w) (bmp.getD (i / w) 0 &&& ~~~(1#w <<< (i % w)))

@[simp] theorem length_setBit : (setBit bmp i).length = bmp.length := length_set

@[simp] theorem length_clearBit : (clearBit bmp i).length = bmp.length := length_set

theorem testBit_eq_false (h : ∀ x ∈ bmp, x = 0) : testBit bmp i = false := by
  rw [testBit, getD_eq_getElem?_getD]
  rcases hx : bmp[i / w]? with _ | x
  · exact getLsbD_zero
  · rw [h x (mem_of_getElem? hx)]
    exact getLsbD_zero

theorem getLsbD_one_shiftLeft (k n : ℕ) (hk : k < w) : (1#w <<< n).getLsbD k = decide (k = n) := by
  by_cases h : k = n
  · simp [h]
    omega
  · simp [h]
    omega

variable {bmp i} (hi : i < w * bmp.length)
include hi

theorem word_lt : i / w < bmp.length := Nat.div_lt_of_lt_mul hi

theorem bit_lt : i % w < w := mod_lt i (Nat.pos_of_mul_pos_right (zero_lt_of_lt hi))

theorem testBit_set (x : BitVec w) : testBit (bmp.set (i / w) x) j =
    if j / w = i / w then x.getLsbD (j % w) else testBit bmp j := by
  have hlt := word_lt hi
  rw [testBit, testBit, getD_eq_getElem?_getD, getElem?_set]
  by_cases h : j / w = i / w
  · rw [if_pos h, if_pos h.symm, if_pos hlt, Option.getD_some]
  · rw [if_neg h, if_neg (Ne.symm h), ← getD_eq_getElem?_getD]

omit hi in
theorem decide_eq_word_bit :
    decide (j = i) = (decide (j / w = i / w) && decide (j % w = i % w)) := by
  rw [← decide_and, decide_eq_decide]
  constructor
  · rintro rfl
    exact ⟨rfl, rfl⟩
  · rintro ⟨hd, hm⟩
    rw [← div_add_mod j w, ← div_add_mod i w, hd, hm]

theorem testBit_setBit : testBit (setBit bmp i) j = (decide (j = i) || testBit bmp j) := by
  rw [setBit, testBit_set j hi, decide_eq_word_bit]
  have hj : j % w < w := mod_lt j (zero_lt_of_lt (bit_lt hi))
  by_cases h : j / w = i / w
  · rw [getLsbD_or, getLsbD_one_shiftLeft _ _ hj, testBit, h]
    simp [Bool.or_comm]
  · simp [h]

theorem testBit_clearBit : testBit (clearBit bmp i) j = (!decide (j = i) && testBit bmp j) := by
  rw [clearBit, testBit_set j hi, decide_eq_word_bit]
  have hj : j % w < w := mod_lt j (zero_lt_of_lt (bit_lt hi))
  by_cases h : j / w = i / w
  · rw [getLsbD_and, getLsbD_not, getLsbD_one_shiftLeft _ _ hj, testBit, h]
    simp [hj, Bool.and_comm]
  · simp [h]

end Single

section Words

variable {w k j : ℕ} {b₁ b₂ : List (BitVec w)}

theorem getLsbD_getD (hj : j < w) : (b₁.getD k 0).getLsbD j = testBit b₁ (w * k + j) := by
  rw [testBit, mul_add_div (by omega), div_eq_of_lt hj, Nat.add_zero, mul_add_mod,
    mod_eq_of_lt hj]

theorem word_bit_lt {n : ℕ} (hk : k < n) (hj : j < w) : w * k + j < w * n := by
  have := mul_le_mul_left w (succ_le_of_lt hk)
  rw [Nat.mul_succ] at this
  omega

theorem ext_testBit (hlen : b₁.length = b₂.length)
    (h : ∀ i < w * b₁.length, testBit b₁ i = testBit b₂ i) : b₁ = b₂ := by
  refine ext_getElem hlen fun k hk hk' => eq_of_getLsbD_eq fun j hj => ?_
  have hbit := h (w * k + j) (word_bit_lt hk hj)
  rw [← getLsbD_getD hj, ← getLsbD_getD hj] at hbit
  simpa [hk, hk'] using hbit

theorem forall_and_eq_iff {n : ℕ} :
    (∀ k < n, b₁.getD k 0 &&& b₂.getD k 0 = b₂.getD k 0) ↔
      ∀ i < w * n, testBit b₂ i → testBit b₁ i := by
  constructor
  · intro h i hi hbit
    have hword := congrArg (·.getLsbD (i % w)) (h (i / w) (Nat.div_lt_of_lt_mul hi))
    simp only [getLsbD_and] at hword
    rw [testBit] at hbit
    rw [hbit, Bool.and_true] at hword
    exact hword
  · refine fun h k hk => eq_of_getLsbD_eq fun j hj => ?_
    rw [getLsbD_and, getLsbD_getD hj, getLsbD_getD hj]
    have := h (w * k + j) (word_bit_lt hk hj)
    cases hbit : testBit b₂ (w * k + j) with
    | false => rw [Bool.and_false]
    | true => rw [this hbit, Bool.and_true]

end Words

section FindNext

variable {w : ℕ} (bmp : List (BitVec w)) (size n : ℕ)

/-- The first bit from `n` on that is set, or the size. -/
def findNextBit : ℕ := ((range' n (size - n)).find? (testBit bmp)).getD size

/-- The bits from `n` on that are set. -/
def bitsFrom : List ℕ := (range' n (size - n)).filter (testBit bmp)

variable {bmp size n} {i : ℕ}

theorem mem_bitsFrom : i ∈ bitsFrom bmp size n ↔ n ≤ i ∧ i < size ∧ testBit bmp i := by
  rw [bitsFrom, mem_filter, mem_range'_1]
  constructor
  · rintro ⟨hi, hbit⟩
    exact ⟨hi.1, by omega, hbit⟩
  · rintro ⟨hn, hi, hbit⟩
    exact ⟨⟨hn, by omega⟩, hbit⟩

theorem pairwise_bitsFrom : (bitsFrom bmp size n).Pairwise (· < ·) :=
  (pairwise_lt_range' 1 Nat.one_pos).filter _

variable (bmp size n) in
theorem findNextBit_cases :
    (findNextBit bmp size n = size ∧ bitsFrom bmp size n = []) ∨
      ∃ i, findNextBit bmp size n = i ∧ i < size ∧
        bitsFrom bmp size n = i :: bitsFrom bmp size (i + 1) := by
  rw [findNextBit, bitsFrom]
  rcases Nat.le_total size n with hle | hle
  · rw [Nat.sub_eq_zero_of_le hle]
    exact .inl ⟨rfl, rfl⟩
  obtain ⟨m, rfl⟩ := Nat.exists_eq_add_of_le hle
  rw [Nat.add_sub_cancel_left]
  induction m generalizing n with
  | zero => exact .inl ⟨rfl, rfl⟩
  | succ m ih =>
    rw [range'_succ, find?_cons, filter_cons, Nat.add_comm m, ← Nat.add_assoc]
    cases testBit bmp n with
    | false => exact ih (n + 1) (Nat.le_add_right ..)
    | true => exact .inr ⟨n, rfl, by omega, by rw [bitsFrom, Nat.add_sub_cancel_left]; rfl⟩

end FindNext

section Many

variable {w : ℕ} {bmp : List (BitVec w)} {f : ℕ → ℕ} {l : List ℕ}

theorem length_foldl_clearBit :
    (l.foldl (fun bmp i => clearBit bmp (f i)) bmp).length = bmp.length := by
  induction l generalizing bmp with
  | nil => rfl
  | cons i l ih => rw [foldl_cons, ih, length_clearBit]

theorem testBit_foldl_clearBit (h : ∀ i ∈ l, f i < w * bmp.length) (j : ℕ) :
    testBit (l.foldl (fun bmp i => clearBit bmp (f i)) bmp) j = true ↔
      testBit bmp j = true ∧ ∀ i ∈ l, j ≠ f i := by
  induction l generalizing bmp with
  | nil => simp
  | cons i l ih =>
    have hi := h i mem_cons_self
    rw [foldl_cons, ih fun k hk => by
      rw [length_clearBit]
      exact h k (mem_cons_of_mem _ hk), testBit_clearBit j hi]
    simp only [and_eq_true, not_eq_true', decide_eq_false_iff_not, forall_mem_cons]
    tauto

theorem length_foldl_set_zero : (l.foldl (fun bmp i => bmp.set i 0) bmp).length = bmp.length := by
  induction l generalizing bmp with
  | nil => rfl
  | cons i l ih => rw [foldl_cons, ih, length_set]

theorem getD_foldl_set_zero {n k : ℕ} (hk : k < n) :
    ((List.range n).foldl (fun bmp i => bmp.set i 0) bmp).getD k 0 = 0 := by
  induction n with
  | zero => omega
  | succ n ih =>
    rw [range_succ, foldl_append, foldl_cons, foldl_nil, getD_eq_getElem?_getD, getElem?_set]
    split_ifs with h h'
    · rfl
    · rfl
    · exact ih (by omega)

theorem testBit_foldl_set_zero {n j : ℕ} (hj : j / w < n) :
    testBit ((List.range n).foldl (fun bmp i => bmp.set i 0) bmp) j = false := by
  rw [testBit, getD_foldl_set_zero hj]
  exact getLsbD_zero

end Many

end LinuxKernel.Bitmap
