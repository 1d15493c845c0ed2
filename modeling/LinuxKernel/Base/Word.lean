import Mathlib.Algebra.Group.Nat.Defs
import Mathlib.Data.List.Count
import Mathlib.Data.List.Nodup
import LinuxKernel.Base.Bitmap

/-! # Single words as sets of bits

The number of entries of an array that have a property, and the bits of one word: setting and
clearing one of them, looking for the next one, and counting them.
-/

namespace LinuxKernel.Word

open List BitVec

section Tally

variable {w n : ℕ} {P Q : ℕ → Bool}

/-- How many of the first `w` entries have a property. -/
def tally (w : ℕ) (P : ℕ → Bool) : ℕ := (List.range w).countP P

theorem tally_congr (h : ∀ k < w, P k = Q k) : tally w P = tally w Q :=
  countP_congr fun k hk => by rw [h k (mem_range.mp hk)]

theorem tally_eq_zero : tally w P = 0 ↔ ∀ k < w, P k = false := by
  rw [tally]
  simp

theorem tally_eq_all : tally w P = w ↔ ∀ k < w, P k = true := by
  have h := countP_eq_length (l := range w) (p := P)
  rw [length_range] at h
  rw [tally, h]
  simp

theorem tally_add_one (hn : n < w) (hP : P n = false) (hQ : Q n = true)
    (h : ∀ k < w, k ≠ n → Q k = P k) : tally w Q = tally w P + 1 := by
  induction w with
  | zero => omega
  | succ w ih =>
    simp only [tally, range_succ, countP_append, countP_singleton]
    rcases Nat.lt_succ_iff_lt_or_eq.mp hn with hlt | rfl
    · rw [h w (by omega) (by omega)]
      have := ih hlt fun k hk => h k (by omega)
      simp only [tally] at this
      omega
    · have := tally_congr (w := n) fun k hk => h k (by omega) (by omega)
      simp only [tally] at this
      rw [this, hP, hQ]
      simp

theorem tally_eq_one (hn : n < w) (hP : P n = true) (h : tally w P = 1) {k : ℕ} (hk : k < w)
    (hPk : P k = true) : k = n := by
  by_contra hne
  have hone := tally_add_one (P := fun k => P k && decide (k ≠ n)) hn (by simp) hP
    fun k _ hkn => by simp [hkn]
  have hzero := tally_eq_zero.mp (Nat.succ.inj (hone.symm.trans h)) k hk
  simp [hPk, hne] at hzero

end Tally

section Bits

variable {w n k : ℕ} (b : BitVec w)

def set (n : ℕ) : BitVec w := b ||| 1#w <<< n

def clear (n : ℕ) : BitVec w := b &&& ~~~(1#w <<< n)

theorem getLsbD_set (hk : k < w) : (set b n).getLsbD k = (decide (k = n) || b.getLsbD k) := by
  rw [set, getLsbD_or, Bitmap.getLsbD_one_shiftLeft _ _ hk, Bool.or_comm]

theorem getLsbD_clear (hk : k < w) : (clear b n).getLsbD k = (!decide (k = n) && b.getLsbD k) := by
  rw [clear, getLsbD_and, getLsbD_not, Bitmap.getLsbD_one_shiftLeft _ _ hk, Bool.and_comm]
  simp [hk]

variable {b}

theorem eq_allOnes_iff : b = allOnes w ↔ ∀ k < w, b.getLsbD k = true := by
  constructor
  · rintro rfl k hk
    simp [hk]
  · intro h
    refine eq_of_getLsbD_eq fun k hk => ?_
    simp [h k hk, hk]

def ones (b : BitVec w) : ℕ := tally w b.getLsbD

theorem ones_set (hn : n < w) (h : b.getLsbD n = false) : ones (set b n) = ones b + 1 :=
  tally_add_one hn h (by simp [getLsbD_set b hn]) fun k hk hne => by simp [getLsbD_set b hk, hne]

theorem ones_clear (hn : n < w) (h : b.getLsbD n = true) : ones b = ones (clear b n) + 1 :=
  tally_add_one hn (by simp [getLsbD_clear b hn]) h fun k hk hne => by
    simp [getLsbD_clear b hk, hne]

end Bits

theorem and_not_mask (b : BitVec w) (k : ℕ) :
    b &&& ~~~(BitVec.ofNat w (2 ^ k - 1)) = (b >>> k) <<< k := by
  apply eq_of_getLsbD_eq
  intro i hi
  rw [getLsbD_and, getLsbD_not, getLsbD_ofNat, getLsbD_shiftLeft, getLsbD_ushiftRight]
  by_cases hik : i < k
  · simp [hik]
  · rw [show k + (i - k) = i by omega]
    simp [hi, hik]

section FindNext

variable {w n m k : ℕ} {b : BitVec w}

theorem find_range_cases {p : ℕ → Bool} :
    (((List.range' n (w - n)).find? p).getD w = w ∧ ∀ k, n ≤ k → k < w → p k = false) ∨
      ∃ m, ((List.range' n (w - n)).find? p).getD w = m ∧ n ≤ m ∧ m < w ∧ p m = true ∧
        ∀ k, n ≤ k → k < m → p k = false := by
  rcases h : (range' n (w - n)).find? p with _ | m
  · refine .inl ⟨rfl, fun k hnk hk => ?_⟩
    simpa using find?_eq_none.mp h k (by rw [mem_range'_1]; omega)
  · obtain ⟨hm, hmem, hmin⟩ := find?_range'_eq_some.mp h
    rw [mem_range'_1] at hmem
    exact .inr ⟨m, rfl, hmem.1, by omega, hm, fun k hnk hk => by simpa using hmin k hnk hk⟩

/-- The first bit from `n` on that is set, or the size. -/
def findNextBit (b : BitVec w) (n : ℕ) : ℕ := ((List.range' n (w - n)).find? b.getLsbD).getD w

theorem findNextBit_cases :
    (findNextBit b n = w ∧ ∀ k, n ≤ k → k < w → b.getLsbD k = false) ∨
      ∃ m, findNextBit b n = m ∧ n ≤ m ∧ m < w ∧ b.getLsbD m = true ∧
        ∀ k, n ≤ k → k < m → b.getLsbD k = false := find_range_cases

end FindNext

end LinuxKernel.Word
