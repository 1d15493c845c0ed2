import Mathlib.Algebra.Order.Group.Nat
import Mathlib.Data.Nat.Bitwise

/-! # Blocks of numbers with common leading digits

A block of level `l` holds the numbers that have the same digits from the `l`-th one on. A block is
full when all of its numbers have some property, which is so when the blocks of the level below are.
-/

namespace LinuxKernel.Radix

open Nat

variable {b l r x y m n : ℕ} {P : ℕ → Prop}

theorem div_pow_succ : x / b ^ (l + 1) = x / b ^ l / b := by
  rw [pow_succ, Nat.div_div_eq_div_mul]

theorem div_pow_eq : x / b ^ l = b * (x / b ^ (l + 1)) + x / b ^ l % b := by
  rw [div_pow_succ, div_add_mod]

theorem div_pow_congr {k : ℕ} (h : x / b ^ l = y / b ^ l) (hk : l ≤ k) : x / b ^ k = y / b ^ k := by
  rw [← Nat.add_sub_cancel' hk, pow_add, ← Nat.div_div_eq_div_mul, ← Nat.div_div_eq_div_mul, h]

theorem mod_pow_digit {k : ℕ} (hl : l < k) : x % b ^ k / b ^ l % b = x / b ^ l % b := by
  rw [← Nat.add_sub_cancel' hl.le, pow_add, mod_mul_right_div_self,
    mod_mod_of_dvd _ (dvd_pow_self b (sub_ne_zero_of_lt hl))]

section Full

def Full (P : ℕ → Prop) (b l r : ℕ) : Prop := ∀ x, x / b ^ l = r → P x

@[simp] theorem full_zero : Full P b 0 r ↔ P r := by
  simp [Full]

theorem full_succ (hb : 0 < b) : Full P b (l + 1) r ↔ ∀ n < b, Full P b l (b * r + n) := by
  constructor
  · rintro h n hn x hx
    refine h x ?_
    rw [div_pow_succ, hx, mul_add_div hb, div_eq_of_lt hn, add_zero]
  · rintro h x rfl
    exact h (x / b ^ l % b) (mod_lt _ hb) x div_pow_eq

theorem full_insert (hr : r ≠ x / b ^ l) : Full (fun y => y = x ∨ P y) b l r ↔ Full P b l r := by
  constructor
  · rintro h y rfl
    exact (h y rfl).resolve_left fun hyx => hr (by rw [hyx])
  · exact fun h y hy => .inr (h y hy)

theorem full_erase :
    Full (fun y => y ≠ x ∧ P y) b l r ↔ r ≠ x / b ^ l ∧ Full P b l r := by
  constructor
  · intro h
    refine ⟨fun hr => (h x hr.symm).1 rfl, fun y hy => (h y hy).2⟩
  · rintro ⟨hr, h⟩ y hy
    exact ⟨fun hyx => hr (by rw [← hy, hyx]), h y hy⟩

/-- The numbers from `x` on to the block with the last digit `m`, when the blocks in between are
full. -/
theorem full_between (hb : 0 < b)
    (h : ∀ k, x / b ^ l % b ≤ k → k < m → Full P b l (b * (x / b ^ (l + 1)) + k))
    (hxy : x ≤ y) (hy : y < (b * (x / b ^ (l + 1)) + m) * b ^ l) : P y := by
  have hlow : x / b ^ l ≤ y / b ^ l := Nat.div_le_div_right hxy
  have hhigh : y / b ^ l < b * (x / b ^ (l + 1)) + m := by
    rwa [div_lt_iff_lt_mul (Nat.pow_pos hb)]
  have heq : x / b ^ l = b * (x / b ^ (l + 1)) + x / b ^ l % b := div_pow_eq
  refine h (y / b ^ l - b * (x / b ^ (l + 1))) (by omega) (by omega) y (by omega)

end Full

section Binary

/-! The digits of a number are read and written with shifts and masks. -/

variable {k : ℕ}

theorem shiftRight_mul : x >>> (k * l) = x / (2 ^ k) ^ l := by
  rw [shiftRight_eq_div_pow, pow_mul]

theorem digit_eq : x >>> (k * l) &&& (2 ^ k - 1) = x / (2 ^ k) ^ l % 2 ^ k := by
  rw [shiftRight_mul, and_two_pow_sub_one_eq_mod]

theorem or_mask_add_one :
    (x ||| (1 <<< (k * l) - 1)) + 1 = (x / (2 ^ k) ^ l + 1) * (2 ^ k) ^ l := by
  rw [one_shiftLeft, ← pow_mul]
  generalize k * l = j
  have hpos : 0 < 2 ^ j := Nat.pow_pos (by omega)
  have hor : x ||| (2 ^ j - 1) = 2 ^ j * (x / 2 ^ j) + (2 ^ j - 1) := by
    rw [two_pow_add_eq_or_of_lt (sub_one_lt hpos.ne')]
    refine eq_of_testBit_eq fun i => ?_
    simp only [testBit_or, testBit_two_pow_mul, testBit_div_two_pow]
    by_cases hi : i < j
    · simp [hi]
    · simp [not_lt.mp hi]
  rw [add_mul, mul_comm]
  omega

theorem xor_digit (hm : m < 2 ^ k) : x ^^^ (x % 2 ^ k) ^^^ m = 2 ^ k * (x / 2 ^ k) + m := by
  rw [two_pow_add_eq_or_of_lt hm]
  refine eq_of_testBit_eq fun i => ?_
  simp only [testBit_or, testBit_two_pow_mul, testBit_div_two_pow]
  by_cases hi : i < k
  · simp [hi]
  · have hbit : m.testBit i = false := testBit_lt_two_pow
      (hm.trans_le (Nat.pow_le_pow_right (by omega) (not_lt.mp hi)))
    simp [hi, hbit, not_lt.mp hi]

end Binary

end LinuxKernel.Radix
