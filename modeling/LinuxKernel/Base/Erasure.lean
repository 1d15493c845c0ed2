import Mathlib.Algebra.BigOperators.Ring.Finset
import Mathlib.Algebra.CharP.Two
import Mathlib.Tactic.FieldSimp
import Mathlib.Tactic.LinearCombination
import Mathlib.Tactic.Ring

/-! # Two sums and two erasures

The sum of some values and the sum weighted by powers of one element, in a field of characteristic
two, tell any two of the values from the others.
-/

namespace LinuxKernel.Erasure

open Finset

variable {F : Type*} [Field F]

section Sums

variable {N a b : ℕ} (w v : ℕ → F)

def without (a b : ℕ) (k : ℕ) : F := if k = a ∨ k = b then 0 else v k

theorem sum_without_one (ha : a < N) :
    ∑ k ∈ range N, w k * v k = w a * v a + ∑ k ∈ range N, w k * without v a a k := by
  rw [← add_sum_erase _ _ (mem_range.mpr ha),
    ← add_sum_erase _ (fun k => w k * without v a a k) (mem_range.mpr ha)]
  simp only [without, or_self, if_true, mul_zero, zero_add]
  congr 1
  refine sum_congr rfl fun k hk => ?_
  rw [if_neg (mem_erase.mp hk).1]

theorem sum_without (hab : a ≠ b) (ha : a < N) (hb : b < N) :
    ∑ k ∈ range N, w k * v k = w a * v a + w b * v b + ∑ k ∈ range N, w k * without v a b k := by
  have hcomp : ∀ k, without (without v a a) b b k = without v a b k := fun k => by
    by_cases hka : k = a <;> by_cases hkb : k = b <;> simp [without, hkb]
  rw [sum_without_one w v ha, sum_without_one w _ hb, add_assoc]
  simp only [hcomp]
  simp [without, hab.symm]

end Sums

variable [CharP F 2]

theorem recover_one {x a : F} (hx : x ≠ 0) {q q' : F} (hq : q = x * a + q') :
    x⁻¹ * (q + q') = a := by
  rw [hq, add_assoc, CharTwo.add_self_eq_zero, add_zero, inv_mul_cancel_left₀ hx]

theorem recover_two {x y a b : F} (hx : x ≠ 0) (hy : y + 1 ≠ 0) {p p' q q' : F}
    (hp : p = a + b + p') (hq : q = x * a + x * y * b + q') :
    (y + 1)⁻¹ * (p + p') + (x + x * y)⁻¹ * (q + q') = b := by
  have hp' : p + p' = a + b := by rw [hp, add_assoc, CharTwo.add_self_eq_zero, add_zero]
  have hq' : q + q' = x * (a + y * b) := by
    rw [hq, add_assoc, CharTwo.add_self_eq_zero]
    ring
  have hxy : x + x * y = x * (y + 1) := by ring
  have htwo : (2 : F) = 0 := CharTwo.two_eq_zero
  rw [hp', hq', hxy]
  field_simp
  linear_combination a * htwo

end LinuxKernel.Erasure
