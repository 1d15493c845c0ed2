import Mathlib.Algebra.Field.ZMod
import Mathlib.Data.BitVec
import Mathlib.RingTheory.AdjoinRoot

/-! # Bits as a polynomial over the field of two elements

The bits of a word are the coefficients of a polynomial of bounded degree. A function of words that
turns `xor` into a sum is determined by its values at the single bits.
-/

namespace LinuxKernel.BinaryPoly

open Polynomial Finset
open AdjoinRoot (mk root)

section Poly

variable {n : ℕ} {c d : ℕ → Bool}

noncomputable def poly (n : ℕ) (c : ℕ → Bool) : (ZMod 2)[X] :=
  ∑ i ∈ range n, if c i then X ^ i else 0

theorem coeff_poly (i : ℕ) : (poly n c).coeff i = if i < n ∧ c i then 1 else 0 := by
  have hterm : ∀ j, (if c j then X ^ j else (0 : (ZMod 2)[X])).coeff i =
      if i = j then if c i then 1 else 0 else 0 := fun j => by
    by_cases hij : i = j
    · subst hij
      by_cases hc : c i <;> simp [hc]
    · by_cases hc : c j <;> simp [hc, hij]
  rw [poly, finsetSum_coeff, sum_congr rfl fun j _ => hterm j, sum_ite_eq, ite_and]
  simp only [mem_range]

theorem poly_xor : poly n (fun i => c i ^^ d i) = poly n c + poly n d := by
  rw [poly, poly, poly, ← sum_add_distrib]
  refine sum_congr rfl fun i _ => ?_
  cases c i <;> cases d i
  · simp
  · simp
  · simp
  · exact (CharTwo.add_self_eq_zero (X ^ i : (ZMod 2)[X])).symm

theorem poly_injective (h : poly n c = poly n d) {i : ℕ} (hi : i < n) : c i = d i := by
  have hcoeff := congrArg (fun p => p.coeff i) h
  simp only [coeff_poly, hi] at hcoeff
  cases hc : c i <;> cases hd : d i <;> simp [hc, hd] at hcoeff ⊢

theorem degree_poly_lt : (poly n c).degree < n := by
  refine (degree_lt_iff_coeff_zero _ _).mpr fun i hi => ?_
  rw [coeff_poly, if_neg fun h => (hi.trans_lt h.1).false]

variable {p q : (ZMod 2)[X]}

theorem poly_eq_modByMonic (hp : p.Monic) (hdegree : p.degree = n)
    (h : mk p (poly n c) = mk p q) : poly n c = q %ₘ p := by
  rw [← modByMonic_eq_of_dvd_sub hp (AdjoinRoot.mk_eq_mk.mp h),
    (modByMonic_eq_self_iff hp).mpr (hdegree ▸ degree_poly_lt)]

theorem mk_poly_injective (hp : p.Monic) (hdegree : p.degree = n)
    (h : mk p (poly n c) = mk p (poly n d)) {i : ℕ} (hi : i < n) :
    c i = d i := by
  refine poly_injective ?_ hi
  rw [poly_eq_modByMonic hp hdegree h, (modByMonic_eq_self_iff hp).mpr (hdegree ▸ degree_poly_lt)]

theorem mk_poly_mul {k b : ℕ} : mk p (poly (b * k) c) =
    ∑ i ∈ range k, root p ^ (b * i) * ∑ j ∈ range b, if c (b * i + j) then root p ^ j else 0 := by
  have hmk : ∀ n, mk p (poly n c) = ∑ i ∈ range n, if c i then root p ^ i else 0 := fun n => by
    rw [poly, map_sum]
    exact sum_congr rfl fun i _ => by split <;> simp
  rw [hmk]
  induction k with
  | zero => simp
  | succ k ih =>
    rw [Nat.mul_succ, sum_range_add, sum_range_succ, mul_sum]
    congr 1
    exact sum_congr rfl fun j _ => by rw [mul_ite, mul_zero, pow_add]

end Poly

section Additive

variable {n : ℕ} {A : Type*} [AddGroup A] {f g : BitVec n → A}

variable (hf : ∀ x y, f (x ^^^ y) = f x + f y)
include hf

theorem additive_zero : f 0#n = 0 := by
  have h := hf 0#n 0#n
  rw [BitVec.xor_self] at h
  exact left_eq_add.mp h

theorem additive_ext (hg : ∀ x y, g (x ^^^ y) = g x + g y)
    (h : ∀ i < n, f (BitVec.twoPow n i) = g (BitVec.twoPow n i)) (x : BitVec n) : f x = g x := by
  suffices hlow : ∀ k ≤ n, ∀ x : BitVec n, (∀ i, k ≤ i → x.getLsbD i = false) → f x = g x from
    hlow n le_rfl x fun i hi => BitVec.getLsbD_of_ge x i hi
  intro k
  -- the highest bit is taken away
  induction k with
  | zero =>
    intro _ x hx
    have hzero : x = 0#n := BitVec.eq_of_getLsbD_eq fun i _ => by simp [hx i (Nat.zero_le i)]
    rw [hzero, additive_zero hf, additive_zero hg]
  | succ k ih =>
    intro hk x hx
    by_cases hbit : x.getLsbD k
    · have hrest := ih (by omega) (x ^^^ BitVec.twoPow n k) fun i hi => by
        by_cases hik : k = i
        · subst hik
          simp [hbit]
          omega
        · simp [hx i (by omega), hik]
      have hx : x = (x ^^^ BitVec.twoPow n k) ^^^ BitVec.twoPow n k := by
        rw [BitVec.xor_assoc, BitVec.xor_self, BitVec.xor_zero]
      rw [hx, hf, hg, hrest, h k (by omega)]
    · refine ih (by omega) x fun i hi => ?_
      rcases hi.eq_or_lt with rfl | hi
      · simpa using hbit
      · exact hx i hi

end Additive

section Horner

variable {R : Type*} [CommSemiring R] {y : R} {s : ℕ → R}

theorem foldl_horner (n : ℕ) : (List.range' 1 n).foldl (fun r i => y * r + s i) (s 0) =
    ∑ i ∈ range (n + 1), y ^ i * s (n - i) := by
  induction n with
  | zero => simp
  | succ n ih =>
    rw [List.range'_concat, List.foldl_append, List.foldl_cons, List.foldl_nil, ih,
      sum_range_succ' _ (n + 1), mul_sum]
    congr 1
    · refine sum_congr rfl fun i _ => ?_
      rw [pow_succ', mul_assoc, Nat.add_sub_add_right]
    · simp [add_comm]

end Horner

end LinuxKernel.BinaryPoly
