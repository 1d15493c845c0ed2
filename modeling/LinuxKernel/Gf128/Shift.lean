import LinuxKernel.Base.BinaryPoly
import LinuxKernel.Gf128.Model

/-! # The shifts multiply by powers of the root

A block is a class of polynomials modulo `X^128 + X^7 + X^2 + X + 1`. Each shift is linear, so it
suffices to know where it takes the powers of the root.
-/

namespace LinuxKernel.Gf128

open Polynomial Finset BinaryPoly BitVec
open AdjoinRoot (root)

section Orders

variable (x : Be128) (i : ℕ)

/-- In little-little-endian order byte `n` has the coefficients `8n` to `8n + 7`, with the lower
ones in the higher bits. -/
def coeffLle : Bool := (x.byte (i / 8)).getMsbD (i % 8)

/-- In big-big-endian order the last byte and its lowest bit come first. -/
def coeffBbe : Bool := (x.byte (15 - i / 8)).getLsbD (i % 8)

/-- The powers of the root below 128. -/
def powerLle : Be128 := if i < 64 then ⟨twoPow 64 (63 - i), 0⟩ else ⟨0, twoPow 64 (127 - i)⟩

def powerBbe : Be128 := if i < 64 then ⟨0, twoPow 64 i⟩ else ⟨twoPow 64 (i - 64), 0⟩

end Orders

noncomputable def modulus : (ZMod 2)[X] := X ^ 128 + X ^ 7 + X ^ 2 + X + 1

theorem modulus_eq : modulus = X ^ 128 + (X ^ 7 + X ^ 2 + X + 1) := by
  unfold modulus
  simp only [add_assoc]

theorem degree_tail : (X ^ 7 + X ^ 2 + X + 1 : (ZMod 2)[X]).degree < (128 : ℕ) := by
  have h : (X ^ 7 + X ^ 2 + X + 1 : (ZMod 2)[X]).natDegree ≤ 7 := by compute_degree
  exact (degree_le_of_natDegree_le h).trans_lt (Nat.cast_lt.mpr (by decide))

theorem modulus_monic : modulus.Monic := by
  rw [modulus_eq]
  exact monic_X_pow_add degree_tail

theorem degree_modulus : modulus.degree = (128 : ℕ) := by
  rw [modulus_eq, degree_add_eq_left_of_degree_lt, degree_X_pow]
  exact degree_tail.trans_eq (degree_X_pow 128).symm

abbrev Field := AdjoinRoot modulus

noncomputable def value (coeff : Be128 → ℕ → Bool) (x : Be128) : Field :=
  AdjoinRoot.mk modulus (poly 128 (coeff x))

/-- An order of the coefficients, with the shifts in this order. -/
structure Order (coeff : Be128 → ℕ → Bool) (power : ℕ → Be128) (mulX mulX8 : Be128 → Be128) :
    Prop where
  coeff_xor : ∀ x y i, coeff (be128Xor x y) i = (coeff x i ^^ coeff y i)
  coeff_power : ∀ j < 128, ∀ i < 128, coeff (power j) i = decide (i = j)
  exists_power : ∀ i < 64, (∃ j < 128, power j = ⟨twoPow 64 i, 0⟩) ∧
    ∃ j < 128, power j = ⟨0, twoPow 64 i⟩
  ext : ∀ x y, (∀ i < 128, coeff x i = coeff y i) → x = y
  mulX_xor : ∀ x y, mulX (be128Xor x y) = be128Xor (mulX x) (mulX y)
  mulX8_xor : ∀ x y, mulX8 (be128Xor x y) = be128Xor (mulX8 x) (mulX8 y)
  mulX_power : ∀ j < 127, mulX (power j) = power (j + 1)
  mulX_last : mulX (power 127) =
    be128Xor (be128Xor (power 7) (power 2)) (be128Xor (power 1) (power 0))
  mulX8_power : ∀ j < 120, mulX8 (power j) = power (j + 8)
  mulX8_last : ∀ j < 8, mulX8 (power (120 + j)) =
    be128Xor (be128Xor (power (j + 7)) (power (j + 2))) (be128Xor (power (j + 1)) (power j))

section Bits

variable {x y : Be128} {i j k m : ℕ}

theorem getLsbD_byte (hm : m < 8) :
    (x.byte k).getLsbD m = (x.a ++ x.b).getLsbD (8 * (15 - k) + m) := by
  rw [Be128.byte, getLsbD_append]
  split
  · rw [if_neg (by omega), getLsbD_setWidth, getLsbD_ushiftRight, decide_eq_true hm, Bool.true_and]
    congr 1
    omega
  · rw [if_pos (by omega), getLsbD_setWidth, getLsbD_ushiftRight, decide_eq_true hm, Bool.true_and]
    congr 1
    omega

theorem coeffLle_eq (hi : i < 128) : coeffLle x i = (x.a ++ x.b).getLsbD (127 - i) := by
  rw [coeffLle, getMsbD_eq_getLsbD, decide_eq_true (by omega), Bool.true_and,
    getLsbD_byte (by omega)]
  congr 1
  omega

theorem coeffBbe_eq (hi : i < 128) : coeffBbe x i = (x.a ++ x.b).getLsbD i := by
  rw [coeffBbe, getLsbD_byte (by omega)]
  congr 1
  omega

theorem getLsbD_single (h : j < 64) :
    (twoPow 64 j ++ 0#64).getLsbD i = decide (i = 64 + j) ∧
      (0#64 ++ twoPow 64 j).getLsbD i = decide (i = j) := by
  rw [getLsbD_append, getLsbD_append]
  refine ⟨Bool.eq_iff_iff.mpr ?_, Bool.eq_iff_iff.mpr ?_⟩
  · by_cases hi : i < 64 <;> simp [hi] <;> omega
  · by_cases hi : i < 64 <;> simp [hi]
    omega

theorem append_injective (h : ∀ i < 128, (x.a ++ x.b).getLsbD i = (y.a ++ y.b).getLsbD i) :
    x = y := by
  obtain ⟨a, b⟩ := x
  congr 1
  · refine eq_of_getLsbD_eq fun i hi => ?_
    have hbit := h (64 + i) (by omega)
    rw [getLsbD_append, getLsbD_append, if_neg (by omega), if_neg (by omega),
      Nat.add_sub_cancel_left] at hbit
    exact hbit
  · refine eq_of_getLsbD_eq fun i hi => ?_
    have hbit := h i (by omega)
    rwa [getLsbD_append, getLsbD_append, if_pos hi, if_pos hi] at hbit

end Bits

section Linear

variable {x y : Be128}

theorem byte_xor (x y : Be128) (i : ℕ) : (be128Xor x y).byte i = x.byte i ^^^ y.byte i := by
  simp only [Be128.byte, be128Xor]
  split <;> rw [ushiftRight_xor_distrib, setWidth_xor]

theorem and_bit : ∀ i : BitVec 8, (i &&& 0x80 ≠ 0 ↔ i.getLsbD 7) ∧ (i &&& 0x40 ≠ 0 ↔ i.getLsbD 6) ∧
    (i &&& 0x20 ≠ 0 ↔ i.getLsbD 5) ∧ (i &&& 0x10 ≠ 0 ↔ i.getLsbD 4) ∧
    (i &&& 0x08 ≠ 0 ↔ i.getLsbD 3) ∧ (i &&& 0x04 ≠ 0 ↔ i.getLsbD 2) ∧
    (i &&& 0x02 ≠ 0 ↔ i.getLsbD 1) ∧ (i &&& 0x01 ≠ 0 ↔ i.getLsbD 0) := by
  decide +kernel

theorem ite_xor (p q : Bool) (w : BitVec 16) : (if (p ^^ q) = true then w else 0) =
    (if p = true then w else 0) ^^^ if q = true then w else 0 := by
  cases p <;> cases q <;> simp

theorem xda_xor (w7 w6 w5 w4 w3 w2 w1 w0 : BitVec 16) (i j : BitVec 8) :
    xda w7 w6 w5 w4 w3 w2 w1 w0 (i ^^^ j) =
      xda w7 w6 w5 w4 w3 w2 w1 w0 i ^^^ xda w7 w6 w5 w4 w3 w2 w1 w0 j := by
  simp only [xda, and_bit, getLsbD_xor, ite_xor]
  ac_rfl

theorem or_shift_xor {k l : ℕ} (hkl : k + l = 64) (a b a' b' : BitVec 64) :
    (b ^^^ b') >>> k ||| (a ^^^ a') <<< l = (b >>> k ||| a <<< l) ^^^ (b' >>> k ||| a' <<< l) := by
  refine eq_of_getLsbD_eq fun i hi => ?_
  simp only [getLsbD_or, getLsbD_xor, getLsbD_ushiftRight]
  by_cases hil : i < l
  · simp [hil]
  · rw [getLsbD_of_ge b _ (by omega), getLsbD_of_ge b' _ (by omega)]
    simp [hil, hi]

theorem shift_or_xor {k l : ℕ} (hkl : k + l = 64) (a b a' b' : BitVec 64) :
    (a ^^^ a') <<< l ||| (b ^^^ b') >>> k = (a <<< l ||| b >>> k) ^^^ (a' <<< l ||| b' >>> k) := by
  rw [BitVec.or_comm, or_shift_xor hkl, BitVec.or_comm, or_comm (a' <<< l)]

theorem xor_xor_xor_comm (a b c d : BitVec 64) : a ^^^ b ^^^ (c ^^^ d) = a ^^^ c ^^^ (b ^^^ d) := by
  ac_rfl

theorem gf128mulXLle_xor (x y : Be128) : gf128mulXLle (be128Xor x y) =
    be128Xor (gf128mulXLle x) (gf128mulXLle y) := by
  simp only [gf128mulXLle, gf128mulTableLle, be128Xor, Be128.mk.injEq]
  refine ⟨?_, or_shift_xor rfl ..⟩
  rw [ushiftRight_xor_distrib, shiftLeft_xor_distrib, setWidth_xor, xda_xor,
    setWidth_xor, shiftLeft_xor_distrib, xor_xor_xor_comm]

theorem gf128mulX8Lle_xor (x y : Be128) : gf128mulX8Lle (be128Xor x y) =
    be128Xor (gf128mulX8Lle x) (gf128mulX8Lle y) := by
  simp only [gf128mulX8Lle, gf128mulTableLle, be128Xor, Be128.mk.injEq]
  refine ⟨?_, or_shift_xor rfl ..⟩
  rw [ushiftRight_xor_distrib, setWidth_xor, xda_xor, setWidth_xor,
    shiftLeft_xor_distrib, xor_xor_xor_comm]

theorem gf128mulXBbe_xor (x y : Be128) : gf128mulXBbe (be128Xor x y) =
    be128Xor (gf128mulXBbe x) (gf128mulXBbe y) := by
  simp only [gf128mulXBbe, gf128mulTableBbe, be128Xor, Be128.mk.injEq]
  refine ⟨shift_or_xor rfl .., ?_⟩
  rw [ushiftRight_xor_distrib, setWidth_xor, xda_xor, setWidth_xor,
    shiftLeft_xor_distrib, xor_xor_xor_comm]

theorem gf128mulX8Bbe_xor (x y : Be128) : gf128mulX8Bbe (be128Xor x y) =
    be128Xor (gf128mulX8Bbe x) (gf128mulX8Bbe y) := by
  simp only [gf128mulX8Bbe, gf128mulTableBbe, be128Xor, Be128.mk.injEq]
  refine ⟨shift_or_xor rfl .., ?_⟩
  rw [ushiftRight_xor_distrib, setWidth_xor, xda_xor, setWidth_xor,
    shiftLeft_xor_distrib, xor_xor_xor_comm]

end Linear

theorem orderLle : Order coeffLle powerLle gf128mulXLle gf128mulX8Lle where
  coeff_xor x y i := by rw [coeffLle, byte_xor, getMsbD_xor]; rfl
  coeff_power j hj i hi := by
    rw [coeffLle_eq hi, powerLle]
    split
    · exact (getLsbD_single (by omega)).1.trans (by congr 1; simp; omega)
    · exact (getLsbD_single (by omega)).2.trans (by congr 1; simp; omega)
  exists_power i hi := by
    refine ⟨⟨63 - i, by omega, ?_⟩, 127 - i, by omega, ?_⟩
    · rw [powerLle, if_pos (by omega), Nat.sub_sub_self (by omega)]
    · rw [powerLle, if_neg (by omega), Nat.sub_sub_self (by omega)]
  ext x y h := append_injective fun i hi => by
    have hbit := h (127 - i) (by omega)
    rwa [coeffLle_eq (by omega), coeffLle_eq (by omega), Nat.sub_sub_self (by omega)] at hbit
  mulX_xor := gf128mulXLle_xor
  mulX8_xor := gf128mulX8Lle_xor
  mulX_power := by decide +kernel
  mulX_last := by decide +kernel
  mulX8_power := by decide +kernel
  mulX8_last := by decide +kernel

theorem orderBbe : Order coeffBbe powerBbe gf128mulXBbe gf128mulX8Bbe where
  coeff_xor x y i := by rw [coeffBbe, byte_xor, getLsbD_xor]; rfl
  coeff_power j hj i hi := by
    rw [coeffBbe_eq hi, powerBbe]
    split
    · exact (getLsbD_single (by omega)).2
    · exact (getLsbD_single (by omega)).1.trans (by congr 1; simp; omega)
  exists_power i hi := by
    refine ⟨⟨64 + i, by omega, ?_⟩, i, by omega, if_pos hi⟩
    rw [powerBbe, if_neg (by omega), Nat.add_sub_cancel_left]
  ext x y h := append_injective fun i hi => by
    have hbit := h i hi
    rwa [coeffBbe_eq hi, coeffBbe_eq hi] at hbit
  mulX_xor := gf128mulXBbe_xor
  mulX8_xor := gf128mulX8Bbe_xor
  mulX_power := by decide +kernel
  mulX_last := by decide +kernel
  mulX8_power := by decide +kernel
  mulX8_last := by decide +kernel

namespace Order

variable {coeff : Be128 → ℕ → Bool} {power : ℕ → Be128} {mulX mulX8 : Be128 → Be128}

section

variable (h : Order coeff power mulX mulX8)
include h

theorem value_xor (x y : Be128) : value coeff (be128Xor x y) = value coeff x + value coeff y := by
  rw [value, funext (h.coeff_xor x y), poly_xor, map_add]
  rfl

theorem value_zero : value coeff .zero = 0 := by
  have hzero := h.value_xor .zero .zero
  exact left_eq_add.mp hzero

theorem value_injective {x y : Be128} (hxy : value coeff x = value coeff y) : x = y :=
  h.ext x y fun _ hi => mk_poly_injective modulus_monic degree_modulus hxy hi

theorem value_power {j : ℕ} (hj : j < 128) : value coeff (power j) = root modulus ^ j := by
  have hpoly : poly 128 (coeff (power j)) = X ^ j := by
    rw [poly, sum_congr rfl fun i hi => by rw [h.coeff_power j hj i (mem_range.mp hi)]]
    simp [hj]
  rw [value, hpoly, map_pow, AdjoinRoot.mk_X]

/-- Additive functions that agree on the powers are equal. -/
theorem additive_ext {A : Type*} [AddGroup A] {f g : Be128 → A}
    (hf : ∀ x y, f (be128Xor x y) = f x + f y) (hg : ∀ x y, g (be128Xor x y) = g x + g y)
    (hpower : ∀ j < 128, f (power j) = g (power j)) (x : Be128) : f x = g x := by
  have hsplit : x = be128Xor ⟨x.a, 0⟩ ⟨0, x.b⟩ := by simp [be128Xor]
  have ha := BinaryPoly.additive_ext (f := fun a => f ⟨a, 0⟩) (g := fun a => g ⟨a, 0⟩)
    (fun a a' => by simpa [be128Xor] using hf ⟨a, 0⟩ ⟨a', 0⟩)
    (fun a a' => by simpa [be128Xor] using hg ⟨a, 0⟩ ⟨a', 0⟩)
    (fun i hi => by obtain ⟨⟨j, hj, heq⟩, -⟩ := h.exists_power i hi; exact heq ▸ hpower j hj) x.a
  have hb := BinaryPoly.additive_ext (f := fun b => f ⟨0, b⟩) (g := fun b => g ⟨0, b⟩)
    (fun b b' => by simpa [be128Xor] using hf ⟨0, b⟩ ⟨0, b'⟩)
    (fun b b' => by simpa [be128Xor] using hg ⟨0, b⟩ ⟨0, b'⟩)
    (fun i hi => by obtain ⟨-, j, hj, heq⟩ := h.exists_power i hi; exact heq ▸ hpower j hj) x.b
  rw [hsplit, hf, hg, ha, hb]

end

theorem root_pow : root modulus ^ 128 =
    root modulus ^ 7 + root modulus ^ 2 + (root modulus + 1) := by
  have hzero : AdjoinRoot.mk modulus (X ^ 128 + (X ^ 7 + X ^ 2 + X + 1)) = 0 := by
    rw [← modulus_eq, AdjoinRoot.mk_self]
  have htwo : ∀ p : (ZMod 2)[X], AdjoinRoot.mk modulus p + AdjoinRoot.mk modulus p = 0 :=
    fun p => by rw [← map_add, CharTwo.add_self_eq_zero, map_zero]
  rw [map_add] at hzero
  have heq := add_right_cancel (hzero.trans (htwo (X ^ 7 + X ^ 2 + X + 1)).symm)
  simpa only [map_add, map_pow, map_one, AdjoinRoot.mk_X, add_assoc] using heq

theorem root_pow_add (k : ℕ) : root modulus ^ (128 + k) =
    root modulus ^ (k + 7) + root modulus ^ (k + 2) +
      (root modulus ^ (k + 1) + root modulus ^ k) := by
  rw [pow_add, root_pow]
  ring

section

variable (h : Order coeff power mulX mulX8)
include h

theorem value_linear {f : Be128 → Be128} {c : Field}
    (hf : ∀ x y, f (be128Xor x y) = be128Xor (f x) (f y))
    (hpower : ∀ j < 128, value coeff (f (power j)) = c * root modulus ^ j) (x : Be128) :
    value coeff (f x) = c * value coeff x := by
  refine h.additive_ext (f := fun x => value coeff (f x)) (g := fun x => c * value coeff x)
    (fun x y => by rw [hf, h.value_xor]) (fun x y => by rw [h.value_xor, left_distrib])
    (fun j hj => ?_) x
  rw [hpower j hj, h.value_power hj]

theorem value_mulX (x : Be128) : value coeff (mulX x) = root modulus * value coeff x := by
  refine h.value_linear h.mulX_xor (fun j hj => ?_) x
  rw [← pow_succ']
  rcases lt_or_ge j 127 with hj' | hj'
  · rw [h.mulX_power j hj', h.value_power (by omega)]
  · obtain rfl : j = 127 := by omega
    rw [h.mulX_last, h.value_xor, h.value_xor, h.value_xor, h.value_power (by decide),
      h.value_power (by decide), h.value_power (by decide), h.value_power (by decide)]
    exact (root_pow_add 0).symm

theorem value_mulX8 (x : Be128) : value coeff (mulX8 x) = root modulus ^ 8 * value coeff x := by
  refine h.value_linear h.mulX8_xor (fun j hj => ?_) x
  rw [← pow_add]
  rcases lt_or_ge j 120 with hj' | hj'
  · rw [h.mulX8_power j hj', h.value_power (by omega), add_comm 8 j]
  · obtain ⟨k, rfl⟩ := Nat.exists_eq_add_of_le hj'
    have hexp : 8 + (120 + k) = 128 + k := by omega
    rw [h.mulX8_last k (by omega), h.value_xor, h.value_xor, h.value_xor, h.value_power (by omega),
      h.value_power (by omega), h.value_power (by omega), h.value_power (by omega), hexp,
      root_pow_add]

end

end Order

end LinuxKernel.Gf128
