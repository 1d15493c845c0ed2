import Mathlib.Data.BitVec
import Mathlib.Algebra.Field.MinimalAxioms
import Mathlib.GroupTheory.OrderOfElement
import Mathlib.Tactic.NormNum.Prime

/-! # The tables of RAID-6

`mktables` computes multiplication, powers of two and inverses of bytes. Multiplication is a loop
over the bits of one factor, and the bytes with it and with exclusive or are a field.
-/

namespace LinuxKernel.Raid6

open BitVec Finset

section Source

/-- `(a << 1) ^ (a & 0x80 ? 0x1d : 0)`. -/
def double (a : BitVec 8) : BitVec 8 := a <<< 1 ^^^ if a.getLsbD 7 then 0x1d#8 else 0#8

/-- The loop of `gfmul`; after as many rounds as `b` has bits nothing is left of it. -/
def gfmulLoop : ℕ → BitVec 8 → BitVec 8 → BitVec 8 → BitVec 8
  | 0, v, _, _ => v
  | n + 1, v, a, b =>
    if b = 0#8 then v
    else gfmulLoop n (if b.getLsbD 0 then v ^^^ a else v) (double a) (b >>> 1)

def gfmul (a b : BitVec 8) : BitVec 8 := gfmulLoop 8 0#8 a b

def gfpowLoop : ℕ → BitVec 8 → BitVec 8 → ℕ → BitVec 8
  | 0, v, _, _ => v
  | n + 1, v, a, b =>
    if b = 0 then v
    else gfpowLoop n (if b % 2 = 1 then gfmul v a else v) (gfmul a a) (b / 2)

def gfpow (a : BitVec 8) (b : ℤ) : BitVec 8 :=
  let b := b.tmod 255
  let b := if b < 0 then b + 255 else b
  gfpowLoop 8 1 a b.toNat

/-- The table of the powers of two, from its first entry on. -/
def exptbl : ℕ → BitVec 8
  | 0 => 1
  | i + 1 =>
    let v := gfmul (exptbl i) 2
    if v = 1 then 0 else v

def invtbl (i : BitVec 8) : BitVec 8 := gfpow i 254

/-- `raid6_gfexi`. -/
def exitbl (i : ℕ) : BitVec 8 := invtbl (exptbl i ^^^ 1)

end Source

section Multiplication

/-- The sum of the doubles of `a` for the low bits of `b`. -/
def mulBits : ℕ → BitVec 8 → BitVec 8 → BitVec 8
  | 0, _, _ => 0#8
  | n + 1, a, b => (if b.getLsbD 0 then a else 0#8) ^^^ mulBits n (double a) (b >>> 1)

theorem mulBits_zero (n : ℕ) (a : BitVec 8) : mulBits n a 0#8 = 0#8 := by
  induction n generalizing a with
  | zero => rfl
  | succ n ih => simpa [mulBits] using ih (double a)

theorem gfmulLoop_eq (n : ℕ) (v a b : BitVec 8) : gfmulLoop n v a b = v ^^^ mulBits n a b := by
  induction n generalizing v a b with
  | zero => simp [gfmulLoop, mulBits]
  | succ n ih =>
    rw [gfmulLoop]
    split
    · next hb => simp [hb, mulBits_zero]
    · rw [ih, mulBits]
      split <;> simp [xor_assoc]

theorem gfmul_eq (a b : BitVec 8) : gfmul a b = mulBits 8 a b := by
  simp [gfmul, gfmulLoop_eq]

theorem double_zero : double 0#8 = 0#8 := by decide

theorem xor_xor_xor_comm (x y z w : BitVec 8) : x ^^^ y ^^^ (z ^^^ w) = x ^^^ z ^^^ (y ^^^ w) := by
  ac_rfl

theorem double_xor (a b : BitVec 8) : double (a ^^^ b) = double a ^^^ double b := by
  simp only [double, shiftLeft_xor_distrib, getLsbD_xor]
  rw [xor_xor_xor_comm]
  cases a.getLsbD 7 <;> cases b.getLsbD 7 <;> simp

theorem mulBits_xor_left (n : ℕ) (a a' b : BitVec 8) :
    mulBits n (a ^^^ a') b = mulBits n a b ^^^ mulBits n a' b := by
  induction n generalizing a a' b with
  | zero => simp [mulBits]
  | succ n ih =>
    simp only [mulBits, double_xor, ih]
    rw [xor_xor_xor_comm]
    split <;> simp

theorem mulBits_xor_right (n : ℕ) (a b b' : BitVec 8) :
    mulBits n a (b ^^^ b') = mulBits n a b ^^^ mulBits n a b' := by
  induction n generalizing a b b' with
  | zero => simp [mulBits]
  | succ n ih =>
    simp only [mulBits, ushiftRight_xor_distrib, ih, getLsbD_xor]
    rw [xor_xor_xor_comm]
    cases b.getLsbD 0 <;> cases b'.getLsbD 0 <;> simp

theorem mulBits_double_left (n : ℕ) (a b : BitVec 8) :
    mulBits n (double a) b = double (mulBits n a b) := by
  induction n generalizing a b with
  | zero => simp [mulBits, double_zero]
  | succ n ih =>
    simp only [mulBits, double_xor, ih]
    split <;> simp [double_zero]

theorem mulBits_congr (n : ℕ) (a : BitVec 8) {b b' : BitVec 8}
    (h : ∀ i < n, b.getLsbD i = b'.getLsbD i) : mulBits n a b = mulBits n a b' := by
  induction n generalizing a b b' with
  | zero => rfl
  | succ n ih =>
    simp only [mulBits]
    rw [h 0 (by omega), ih (double a) fun i hi => ?_]
    simpa using h (1 + i) (by omega)

theorem mulBits_succ_last (n : ℕ) (a b : BitVec 8) :
    mulBits (n + 1) a b = mulBits n a b ^^^ if b.getLsbD n then double^[n] a else 0#8 := by
  induction n generalizing a b with
  | zero => simp [mulBits]
  | succ n ih =>
    rw [mulBits, ih, mulBits, xor_assoc]
    simp [add_comm 1 n]

theorem gfmul_reduce : ∀ a, double^[8] a = gfmul a 0x1d#8 := by decide +kernel

theorem gfmul_double_left (a b : BitVec 8) : gfmul (double a) b = double (gfmul a b) := by
  simp [gfmul_eq, mulBits_double_left]

theorem gfmul_double_right (a b : BitVec 8) : gfmul a (double b) = double (gfmul a b) := by
  -- the shift moves all bits but the last, and that one is what is reduced
  have hshift : mulBits 8 a (b <<< 1) = mulBits 7 (double a) b := by
    rw [mulBits]
    simp only [getLsbD_shiftLeft]
    simp only [Nat.lt_one_iff, decide_true, Bool.not_true, Bool.and_false, Bool.false_and,
      Bool.false_eq_true, if_false, zero_xor]
    refine mulBits_congr 7 _ fun i hi => ?_
    simp
    omega
  have hlast : double (mulBits 8 a b) =
      mulBits 7 (double a) b ^^^ if b.getLsbD 7 then double^[8] a else 0#8 := by
    rw [← mulBits_double_left, mulBits_succ_last, Function.iterate_succ_apply _ 7]
  rw [gfmul_eq, gfmul_eq a b, hlast, double, mulBits_xor_right, hshift]
  split
  · rw [gfmul_reduce, gfmul_eq]
  · rw [mulBits_zero]

end Multiplication

section Laws

theorem gfmul_xor_left (a b c : BitVec 8) : gfmul (a ^^^ b) c = gfmul a c ^^^ gfmul b c := by
  simp only [gfmul_eq, mulBits_xor_left]

theorem gfmul_xor_right (a b c : BitVec 8) : gfmul a (b ^^^ c) = gfmul a b ^^^ gfmul a c := by
  simp only [gfmul_eq, mulBits_xor_right]

theorem gfmul_zero (a : BitVec 8) : gfmul a 0#8 = 0#8 := by
  rw [gfmul_eq, mulBits_zero]

theorem zero_gfmul (b : BitVec 8) : gfmul 0#8 b = 0#8 := by
  have h := gfmul_xor_left 0#8 0#8 b
  simpa using h

theorem one_gfmul : ∀ b, gfmul 1#8 b = b := by decide +kernel

/-- A map that keeps sums and doubles keeps the sum over bits. -/
theorem mulBits_map {f : BitVec 8 → BitVec 8} (hx : ∀ a b, f (a ^^^ b) = f a ^^^ f b)
    (h0 : f 0#8 = 0#8) (hd : ∀ a, f (double a) = double (f a)) (n : ℕ) (a b : BitVec 8) :
    f (mulBits n a b) = mulBits n (f a) b := by
  induction n generalizing a b with
  | zero => exact h0
  | succ n ih =>
    simp only [mulBits, hx, ih, hd]
    split
    · rfl
    · rw [h0]

theorem gfmul_assoc (a b c : BitVec 8) : gfmul (gfmul a b) c = gfmul a (gfmul b c) := by
  rw [gfmul_eq b c, mulBits_map (gfmul_xor_right a) (gfmul_zero a) (gfmul_double_right a),
    gfmul_eq (gfmul a b) c]

theorem gfmul_comm (a b : BitVec 8) : gfmul a b = gfmul b a := by
  have h := mulBits_map (f := fun x => gfmul x b) (fun x y => gfmul_xor_left x y b) (zero_gfmul b)
    (fun x => gfmul_double_left x b) 8 1#8 a
  rwa [← gfmul_eq, one_gfmul, one_gfmul, ← gfmul_eq] at h

-- from here on only the laws count
attribute [irreducible] gfmul

end Laws

section Field

/-- The bytes, with exclusive or as their sum. -/
@[ext] structure GF256 where
  byte : BitVec 8
deriving DecidableEq

namespace GF256

instance : Add GF256 := ⟨fun a b => ⟨a.byte ^^^ b.byte⟩⟩
instance : Neg GF256 := ⟨fun a => a⟩
instance : Mul GF256 := ⟨fun a b => ⟨gfmul a.byte b.byte⟩⟩
instance : Zero GF256 := ⟨⟨0#8⟩⟩
instance : One GF256 := ⟨⟨1#8⟩⟩

instance : CommRing GF256 :=
  CommRing.ofMinimalAxioms
    (fun _ _ _ => GF256.ext (BitVec.xor_assoc ..))
    (fun _ => GF256.ext zero_xor)
    (fun _ => GF256.ext BitVec.xor_self)
    (fun _ _ _ => GF256.ext (gfmul_assoc ..))
    (fun _ _ => GF256.ext (gfmul_comm ..))
    (fun _ => GF256.ext (one_gfmul _))
    (fun _ _ _ => GF256.ext (gfmul_xor_right ..))

@[simp] theorem byte_add (a b : GF256) : (a + b).byte = a.byte ^^^ b.byte := rfl

@[simp] theorem byte_mul (a b : GF256) : (a * b).byte = gfmul a.byte b.byte := rfl

/-- What a byte is doubled with. -/
def g : GF256 := ⟨2#8⟩

theorem byte_g_mul (a : GF256) : (g * a).byte = double a.byte := by
  have h : gfmul a.byte 2#8 = double a.byte := by simp [gfmul, gfmulLoop]
  rw [mul_comm]
  exact h

/-- It generates all bytes but zero. -/
theorem orderOf_g : orderOf g = 255 := by
  refine orderOf_eq_of_pow_and_pow_div_prime (by decide) (by decide +kernel) fun p hp hdvd => ?_
  have hmem : p = 3 ∨ p = 5 ∨ p = 17 := by
    rw [show 255 = 3 * (5 * 17) by rfl, hp.dvd_mul, hp.dvd_mul] at hdvd
    rcases hdvd with h | h | h
    · exact .inl ((Nat.prime_dvd_prime_iff_eq hp (by norm_num)).mp h)
    · exact .inr (.inl ((Nat.prime_dvd_prime_iff_eq hp (by norm_num)).mp h))
    · exact .inr (.inr ((Nat.prime_dvd_prime_iff_eq hp (by norm_num)).mp h))
  rcases hmem with rfl | rfl | rfl <;> decide +kernel

theorem pow_g_inj {i j : ℕ} (hi : i < 255) (hj : j < 255) (h : g ^ i = g ^ j) : i = j :=
  pow_injOn_Iio_orderOf (by simpa [orderOf_g] using hi) (by simpa [orderOf_g] using hj) h

theorem byte_pow_g {i : ℕ} (hi : i < 255) : (g ^ i).byte = exptbl i := by
  induction i with
  | zero => rfl
  | succ i ih =>
    have hpow : (g ^ (i + 1)).byte = gfmul (exptbl i) 2 := by
      rw [pow_succ, byte_mul, ih (by omega)]
      rfl
    have hne : (g ^ (i + 1)).byte ≠ 1 := fun h => by
      have := pow_g_inj hi (j := 0) (by omega) (GF256.ext h)
      omega
    rw [exptbl, ← hpow]
    exact (if_neg hne).symm

theorem byte_gfpowLoop (n : ℕ) (v a : GF256) {b : ℕ} (hb : b < 2 ^ n) :
    gfpowLoop n v.byte a.byte b = (v * a ^ b).byte := by
  induction n generalizing v a b with
  | zero => simp [show b = 0 by omega, gfpowLoop]
  | succ n ih =>
    rw [gfpowLoop]
    split
    · next h0 => simp [h0]
    have hhalf : b / 2 < 2 ^ n := by omega
    have hsq : (a * a) ^ (b / 2) = a ^ (2 * (b / 2)) := by rw [← pow_two, ← pow_mul]
    split
    · refine (ih (v * a) (a * a) hhalf).trans (congrArg byte ?_)
      rw [hsq, mul_assoc, ← pow_succ', show 2 * (b / 2) + 1 = b by omega]
    · refine (ih v (a * a) hhalf).trans (congrArg byte ?_)
      rw [hsq, show 2 * (b / 2) = b by omega]

theorem byte_invtbl (a : GF256) : invtbl a.byte = (a ^ 254).byte := by
  have h := byte_gfpowLoop 8 1 a (b := 254) (by decide)
  rwa [one_mul] at h

instance : Nontrivial GF256 := ⟨0, 1, by decide⟩

def equivFin : GF256 ≃ Fin 256 where
  toFun a := a.byte.toFin
  invFun x := ⟨.ofFin x⟩
  left_inv _ := rfl
  right_inv _ := rfl

instance : Fintype GF256 := Fintype.ofEquiv (Fin 256) equivFin.symm

theorem card_eq : Fintype.card GF256 = 256 :=
  (Fintype.card_congr equivFin).trans (Fintype.card_fin 256)

theorem pow_g_ne_zero (i : ℕ) : g ^ i ≠ 0 := by
  have hunit : IsUnit g := IsUnit.of_pow_eq_one (pow_orderOf_eq_one g) (by simp [orderOf_g])
  exact (hunit.pow i).ne_zero

/-- There are as many powers of `g` as bytes other than zero. -/
theorem exists_pow_g {a : GF256} (ha : a ≠ 0) : ∃ i, g ^ i = a := by
  have hsub : (range 255).image (g ^ ·) ⊆ univ.erase 0 := by
    intro b hb
    obtain ⟨i, -, rfl⟩ := mem_image.mp hb
    exact mem_erase.mpr ⟨pow_g_ne_zero i, mem_univ _⟩
  have hcard : ((range 255).image (g ^ ·)).card = 255 := by
    rw [card_image_of_injOn, card_range]
    intro i hi j hj h
    exact pow_g_inj (by simpa using hi) (by simpa using hj) h
  have heq := eq_of_subset_of_card_le hsub (by
    rw [hcard, card_erase_of_mem (mem_univ _), card_univ, card_eq])
  have hmem : a ∈ (range 255).image (g ^ ·) := by
    rw [heq]
    exact mem_erase.mpr ⟨ha, mem_univ _⟩
  obtain ⟨i, -, hi⟩ := mem_image.mp hmem
  exact ⟨i, hi⟩

theorem pow_card_sub_one {a : GF256} (ha : a ≠ 0) : a ^ 255 = 1 := by
  obtain ⟨i, rfl⟩ := exists_pow_g ha
  rw [← pow_mul, mul_comm, pow_mul, ← orderOf_g, pow_orderOf_eq_one, one_pow]

instance : Inv GF256 := ⟨fun a => ⟨invtbl a.byte⟩⟩

@[simp] theorem byte_inv (a : GF256) : a⁻¹.byte = invtbl a.byte := rfl

theorem inv_eq_pow (a : GF256) : a⁻¹ = a ^ 254 := GF256.ext (byte_invtbl a)

instance : Field GF256 where
  mul_inv_cancel a ha := by rw [inv_eq_pow, ← pow_succ', pow_card_sub_one ha]
  inv_zero := by rw [inv_eq_pow, zero_pow (by decide)]
  nnqsmul := _
  nnqsmul_def := fun _ _ => rfl
  qsmul := _
  qsmul_def := fun _ _ => rfl

instance : CharP GF256 2 := CharTwo.of_one_ne_zero_of_two_eq_zero one_ne_zero rfl

end GF256

end Field

end LinuxKernel.Raid6
