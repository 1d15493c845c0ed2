import LinuxKernel.Raid6.Tables
import Mathlib.Algebra.BigOperators.Ring.Finset
import Mathlib.Tactic.Ring

/-! # The syndromes of RAID-6

`gen_syndrome` computes the parity and the second syndrome of the data disks a word at a time. The
operations on words act on each byte alone, so each byte of the syndromes is a sum in the field.
-/

namespace LinuxKernel.Raid6

open Nat Finset

section Source

abbrev Mem := ℕ → BitVec 8

def word : ℕ → (ℕ → BitVec 8) → ℕ
  | 0, _ => 0
  | n + 1, b => (b 0).toNat + 256 * word n fun i => b (i + 1)

/-- A load and a store of a word of `n` bytes. -/
def loadWord (n : ℕ) (mem : Mem) (a : ℕ) : ℕ := word n fun i => mem (a + i)

def storeWord (n : ℕ) (mem : Mem) (a v : ℕ) : Mem := fun x =>
  if a ≤ x ∧ x < a + n then BitVec.ofNat 8 (v / 256 ^ (x - a)) else mem x

def nbytes (n x : ℕ) : ℕ := x * word n fun _ => 1#8

def shlbyte (n v : ℕ) : ℕ := (v <<< 1) % 256 ^ n &&& nbytes n 0xfe

def mask (n v : ℕ) : ℕ :=
  let vv := v &&& nbytes n 0x80
  ((vv <<< 1) % 256 ^ n + 256 ^ n - vv >>> 7) % 256 ^ n

/-- What a round of the inner loop does to a word of the second syndrome. -/
def nextQ (n wq wd : ℕ) : ℕ :=
  let w2 := mask n wq
  let w1 := shlbyte n wq
  let w2 := w2 &&& nbytes n 0x1d
  let w1 := w1 ^^^ w2
  w1 ^^^ wd

/-- The inner loop, down to the first disk, for the words at one offset. -/
def innerLoop (n : ℕ) (mem : Mem) (dptr : ℕ → ℕ) (off : ℕ) : ℕ → ℕ → ℕ → ℕ × ℕ
  | 0, wp, wq => (wp, wq)
  | z + 1, wp, wq =>
    let wd := loadWord n mem (dptr z + off)
    innerLoop n mem dptr off z (wp ^^^ wd) (nextQ n wq wd)

def syndromeWords (n : ℕ) (mem : Mem) (dptr : ℕ → ℕ) (z0 off : ℕ) : ℕ × ℕ :=
  let w := loadWord n mem (dptr z0 + off)
  innerLoop n mem dptr off z0 w w

/-- The words `w 0`, `w 1` and so on, one behind the other. -/
def storeWords (n a : ℕ) (w : ℕ → ℕ) : ℕ → Mem → Mem
  | 0, mem => mem
  | u + 1, mem => storeWord n (storeWords n a w u mem) (a + n * u) (w u)

/-- The body of the outer loop, which has `u` words of each syndrome. -/
def syndromeBody (n u : ℕ) (dptr : ℕ → ℕ) (z0 d : ℕ) (mem : Mem) : Mem :=
  let w := fun j => syndromeWords n mem dptr z0 (d + n * j)
  let mem' := storeWords n (dptr (z0 + 1) + d) (fun j => (w j).1) u mem
  storeWords n (dptr (z0 + 2) + d) (fun j => (w j).2) u mem'

def syndromeLoop (n u : ℕ) (dptr : ℕ → ℕ) (z0 bytes : ℕ) : ℕ → ℕ → Mem → Mem
  | 0, _, mem => mem
  | fuel + 1, d, mem =>
    if d < bytes then
      syndromeLoop n u dptr z0 bytes fuel (d + n * u) (syndromeBody n u dptr z0 d mem)
    else mem

/-- `raid6_int$#_gen_syndrome` for words of `n` bytes, unrolled `u` times. Each round takes at least
a byte, so there are no more rounds than bytes. -/
def genSyndrome (n u disks bytes : ℕ) (ptrs : ℕ → ℕ) (mem : Mem) : Mem :=
  syndromeLoop n u ptrs (disks - 3) bytes bytes 0 mem

end Source

section Words

theorem testBit_bytes {a : ℕ} (x : ℕ) (ha : a < 256) (j : ℕ) :
    (a + 256 * x).testBit j = if j < 8 then a.testBit j else x.testBit (j - 8) := by
  rw [add_comm]
  exact testBit_two_pow_mul_add x (i := 8) ha j

theorem and_bytes {a b : ℕ} (x y : ℕ) (ha : a < 256) (hb : b < 256) :
    (a + 256 * x) &&& (b + 256 * y) = (a &&& b) + 256 * (x &&& y) := by
  refine eq_of_testBit_eq fun j => ?_
  rw [testBit_and, testBit_bytes x ha, testBit_bytes y hb,
    testBit_bytes _ (and_lt_two_pow (n := 8) a hb)]
  split <;> simp

theorem xor_bytes {a b : ℕ} (x y : ℕ) (ha : a < 256) (hb : b < 256) :
    (a + 256 * x) ^^^ (b + 256 * y) = (a ^^^ b) + 256 * (x ^^^ y) := by
  refine eq_of_testBit_eq fun j => ?_
  rw [testBit_xor, testBit_bytes x ha, testBit_bytes y hb,
    testBit_bytes _ (xor_lt_two_pow (n := 8) ha hb)]
  split <;> simp

theorem word_and (n : ℕ) (b c : ℕ → BitVec 8) :
    word n b &&& word n c = word n fun i => b i &&& c i := by
  induction n generalizing b c with
  | zero => simp [word]
  | succ n ih => rw [word, word, word, and_bytes _ _ (b 0).isLt (c 0).isLt, ih, BitVec.toNat_and]

theorem word_xor (n : ℕ) (b c : ℕ → BitVec 8) :
    word n b ^^^ word n c = word n fun i => b i ^^^ c i := by
  induction n generalizing b c with
  | zero => simp [word]
  | succ n ih => rw [word, word, word, xor_bytes _ _ (b 0).isLt (c 0).isLt, ih, BitVec.toNat_xor]

theorem word_lt (n : ℕ) (b : ℕ → BitVec 8) : word n b < 256 ^ n := by
  induction n generalizing b with
  | zero => simp [word]
  | succ n ih =>
    have h := ih fun i => b (i + 1)
    rw [word]
    omega

theorem nbytes_eq (n : ℕ) (x : BitVec 8) : nbytes n x.toNat = word n fun _ => x := by
  induction n with
  | zero => simp [nbytes, word]
  | succ n ih =>
    rw [nbytes, word, word, ← ih, nbytes, mul_add, mul_left_comm]
    simp

theorem byte_word {n i : ℕ} (b : ℕ → BitVec 8) (hi : i < n) :
    BitVec.ofNat 8 (word n b / 256 ^ i) = b i := by
  induction n generalizing b i with
  | zero => omega
  | succ n ih =>
    cases i with
    | zero =>
      apply BitVec.eq_of_toNat_eq
      rw [word, BitVec.toNat_ofNat]
      omega
    | succ i =>
      rw [word, pow_succ', ← Nat.div_div_eq_div_mul,
        show ((b 0).toNat + 256 * word n fun i => b (i + 1)) / 256 =
          word n fun i => b (i + 1) by omega]
      exact ih (fun i => b (i + 1)) (by omega)

theorem shl_byte : ∀ x : BitVec 8, ∀ c < 2,
    ((2 * x.toNat + c) % 256) &&& 0xfe = (x <<< 1).toNat := by decide +kernel

/-- The shift takes the high bit of a byte to the next one, where it is cut off. -/
theorem shl_word (n : ℕ) (b : ℕ → BitVec 8) {c : ℕ} (hc : c < 2) :
    (2 * word n b + c) % 256 ^ n &&& nbytes n 0xfe = word n fun i => b i <<< 1 := by
  induction n generalizing b c with
  | zero => simp [word, mod_one]
  | succ n ih =>
    have hones : nbytes (n + 1) 0xfe = 0xfe + 256 * nbytes n 0xfe := by
      simp only [nbytes, word, show (1#8).toNat = 1 from rfl]
      omega
    have hdiv : (2 * word (n + 1) b + c) / 256 =
        2 * word n (fun i => b (i + 1)) + (2 * (b 0).toNat + c) / 256 := by
      rw [word]
      omega
    have hmod : (2 * word (n + 1) b + c) % 256 = (2 * (b 0).toNat + c) % 256 := by
      rw [word]
      omega
    rw [hones, pow_succ', mod_mul, hdiv, hmod, and_bytes _ _ (by omega) (by decide),
      ih _ (by omega), shl_byte _ _ hc, word]

theorem shlbyte_word (n : ℕ) (b : ℕ → BitVec 8) :
    shlbyte n (word n b) = word n fun i => b i <<< 1 := by
  have h := shl_word n b (c := 0) (by decide)
  rwa [add_zero] at h

theorem word_mul (n k : ℕ) {b h : ℕ → BitVec 8} (heq : ∀ i, (b i).toNat = k * (h i).toNat) :
    word n b = k * word n h := by
  induction n generalizing b h with
  | zero => simp [word]
  | succ n ih =>
    rw [word, word, heq 0, ih fun i => heq (i + 1), mul_add, mul_left_comm]

/-- The subtraction does not borrow, since the bits of the difference are those of a product. -/
theorem mask_word (n : ℕ) (b : ℕ → BitVec 8) :
    mask n (word n b) = word n fun i => if (b i).getLsbD 7 then 0xff#8 else 0#8 := by
  have hbit : ∀ x : BitVec 8, (x &&& 0x80#8).toNat =
      128 * (if x.getLsbD 7 then 1#8 else 0#8).toNat := by decide +kernel
  have h80 : nbytes n 0x80 = word n fun _ => 0x80#8 := nbytes_eq n 0x80#8
  have hvv := word_mul n 128 fun i => hbit (b i)
  have hff := word_mul n 255 (b := fun i => if (b i).getLsbD 7 then 0xff#8 else 0#8)
    (h := fun i => if (b i).getLsbD 7 then 1#8 else 0#8) fun i => by split <;> rfl
  have hlt := word_lt n fun i => if (b i).getLsbD 7 then 0xff#8 else 0#8
  simp only [mask, h80, word_and]
  rw [hff] at hlt ⊢
  rw [hvv]
  generalize (word n fun i => if (b i).getLsbD 7 = true then 1#8 else 0#8) = m at hlt
  generalize 256 ^ n = M at hlt
  rw [shiftLeft_eq, shiftRight_eq_div_pow, show 128 * m / 2 ^ 7 = m by omega,
    show 128 * m * 2 ^ 1 = 256 * m by omega]
  rcases lt_or_ge (256 * m) M with h | h
  · rw [mod_eq_of_lt h, show 256 * m + M - m = 255 * m + M by omega, add_mod_right,
      mod_eq_of_lt hlt]
  · rw [mod_eq_sub_mod h, mod_eq_of_lt (show 256 * m - M < M by omega),
      show 256 * m - M + M - m = 255 * m by omega, mod_eq_of_lt hlt]

theorem nextQ_word (n : ℕ) (b c : ℕ → BitVec 8) :
    nextQ n (word n b) (word n c) = word n fun i => double (b i) ^^^ c i := by
  have h : nbytes n 0x1d = word n fun _ => 0x1d#8 := nbytes_eq n 0x1d#8
  simp only [nextQ, shlbyte_word, mask_word, h, word_and, word_xor]
  congr 1
  funext i
  rw [double]
  split <;> rfl

end Words

section Sums

open GF256

variable (mem : Mem) (dptr : ℕ → ℕ)

def cell (z i : ℕ) : GF256 := ⟨mem (dptr z + i)⟩

/-- The two sums over the first `z` disks. -/
def parity (z i : ℕ) : GF256 := ∑ k ∈ range z, cell mem dptr k i

def syndrome (z i : ℕ) : GF256 := ∑ k ∈ range z, g ^ k * cell mem dptr k i

theorem innerLoop_word (n off z : ℕ) (p q : ℕ → GF256) :
    innerLoop n mem dptr off z (word n fun i => (p i).byte) (word n fun i => (q i).byte) =
      (word n fun i => (p i + parity mem dptr z (off + i)).byte,
        word n fun i => (g ^ z * q i + syndrome mem dptr z (off + i)).byte) := by
  induction z generalizing p q with
  | zero => simp [innerLoop, parity, syndrome]
  | succ z ih =>
    have hwd : loadWord n mem (dptr z + off) =
        word n fun i => (cell mem dptr z (off + i)).byte := by
      simp only [loadWord, cell, add_assoc]
    have hq : ∀ i, (g * q i + cell mem dptr z (off + i)).byte =
        double (q i).byte ^^^ (cell mem dptr z (off + i)).byte := fun i => by
      rw [byte_add, byte_g_mul]
    simp only [innerLoop, hwd, word_xor, nextQ_word, ← byte_add, ← hq]
    rw [ih]
    congr 3 <;> funext i <;> congr 1
    · rw [parity, parity, sum_range_succ]
      ring
    · rw [syndrome, syndrome, sum_range_succ]
      ring

theorem syndromeWords_eq (n z0 off : ℕ) :
    syndromeWords n mem dptr z0 off =
      (word n fun i => (parity mem dptr (z0 + 1) (off + i)).byte,
        word n fun i => (syndrome mem dptr (z0 + 1) (off + i)).byte) := by
  have hw : loadWord n mem (dptr z0 + off) = word n fun i => (cell mem dptr z0 (off + i)).byte := by
    simp only [loadWord, cell, add_assoc]
  rw [syndromeWords, hw, innerLoop_word]
  congr 3 <;> funext i <;> congr 1
  · rw [parity, parity, sum_range_succ, add_comm]
  · rw [syndrome, syndrome, sum_range_succ, add_comm]

theorem storeWords_eq {n a : ℕ} {w : ℕ → ℕ} {f : ℕ → BitVec 8}
    (hw : ∀ j, w j = word n fun i => f (n * j + i)) (u : ℕ) (mem : Mem) (x : ℕ) :
    storeWords n a w u mem x = if a ≤ x ∧ x < a + n * u then f (x - a) else mem x := by
  induction u with
  | zero =>
    rw [storeWords, if_neg (by omega)]
  | succ u ih =>
    rw [storeWords, storeWord, hw, ih, mul_succ]
    split
    · rw [byte_word _ (by omega), if_pos (by omega)]
      congr 1
      omega
    · refine if_congr ?_ rfl rfl
      omega

end Sums

section Memory

variable {n u z0 d bytes : ℕ} {dptr : ℕ → ℕ} {mem : Mem}

/-- A range of the memory with other bytes. -/
def overwrite (mem : Mem) (a len : ℕ) (f : ℕ → BitVec 8) : Mem := fun x =>
  if a ≤ x ∧ x < a + len then f (x - a) else mem x

def Apart (a b len : ℕ) : Prop := a + len ≤ b ∨ b + len ≤ a

structure Separate (dptr : ℕ → ℕ) (z0 bytes : ℕ) : Prop where
  parity : ∀ z ≤ z0, Apart (dptr z) (dptr (z0 + 1)) bytes
  syndrome : ∀ z ≤ z0, Apart (dptr z) (dptr (z0 + 2)) bytes
  both : Apart (dptr (z0 + 1)) (dptr (z0 + 2)) bytes

/-- The memory when the first `len` bytes of the syndromes are there. -/
def withSyndromes (mem : Mem) (dptr : ℕ → ℕ) (z0 len : ℕ) : Mem :=
  overwrite (overwrite mem (dptr (z0 + 1)) len fun i => (parity mem dptr (z0 + 1) i).byte)
    (dptr (z0 + 2)) len fun i => (syndrome mem dptr (z0 + 1) i).byte

def InBlock (a len x : ℕ) : Prop := a ≤ x ∧ x < a + len

theorem Apart.not_in {a b len i : ℕ} (h : Apart a b len) (hi : i < len) :
    ¬InBlock b len (a + i) := by
  unfold Apart at h
  unfold InBlock
  omega

theorem withSyndromes_of_not_in {len x : ℕ} (hp : ¬InBlock (dptr (z0 + 1)) len x)
    (hq : ¬InBlock (dptr (z0 + 2)) len x) : withSyndromes mem dptr z0 len x = mem x := by
  unfold InBlock at hp hq
  rw [withSyndromes, overwrite, if_neg hq, overwrite, if_neg hp]

theorem withSyndromes_syndrome (mem : Mem) (dptr : ℕ → ℕ) (z0 : ℕ) {i len : ℕ} (hi : i < len) :
    withSyndromes mem dptr z0 len (dptr (z0 + 2) + i) = (syndrome mem dptr (z0 + 1) i).byte := by
  rw [withSyndromes, overwrite, if_pos (by omega), Nat.add_sub_cancel_left]

section

variable (h : Separate dptr z0 bytes)
include h

theorem Separate.withSyndromes_parity (mem : Mem) {i : ℕ} (hi : i < bytes) :
    withSyndromes mem dptr z0 bytes (dptr (z0 + 1) + i) =
      (Raid6.parity mem dptr (z0 + 1) i).byte := by
  have hboth := h.both
  unfold Apart at hboth
  rw [withSyndromes, overwrite, if_neg (by omega), overwrite, if_pos (by omega),
    Nat.add_sub_cancel_left]

theorem Separate.cell_eq {z i len : ℕ} (hz : z ≤ z0) (hi : i < bytes) (hlen : len ≤ bytes) :
    cell (withSyndromes mem dptr z0 len) dptr z i = cell mem dptr z i := by
  have hp := h.parity z hz
  have hq := h.syndrome z hz
  unfold Apart at hp hq
  unfold cell withSyndromes overwrite
  rw [if_neg (by omega), if_neg (by omega)]

theorem Separate.parity_eq {i len : ℕ} (hi : i < bytes) (hlen : len ≤ bytes) :
    Raid6.parity (withSyndromes mem dptr z0 len) dptr (z0 + 1) i =
      Raid6.parity mem dptr (z0 + 1) i :=
  sum_congr rfl fun z hz => h.cell_eq (by have := mem_range.mp hz; omega) hi hlen

theorem Separate.syndrome_eq {i len : ℕ} (hi : i < bytes) (hlen : len ≤ bytes) :
    Raid6.syndrome (withSyndromes mem dptr z0 len) dptr (z0 + 1) i =
      Raid6.syndrome mem dptr (z0 + 1) i :=
  sum_congr rfl fun z hz => by
    rw [h.cell_eq (by have := mem_range.mp hz; omega) hi hlen]

theorem syndromeBody_eq (hd : d + n * u ≤ bytes) :
    syndromeBody n u dptr z0 d (withSyndromes mem dptr z0 d) =
      withSyndromes mem dptr z0 (d + n * u) := by
  have hapart := h.both
  unfold Apart at hapart
  funext x
  simp only [syndromeBody, syndromeWords_eq, add_assoc d]
  rw [storeWords_eq (f := fun i =>
      (Raid6.syndrome (withSyndromes mem dptr z0 d) dptr (z0 + 1) (d + i)).byte) fun _ => rfl,
    storeWords_eq (f := fun i =>
      (Raid6.parity (withSyndromes mem dptr z0 d) dptr (z0 + 1) (d + i)).byte) fun _ => rfl]
  split
  · rw [h.syndrome_eq (by omega) (by omega), withSyndromes, overwrite, if_pos (by omega)]
    congr 2
    omega
  split
  · rw [h.parity_eq (by omega) (by omega), withSyndromes, overwrite, if_neg (by omega), overwrite,
      if_pos (by omega)]
    congr 2
    omega
  · refine if_congr (by omega) rfl (if_congr (by omega) rfl rfl)

end

theorem syndromeLoop_eq (mem : Mem) (h : Separate dptr z0 bytes) (hn : 0 < n * u) {fuel k : ℕ}
    (hk : bytes = d + n * u * k) (hfuel : k ≤ fuel) :
    syndromeLoop n u dptr z0 bytes fuel d (withSyndromes mem dptr z0 d) =
      withSyndromes mem dptr z0 bytes := by
  induction fuel generalizing d k with
  | zero =>
    obtain rfl : k = 0 := by omega
    rw [syndromeLoop, hk, mul_zero, add_zero]
  | succ fuel ih =>
    rw [syndromeLoop]
    cases k with
    | zero =>
      rw [mul_zero, add_zero] at hk
      rw [if_neg (by omega), hk]
    | succ k =>
      rw [mul_succ] at hk
      rw [if_pos (by omega), syndromeBody_eq h (by omega)]
      exact ih (k := k) (by omega) (by omega)

theorem genSyndrome_eq {disks : ℕ} (hn : 0 < n * u) (hdvd : n * u ∣ bytes)
    (h : Separate dptr (disks - 3) bytes) :
    genSyndrome n u disks bytes dptr mem = withSyndromes mem dptr (disks - 3) bytes := by
  obtain ⟨k, hk⟩ := hdvd
  have hle : k ≤ bytes := by
    rw [hk]
    exact Nat.le_mul_of_pos_left k hn
  have hstart : withSyndromes mem dptr (disks - 3) 0 = mem := by
    funext x
    rw [withSyndromes, overwrite, if_neg (by omega), overwrite, if_neg (by omega)]
  have hloop := syndromeLoop_eq mem h hn (by rw [hk, zero_add]) hle
  rwa [hstart] at hloop

end Memory

end LinuxKernel.Raid6
