import Mathlib.Data.Nat.Init
import LinuxKernel.Cts.Model

/-! # Decryption inverts encryption

The blocks of the message, with zeros behind it, are chained as `cbc` chains them. The last two
blocks of the chain change places, and the last one is cut to the length of the message.
-/

namespace LinuxKernel.Cts

open Function BitVec Nat Equiv

section Buffers

variable {b : ℕ} {mem d s : Buffer} {sg dst src : ℕ → ℕ} {offset n i a : ℕ}

theorem Block.bytes_of_lt {x : Block b} (h : i < b) : x.bytes i = x ⟨i, h⟩ := dif_pos h

theorem Buffer.copy_of_lt (h : i < offset) : d.copy offset s n i = d i :=
  if_neg fun hmem => absurd hmem.1 (by omega)

theorem Buffer.copy_of_mem (h : i < n) : d.copy offset s n (offset + i) = s i := by
  rw [Buffer.copy, if_pos ⟨by omega, by omega⟩, Nat.add_sub_cancel_left]

theorem Buffer.copy_zero_of_lt (h : i < n) : d.copy 0 s n i = s i := by
  rw [Buffer.copy, if_pos ⟨by omega, by omega⟩, Nat.sub_zero]

theorem Buffer.copy_of_le (h : offset + n ≤ i) : d.copy offset s n i = d i :=
  if_neg fun hmem => absurd hmem.2 (by omega)

theorem cryptoXor_self_left (x y : Block b) : cryptoXor (cryptoXor x y) x = y := by
  funext i
  simp only [cryptoXor]
  rw [BitVec.xor_comm (x i) (y i), BitVec.xor_assoc, BitVec.xor_self, BitVec.xor_zero]

theorem cryptoXor_zero (x : Block b) : cryptoXor x (fun _ => 0) = x := by
  funext i
  exact xor_zero

theorem Buffer.scatter_of_ne (h : ∀ i < n, sg (offset + i) ≠ a) :
    mem.scatter sg offset d n a = mem a := by
  induction n with
  | zero => rfl
  | succ n ih =>
    rw [Buffer.scatter, update_of_ne (h n n.lt_succ_self).symm]
    exact ih fun i hi => h i (lt_succ_of_lt hi)

theorem Buffer.scatter_of_lt (hinj : ∀ i < n, ∀ j < n, sg (offset + i) = sg (offset + j) → i = j)
    (hi : i < n) : mem.scatter sg offset d n (sg (offset + i)) = d i := by
  induction n with
  | zero => omega
  | succ n ih =>
    rw [Buffer.scatter]
    by_cases heq : i = n
    · rw [heq, update_self]
    · have hin : i < n := by omega
      have hne : sg (offset + i) ≠ sg (offset + n) := fun h =>
        heq (hinj i hi n n.lt_succ_self h)
      rw [update_of_ne hne]
      exact ih (fun i hi j hj => hinj i (by omega) j (by omega)) hin

/-- A byte is written only where the same byte is read. -/
structure Layout (n : ℕ) (dst src : ℕ → ℕ) : Prop where
  inj : ∀ i < n, ∀ j < n, dst i = dst j → i = j
  apart : ∀ i < n, ∀ j < n, i ≠ j → dst i ≠ src j

theorem Layout.of_inPlace_or_apart (hinj : ∀ i < n, ∀ j < n, dst i = dst j → i = j)
    (h : (∀ i < n, dst i = src i) ∨ ∀ i < n, ∀ j < n, dst i ≠ src j) : Layout n dst src := by
  refine ⟨hinj, fun i hi j hj hne => ?_⟩
  rcases h with hsame | hapart
  · rw [← hsame j hj]
    exact fun heq => hne (hinj i hi j hj heq)
  · exact hapart i hi j hj

theorem Layout.ne {j : ℕ} (hl : Layout n dst src) (hi : i < n) (hj : j < n) (h : i ≠ j) :
    dst i ≠ dst j :=
  fun heq => h (hl.inj i hi j hj heq)

theorem Layout.scatter_of_lt {m : ℕ} (hl : Layout n dst src) (hm : offset + m ≤ n) (hi : i < m) :
    mem.scatter dst offset d m (dst (offset + i)) = d i :=
  Buffer.scatter_of_lt (fun i hi j hj heq =>
    add_left_cancel (hl.inj _ (by omega) _ (by omega) heq)) hi

end Buffers

section Chain

variable {b : ℕ} (E : Perm (Block b)) (iv : Block b) (P : Buffer)

def chain : ℕ → Block b
  | 0 => iv
  | k + 1 => E (cryptoXor (chain k) (P.block b (k * b)))

def pad (n : ℕ) : Buffer := fun i => if i < n then P i else 0

/-- The ciphertext of a message of more than `k + 1` blocks. -/
structure Stolen (n k : ℕ) (C : Buffer) : Prop where
  blocks : ∀ j < k, C.block b (j * b) = chain E iv (pad P n) (j + 1)
  last : C.block b (k * b) = chain E iv (pad P n) (k + 2)
  rest : ∀ i : Fin b, k * b + b + i < n → C (k * b + b + i) = chain E iv (pad P n) (k + 1) i

end Chain

section Encrypt

variable {b n k : ℕ} {E : Perm (Block b)} (junk : Buffer) {dst src : ℕ → ℕ} {s : State b}
  {P : Buffer}

theorem block_le (b : ℕ) {j k : ℕ} (h : j < k) : j * b + b ≤ k * b := by
  rw [← Nat.succ_mul]
  exact mul_le_mul_right b h

/-- What the mode does to the memory and to the IV buffer in the first blocks. -/
theorem cbcEncrypt_spec (hl : Layout n dst src) (hP : ∀ i < n, P i = s.mem (src i)) :
    ∀ {k : ℕ}, k * b ≤ n →
    (cbcEncrypt E dst src k s).info = chain E s.info P k ∧
    (∀ j < k, ((cbcEncrypt E dst src k s).mem.gather dst 0).block b (j * b) =
      chain E s.info P (j + 1)) ∧
    ∀ a, (∀ i < k * b, dst i ≠ a) → (cbcEncrypt E dst src k s).mem a = s.mem a
  | 0, _ => ⟨rfl, nofun, fun _ _ => rfl⟩
  | k + 1, hk => by
    have hkb : k * b + b ≤ n := by rwa [Nat.succ_mul] at hk
    obtain ⟨hinfo, hblocks, hothers⟩ := cbcEncrypt_spec hl hP (k := k) (by omega)
    have hread : (((cbcEncrypt E dst src k s).mem.gather src (k * b)).block b 0)
        = P.block b (k * b) := by
      funext i
      simp only [Buffer.block, Buffer.gather, zero_add]
      rw [hothers, hP _ (by omega)]
      exact fun j hj => hl.apart j (by omega) _ (by omega) (by omega)
    rw [cbcEncrypt]
    simp only [hread, hinfo]
    refine ⟨rfl, fun j hj => ?_, fun a ha => ?_⟩
    · funext i
      have hi := i.isLt
      simp only [Buffer.block, Buffer.gather, zero_add]
      by_cases hjk : j = k
      · subst hjk
        rw [hl.scatter_of_lt hkb hi, Block.bytes_of_lt hi]
        rfl
      · have hle := block_le b (show j < k by omega)
        have hj' := congrFun (hblocks j (by omega)) i
        simp only [Buffer.block, Buffer.gather, zero_add] at hj'
        rw [Buffer.scatter_of_ne, hj']
        exact fun i' hi' => hl.ne (by omega) (by omega) (by omega)
    · rw [Nat.succ_mul] at ha
      rw [Buffer.scatter_of_ne fun i hi => ha _ (by omega)]
      exact hothers a fun i hi => ha i (by omega)

theorem pad_of_lt {i : ℕ} (h : i < n) : pad P n i = P i := if_pos h

theorem pad_of_le {i : ℕ} (h : n ≤ i) : pad P n i = 0 := if_neg (Nat.not_lt.mpr h)

/-- The lengths are in the range of the integers of the code: the sum in `tot_blocks` does not
overflow, and there are less than `2 ^ 31` blocks. -/
def Fits (b n : ℕ) : Prop := n + b ≤ 2 ^ 32 ∧ (n + b - 1) / b < 2 ^ 31

theorem int32_of_lt {m : ℕ} (h : m < 2 ^ 31) : int32 m = m := by
  rw [int32, BitVec.toInt_ofInt]
  exact Int.bmod_eq_of_le (by omega) (by omega)

theorem lastn_eq {m : ℕ} (hle : b ≤ m) (hlt : m < b + 2 ^ 31) : int32 (m - b) = (m - b : ℕ) := by
  rw [← Int.ofNat_sub hle]
  exact int32_of_lt (by omega)

theorem Fits.totBlocks_eq (h : Fits b n) : totBlocks b n = ((n + b - 1) / b : ℕ) := by
  rw [totBlocks, Nat.mod_eq_of_lt (by have := h.1; omega)]
  exact int32_of_lt h.2

theorem ctsCbcEncrypt_spec (hl : Layout n dst src) {iv : Block b}
    (hinfo : s.info = chain E iv (pad P n) k) (hP : ∀ i < n, k * b ≤ i → P i = s.mem (src i))
    (hk : k * b + b < n) (hn : n ≤ k * b + b * 2) (hb : b < 2 ^ 31) :
    ∃ t, ctsCbcEncrypt E junk dst src (k * b) (n - k * b) s = (none, t) ∧
      t.info = chain E iv (pad P n) (k + 2) ∧
      (t.mem.gather dst 0).block b (k * b) = chain E iv (pad P n) (k + 2) ∧
      (∀ i : Fin b, k * b + b + i < n →
        t.mem.gather dst 0 (k * b + b + i) = chain E iv (pad P n) (k + 1) i) ∧
      ∀ a, (∀ i < n, k * b ≤ i → dst i ≠ a) → t.mem a = s.mem a := by
  have hs : ∀ i, Buffer.copy (fun _ => 0) 0 (s.mem.gather src (k * b)) (n - k * b) i =
      pad P n (k * b + i) := fun i => by
    by_cases hi : k * b + i < n
    · rw [Buffer.copy_zero_of_lt (by omega), pad_of_lt hi, hP _ hi (by omega)]
      rfl
    · rw [Buffer.copy_of_le (by omega), pad_of_le (by omega)]
  have htmp : E (cryptoXor s.info
      ((Buffer.copy (fun _ => 0) 0 (s.mem.gather src (k * b)) (n - k * b)).block b 0)) =
      chain E iv (pad P n) (k + 1) := by
    congr 2
    funext i
    exact (hs _).trans (by rw [zero_add]; rfl)
  have htmp2 : E (cryptoXor (chain E iv (pad P n) (k + 1))
      ((Buffer.copy (fun _ => 0) 0 (s.mem.gather src (k * b)) (n - k * b)).block b b)) =
      chain E iv (pad P n) (k + 2) := by
    congr 2
    funext i
    refine (hs _).trans ?_
    rw [Buffer.block, Nat.succ_mul, add_assoc]
  rw [ctsCbcEncrypt, lastn_eq (by omega) (by omega), if_neg (by omega)]
  simp only [htmp, htmp2, Int.toNat_natCast]
  refine ⟨_, rfl, rfl, ?_, fun i hi => ?_, fun a ha => ?_⟩
  · funext i
    have hi := i.isLt
    simp only [Buffer.block, Buffer.gather, zero_add]
    rw [hl.scatter_of_lt (by omega) (by omega), Buffer.copy_zero_of_lt hi, Block.bytes_of_lt hi]
  · have hi' := i.isLt
    simp only [Buffer.gather, zero_add]
    rw [add_assoc, hl.scatter_of_lt (by omega) (by omega), Buffer.copy_of_le (by omega),
      Buffer.copy_of_mem (by omega), Block.bytes_of_lt hi']
  · exact Buffer.scatter_of_ne fun i hi => ha _ (by omega) (by omega)

theorem exists_blocks (hb : 0 < b) (hn : b < n) :
    ∃ k, k * b + b < n ∧ n ≤ k * b + b * 2 ∧ (n + b - 1) / b = k + 2 := by
  have hle : 2 ≤ (n + b - 1) / b := (le_div_iff_mul_le hb).mpr (by omega)
  obtain ⟨k, hk⟩ := Nat.exists_eq_add_of_le' hle
  refine ⟨k, ?_, ?_, hk⟩
  · have := div_mul_le_self (n + b - 1) b
    rw [hk, Nat.add_mul] at this
    omega
  · have := lt_mul_of_div_lt (lt_succ_self ((n + b - 1) / b)) hb
    rw [hk, Nat.succ_mul, Nat.add_mul] at this
    omega

theorem cbcBlocks_eq (htot : totBlocks b n = (k + 2 : ℕ)) : cbcBlocks b n = k := by
  rw [cbcBlocks, htot]
  split <;> omega

theorem cryptoCtsEncrypt_eq (hk : k * b + b < n)
    (htot : totBlocks b n = (k + 2 : ℕ)) : cryptoCtsEncrypt E junk dst src n s =
      ctsCbcEncrypt E junk dst src (k * b) (n - k * b) (cbcEncrypt E dst src k s) := by
  rw [cryptoCtsEncrypt, cbcBlocks_eq htot, if_neg (by omega)]
  rcases k.eq_zero_or_pos with rfl | hpos
  · simp [cbcEncrypt]
  · have hle := block_le b hpos
    exact if_neg (by omega)

theorem cryptoCtsEncrypt_spec (hb : 0 < b) (hn : b < n) (hfits : Fits b n) (hl : Layout n dst src) :
    ∃ t k, cryptoCtsEncrypt E junk dst src n s = (none, t) ∧
      (k * b + b < n ∧ n ≤ k * b + b * 2 ∧ (n + b - 1) / b = k + 2) ∧
      t.info = chain E s.info (pad (s.mem.gather src 0) n) (k + 2) ∧
      Stolen E s.info (s.mem.gather src 0) n k (t.mem.gather dst 0) ∧
      ∀ a, (∀ i < n, dst i ≠ a) → t.mem a = s.mem a := by
  obtain ⟨k, hk, hn, htot⟩ := exists_blocks hb hn
  have hP : ∀ i < n, pad (s.mem.gather src 0) n i = s.mem (src i) := fun i hi => by
    rw [pad_of_lt hi, Buffer.gather, zero_add]
  obtain ⟨hinfo, hblocks, hothers⟩ := cbcEncrypt_spec hl hP (k := k) (by omega)
  have hP' : ∀ i < n, k * b ≤ i →
      s.mem.gather src 0 i = (cbcEncrypt E dst src k s).mem (src i) := fun i hi hki => by
    rw [hothers, Buffer.gather, zero_add]
    exact fun j hj => hl.apart j (by omega) i hi (by omega)
  obtain ⟨t, ht, htinfo, hlast, hrest, hothers'⟩ :=
    ctsCbcEncrypt_spec junk hl hinfo hP' hk hn (by have := hfits.1; omega)
  refine ⟨t, k, (cryptoCtsEncrypt_eq junk hk (htot ▸ hfits.totBlocks_eq)).trans ht,
    ⟨hk, hn, htot⟩, htinfo, ⟨fun j hj => ?_, hlast, hrest⟩, fun a ha => ?_⟩
  · rw [← hblocks j hj]
    have hle := block_le b hj
    funext i
    exact hothers' _ fun i' hi' hki => hl.ne hi' (by omega) (by omega)
  · rw [hothers' a fun i hi _ => ha i hi, hothers a fun i hi => ha i (by omega)]

end Encrypt

section Decrypt

variable {b n k : ℕ} {E : Perm (Block b)} (junk : Buffer) {dst src : ℕ → ℕ} {s : State b}
  {P : Buffer}

theorem cbcDecrypt_spec (hl : Layout n dst src) : ∀ {k : ℕ}, k * b ≤ n →
    (∀ j < k, (s.mem.gather src 0).block b (j * b) = chain E s.info P (j + 1)) →
    (cbcDecrypt E dst src k s).info = chain E s.info P k ∧
    (∀ i < k * b, (cbcDecrypt E dst src k s).mem (dst i) = P i) ∧
    ∀ a, (∀ i < k * b, dst i ≠ a) → (cbcDecrypt E dst src k s).mem a = s.mem a
  | 0, _, _ => ⟨rfl, by simp, fun _ _ => rfl⟩
  | k + 1, hk, hC => by
    have hkb : k * b + b ≤ n := by rwa [Nat.succ_mul] at hk
    obtain ⟨hinfo, hplain, hothers⟩ := cbcDecrypt_spec hl (by omega)
      fun j hj => hC j (lt_succ_of_lt hj)
    have hread : (((cbcDecrypt E dst src k s).mem.gather src (k * b)).block b 0)
        = chain E s.info P (k + 1) := by
      rw [← hC k k.lt_succ_self]
      funext i
      simp only [Buffer.block, Buffer.gather, zero_add]
      rw [hothers]
      exact fun j hj => hl.apart j (by omega) _ (by omega) (by omega)
    rw [cbcDecrypt]
    simp only [hread, hinfo]
    refine ⟨trivial, fun i hi => ?_, fun a ha => ?_⟩
    · by_cases hik : i < k * b
      · rw [Buffer.scatter_of_ne, hplain i hik]
        exact fun i' hi' => hl.ne (by omega) (by omega) (by omega)
      · rw [Nat.succ_mul] at hi
        obtain ⟨j, rfl⟩ := Nat.exists_eq_add_of_le (Nat.not_lt.mp hik)
        rw [hl.scatter_of_lt hkb (by omega), Block.bytes_of_lt (by omega), chain,
          symm_apply_apply, cryptoXor_self_left]
        rfl
    · rw [Nat.succ_mul] at ha
      rw [Buffer.scatter_of_ne fun i hi => ha _ (by omega)]
      exact hothers a fun i hi => ha i (by omega)

section Steal

variable {iv : Block b} {C S : Buffer}

section

variable (h : Stolen E iv P n k C) (hS : ∀ i, k * b + i < n → S i = C (k * b + i))
include h hS

theorem Stolen.block_zero (hk : k * b + b < n) :
    S.block b 0 = chain E iv (pad P n) (k + 2) := by
  rw [← h.last]
  funext i
  exact (hS _ (by omega)).trans (by rw [zero_add]; rfl)

/-- `Xn` has the end of the message and the bytes that its ciphertext lacks. -/
theorem Stolen.xor_eq (hk : k * b + b < n) (i : Fin b) :
    cryptoXor (cryptoXor (E.symm (S.block b 0)) fun _ => 0)
      (((Block.bytes fun _ : Fin b => 0).copy 0 (fun i => S (b + i)) (n - k * b - b)).block b 0) i =
      if k * b + b + i < n then P (k * b + b + i) else chain E iv (pad P n) (k + 1) i := by
  have hi := i.isLt
  have hpad : (pad P n).block b ((k + 1) * b) i = pad P n (k * b + b + i) := by
    rw [Buffer.block, Nat.succ_mul]
  rw [h.block_zero hS hk, chain, symm_apply_apply, cryptoXor_zero]
  simp only [cryptoXor, hpad]
  rw [Buffer.block, zero_add]
  split
  · rename_i hlt
    rw [Buffer.copy_zero_of_lt (by omega), hS _ (by omega), pad_of_lt hlt, ← add_assoc,
      h.rest i hlt, BitVec.xor_comm (chain ..), BitVec.xor_assoc, BitVec.xor_self,
      BitVec.xor_zero]
  · rw [Buffer.copy_of_le (by omega), pad_of_le (by omega), Block.bytes_of_lt hi]
    exact xor_zero.trans xor_zero

theorem Stolen.append_eq {tmp : Block b}
    (htmp : ∀ i : Fin b, tmp i = if k * b + b + i < n then P (k * b + b + i)
      else chain E iv (pad P n) (k + 1) i) :
    (S.copy (b + (n - k * b - b)) (fun i => tmp.bytes (n - k * b - b + i))
      (b - (n - k * b - b))).block b b = chain E iv (pad P n) (k + 1) := by
  funext i
  have hi := i.isLt
  rw [Buffer.block]
  by_cases hlt : k * b + b + i < n
  · rw [Buffer.copy_of_lt (by omega), hS _ (by omega), ← add_assoc, h.rest i hlt]
  · obtain ⟨j, hj⟩ := Nat.exists_eq_add_of_le (show n - k * b - b ≤ i by omega)
    rw [show b + i = b + (n - k * b - b) + j by omega, Buffer.copy_of_mem (by omega), ← hj,
      Block.bytes_of_lt hi, htmp, if_neg hlt]

end

theorem ctsCbcDecrypt_spec (hl : Layout n dst src) (h : Stolen E iv P n k C)
    (hinfo : s.info = chain E iv (pad P n) k)
    (hC : ∀ i < n, k * b ≤ i → C i = s.mem (src i)) (hk : k * b + b < n)
    (hn : n ≤ k * b + b * 2) (hb : b < 2 ^ 31) :
    ∃ t, ctsCbcDecrypt E junk dst src (k * b) (n - k * b) s = (none, t) ∧
      t.info = chain E iv (pad P n) (k + 2) ∧
      (∀ i < n, k * b ≤ i → t.mem (dst i) = P i) ∧
      ∀ a, (∀ i < n, k * b ≤ i → dst i ≠ a) → t.mem a = s.mem a := by
  -- the arrays `s` and `tmp` of the source
  obtain ⟨S, hS⟩ : ∃ S, junk.copy 0 (s.mem.gather src (k * b)) (n - k * b) = S := ⟨_, rfl⟩
  have hSC : ∀ i, k * b + i < n → S i = C (k * b + i) := fun i hi => by
    rw [← hS, Buffer.copy_zero_of_lt (by omega), hC _ hi (by omega)]
    rfl
  obtain ⟨tmp, htmp⟩ : ∃ tmp, cryptoXor (cryptoXor (E.symm (S.block b 0)) fun _ => 0)
      (((Block.bytes fun _ : Fin b => 0).copy 0 (fun i => S (b + i)) (n - k * b - b)).block b 0) =
      tmp := ⟨_, rfl⟩
  have hxor := h.xor_eq hSC hk
  rw [htmp] at hxor
  have hsame : (S.copy (b + (n - k * b - b)) (fun i => tmp.bytes (n - k * b - b + i))
      (b - (n - k * b - b))).block b 0 = S.block b 0 := by
    funext i
    exact Buffer.copy_of_lt (by omega)
  rw [ctsCbcDecrypt, lastn_eq (by omega) (by omega), if_neg (by omega)]
  simp only [Int.toNat_natCast, hS, htmp, h.append_eq hSC hxor, hsame]
  refine ⟨_, rfl, h.block_zero hSC hk, fun i hi hki => ?_, fun a ha => ?_⟩
  · obtain ⟨j, rfl⟩ := Nat.exists_eq_add_of_le hki
    refine (hl.scatter_of_lt (by omega) (by omega)).trans ?_
    by_cases hj : j < b
    · rw [Buffer.copy_zero_of_lt hj, Block.bytes_of_lt hj, hinfo, chain, symm_apply_apply,
        cryptoXor_zero, cryptoXor_self_left, Buffer.block, pad_of_lt (by omega)]
    · obtain ⟨m, rfl⟩ := Nat.exists_eq_add_of_le (Nat.not_lt.mp hj)
      have hm : k * b + b + m < n := by omega
      rw [Buffer.copy_of_le (by omega), Buffer.copy_of_mem (by omega), Block.bytes_of_lt (by omega),
        hxor, if_pos hm, add_assoc]
  · exact Buffer.scatter_of_ne fun i hi => ha _ (by omega) (by omega)

theorem Stolen.congr (h : Stolen E iv P n k C) (heq : ∀ i < n, S i = C i) (hk : k * b + b < n) :
    Stolen E iv P n k S := by
  have hblock : ∀ j ≤ k, S.block b (j * b) = C.block b (j * b) := fun j hj => by
    have hle := mul_le_mul_right b hj
    funext i
    exact heq _ (by omega)
  refine ⟨fun j hj => ?_, ?_, fun i hi => ?_⟩
  · rw [hblock j (Nat.le_of_lt hj), h.blocks j hj]
  · rw [hblock k (Nat.le_refl k), h.last]
  · rw [heq _ hi, h.rest i hi]

end Steal

theorem cryptoCtsDecrypt_eq (hk : k * b + b < n)
    (htot : totBlocks b n = (k + 2 : ℕ)) : cryptoCtsDecrypt E junk dst src n s =
      ctsCbcDecrypt E junk dst src (k * b) (n - k * b) (cbcDecrypt E dst src k s) := by
  rw [cryptoCtsDecrypt, cbcBlocks_eq htot, if_neg (by omega)]
  rcases k.eq_zero_or_pos with rfl | hpos
  · simp [cbcDecrypt]
  · have hle := block_le b hpos
    exact if_neg (by omega)

theorem cryptoCtsDecrypt_spec (hfits : Fits b n) (hl : Layout n dst src)
    (hk : k * b + b < n ∧ n ≤ k * b + b * 2 ∧ (n + b - 1) / b = k + 2)
    (hstolen : Stolen E s.info P n k (s.mem.gather src 0)) :
    ∃ t, cryptoCtsDecrypt E junk dst src n s = (none, t) ∧
      t.info = chain E s.info (pad P n) (k + 2) ∧ (∀ i < n, t.mem (dst i) = P i) ∧
      ∀ a, (∀ i < n, dst i ≠ a) → t.mem a = s.mem a := by
  obtain ⟨hk, hn, htot⟩ := hk
  obtain ⟨hinfo, hplain, hothers⟩ := cbcDecrypt_spec hl (by omega) hstolen.blocks
  have hC : ∀ i < n, k * b ≤ i →
      s.mem.gather src 0 i = (cbcDecrypt E dst src k s).mem (src i) := fun i hi hki => by
    rw [hothers, Buffer.gather, zero_add]
    exact fun j hj => hl.apart j (by omega) i hi (by omega)
  obtain ⟨t, ht, htinfo, hend, hothers'⟩ :=
    ctsCbcDecrypt_spec junk hl hstolen hinfo hC hk hn (by have := hfits.1; omega)
  refine ⟨t, (cryptoCtsDecrypt_eq junk hk (htot ▸ hfits.totBlocks_eq)).trans ht, htinfo,
    fun i hi => ?_, fun a ha => ?_⟩
  · by_cases hki : k * b ≤ i
    · exact hend i hi hki
    · rw [hothers', hplain i (by omega), pad_of_lt hi]
      exact fun j hj hkj => hl.ne hj hi (by omega)
  · rw [hothers' a fun i hi _ => ha i hi, hothers a fun i hi => ha i (by omega)]

end Decrypt

section Invert

variable {b n : ℕ} (E : Perm (Block b)) (junk junk' : Buffer) (dst src : ℕ → ℕ) (s : State b)

theorem totBlocks_self (hb : 0 < b) (hfits : Fits b b) : totBlocks b b = 1 := by
  rw [hfits.totBlocks_eq, show (b + b - 1) / b = 1 from Nat.div_eq_of_lt_le (by omega) (by omega)]
  rfl

theorem cryptoCtsEncrypt_one (hb : 0 < b) (hfits : Fits b b) :
    cryptoCtsEncrypt E junk dst src b s = (none, cbcEncrypt E dst src 1 s) := by
  rw [cryptoCtsEncrypt, totBlocks_self hb hfits]
  rfl

theorem cryptoCtsDecrypt_one (hb : 0 < b) (hfits : Fits b b) :
    cryptoCtsDecrypt E junk dst src b s = (none, cbcDecrypt E dst src 1 s) := by
  rw [cryptoCtsDecrypt, totBlocks_self hb hfits]
  rfl

/-- The ciphertext has the bytes `dst 0`, …, `dst (n - 1)`. Wherever it is, its decryption from the
same IV gives the message back and leaves the same value in the IV buffer. -/
theorem cts_decrypt_encrypt (hb : 0 < b) (hn : b ≤ n) (hfits : Fits b n)
    (hdst : ∀ i < n, ∀ j < n, dst i = dst j → i = j)
    (hsrc : (∀ i < n, dst i = src i) ∨ ∀ i < n, ∀ j < n, dst i ≠ src j) :
    ∃ s', cryptoCtsEncrypt E junk dst src n s = (none, s') ∧
      (∀ a, (∀ i < n, dst i ≠ a) → s'.mem a = s.mem a) ∧
      ∀ (t : State b) (cipher out : ℕ → ℕ), t.info = s.info →
        (∀ i < n, t.mem (cipher i) = s'.mem (dst i)) →
        (∀ i < n, ∀ j < n, out i = out j → i = j) →
        ((∀ i < n, out i = cipher i) ∨ ∀ i < n, ∀ j < n, out i ≠ cipher j) →
        ∃ t', cryptoCtsDecrypt E junk' out cipher n t = (none, t') ∧
          (∀ i < n, t'.mem (out i) = s.mem (src i)) ∧ t'.info = s'.info ∧
          ∀ a, (∀ i < n, out i ≠ a) → t'.mem a = t.mem a := by
  have hl := Layout.of_inPlace_or_apart hdst hsrc
  rcases Nat.eq_or_lt_of_le hn with rfl | hlt
  · have hP : ∀ i < b, s.mem.gather src 0 i = s.mem (src i) := fun i _ => by
      rw [Buffer.gather, zero_add]
    obtain ⟨hinfo, hblocks, hothers⟩ := cbcEncrypt_spec hl hP (k := 1) (by omega)
    rw [one_mul] at hothers
    refine ⟨_, cryptoCtsEncrypt_one E junk dst src s hb hfits, hothers,
      fun t cipher out ht hcipher hout hsame => ?_⟩
    have hC : ∀ j < 1, (t.mem.gather cipher 0).block b (j * b) =
        chain E t.info (s.mem.gather src 0) (j + 1) := fun j hj => by
      rw [ht, ← hblocks j hj]
      funext i
      have hi := i.isLt
      obtain rfl : j = 0 := by omega
      simp only [Buffer.block, Buffer.gather, zero_add, Nat.zero_mul]
      exact hcipher i hi
    obtain ⟨hinfo', hplain, hothers'⟩ :=
      cbcDecrypt_spec (Layout.of_inPlace_or_apart hout hsame) (by omega) hC
    rw [one_mul] at hplain hothers'
    refine ⟨_, cryptoCtsDecrypt_one E junk' out cipher t hb hfits, fun i hi => ?_, ?_, hothers'⟩
    · rw [hplain i hi, hP i hi]
    · rw [hinfo', hinfo, ht]
  · obtain ⟨s', k, henc, hk, hinfo, hstolen, hothers⟩ :=
      cryptoCtsEncrypt_spec junk hb hlt hfits hl
    refine ⟨s', henc, hothers, fun t cipher out ht hcipher hout hsame => ?_⟩
    have hC : Stolen E t.info (s.mem.gather src 0) n k (t.mem.gather cipher 0) := by
      rw [ht]
      refine hstolen.congr (fun i hi => ?_) hk.1
      simp only [Buffer.gather, zero_add]
      exact hcipher i hi
    obtain ⟨t', hdec, hinfo', hplain, hothers'⟩ :=
      cryptoCtsDecrypt_spec junk' hfits (Layout.of_inPlace_or_apart hout hsame) hk hC
    refine ⟨t', hdec, fun i hi => ?_, ?_, hothers'⟩
    · rw [hplain i hi, Buffer.gather, zero_add]
    · rw [hinfo', hinfo, ht]

/-- Five bytes in blocks of two, encrypted to another place and decrypted there in place. -/
theorem cts_decrypt_encrypt_five :
    ∃ s' t' : State 2,
      cryptoCtsEncrypt (Equiv.refl _) (fun _ => 0) (· + 8) id 5
        ⟨fun i => BitVec.ofNat 8 (3 * i + 1), fun _ => 7⟩ = (none, s') ∧
      cryptoCtsDecrypt (Equiv.refl _) (fun _ => 1) (· + 8) (· + 8) 5 ⟨s'.mem, fun _ => 7⟩ =
        (none, t') ∧ ∀ i < 5, t'.mem (i + 8) = BitVec.ofNat 8 (3 * i + 1) := by
  obtain ⟨s', henc, -, hdec⟩ := cts_decrypt_encrypt (b := 2) (n := 5) (Equiv.refl _)
    (fun _ => 0) (fun _ => 1) (· + 8) id ⟨fun i => BitVec.ofNat 8 (3 * i + 1), fun _ => 7⟩
    (by decide) (by decide) ⟨by decide, by decide⟩ (by decide) (.inr (by decide))
  obtain ⟨t', ht', hplain, -⟩ := hdec ⟨s'.mem, fun _ => 7⟩ (· + 8) (· + 8) rfl (fun _ _ => rfl)
    (by decide) (.inl fun _ _ => rfl)
  exact ⟨s', t', henc, ht', hplain⟩

/-- With a message of `2 ^ 32 - 1` bytes in blocks of 16, `tot_blocks` is 0. -/
theorem long_message_refused : ∃ s : State 16, ∀ s',
    cryptoCtsEncrypt (Equiv.refl _) (fun _ => 0) id id (2 ^ 32 - 1) s ≠ (none, s') ∧
      cryptoCtsDecrypt (Equiv.refl _) (fun _ => 0) id id (2 ^ 32 - 1) s ≠ (none, s') := by
  refine ⟨⟨fun _ => 0, fun _ => 0⟩, fun s' => ⟨?_, ?_⟩⟩
  · exact fun h => Option.some_ne_none Errno.einval (congrArg Prod.fst h)
  · exact fun h => Option.some_ne_none Errno.einval (congrArg Prod.fst h)

end Invert

end LinuxKernel.Cts
