import LinuxKernel.Nand.Parity

/-! # One error is corrected, and two are detected

The two codes differ in one of every two parities if a bit of the block is flipped, in one bit if a
bit of the code is flipped, and in the sum of two such differences if two bits are flipped.
-/

namespace LinuxKernel.Nand

open Function BitVec

section Bytes

/-- A byte of the difference for a bit of the block. The two lowest bits are missing in the last
byte, if a step has 256 bytes. -/
def dataByte (full x3 x2 x1 x0 : Bool) : BitVec 8 :=
  byteOf x3 (!x3) x2 (!x2) x1 (!x1) (full && x0) (full && !x0)

/-- The bits where two parities are compared. -/
def maskOf (full : Bool) : BitVec 8 := if full then 0x55 else 0x54

theorem dataByte_spec : ∀ full x3 x2 x1 x0,
    pairsDiffer (dataByte full x3 x2 x1 x0) (maskOf full) = true ∧
      3 ≤ bitsperbyte (dataByte full x3 x2 x1 x0) ∧ dataByte full x3 x2 x1 x0 ≠ 0 := by
  decide +kernel

theorem zero_spec : ∀ full, pairsDiffer 0 (maskOf full) = false ∧ bitsperbyte 0 = 0 := by
  decide +kernel

theorem bit_spec : ∀ i < 8, bitsperbyte (1#8 <<< i) = 1 ∧ 1#8 <<< i ≠ 0 := by
  decide +kernel

theorem dataByte_xor_spec : ∀ full x3 x2 x1 x0 y3 y2 y1 y0,
    pairsDiffer (dataByte full x3 x2 x1 x0 ^^^ dataByte full y3 y2 y1 y0) (maskOf full) = false ∧
      bitsperbyte (dataByte full x3 x2 x1 x0 ^^^ dataByte full y3 y2 y1 y0) % 2 = 0 ∧
      (dataByte full x3 x2 x1 x0 ^^^ dataByte full y3 y2 y1 y0 = 0 →
        x3 = y3 ∧ x2 = y2 ∧ x1 = y1 ∧ (full = true → x0 = y0)) := by
  decide +kernel

theorem dataByte_bit_spec : ∀ i < 8, ∀ full x3 x2 x1 x0, (full = true ∨ 2 ≤ i) →
    pairsDiffer (dataByte full x3 x2 x1 x0 ^^^ 1#8 <<< i) (maskOf full) = false := by
  decide +kernel

theorem bit_xor_spec : ∀ i < 8, ∀ j < 8, i ≠ j →
    bitsperbyte (1#8 <<< i ^^^ 1#8 <<< j) = 2 ∧ 1#8 <<< i ^^^ 1#8 <<< j ≠ 0 := by
  decide +kernel

theorem addressbits_spec : ∀ x3 x2 x1 x0, addressbits (dataByte true x3 x2 x1 x0) =
      x3.toNat * 8 + x2.toNat * 4 + x1.toNat * 2 + x0.toNat ∧
    ∀ full, addressbits (dataByte full x3 x2 x1 x0 >>> 2) = x3.toNat * 4 + x2.toNat * 2 + x1.toNat ∧
    addressbits (dataByte true x3 x2 x1 x0 &&& 0x3) = x0.toNat := by
  decide +kernel

end Bytes

section Diagnosis

variable {mult : ℕ} {buf : ℕ → BitVec 8} {b : Fin 3 → BitVec 8}

theorem or_eq_zero_iff : b 0 ||| b 1 ||| b 2 = 0 ↔ ∀ k, b k = 0 := by
  simp only [ofNat_eq_ofNat, BitVec.or_eq_zero_iff]
  refine ⟨fun ⟨⟨h0, h1⟩, h2⟩ k => ?_, fun h => ⟨⟨h 0, h 1⟩, h 2⟩⟩
  match k with
  | 0 => exact h0
  | 1 => exact h1
  | 2 => exact h2

/-- The test of `__nand_correct_data` for a single error. -/
theorem test_eq (hmult : mult = 1 ∨ mult = 2) :
    (pairsDiffer (b 0) 0x55 && pairsDiffer (b 1) 0x55 &&
      (mult = 1 && pairsDiffer (b 2) 0x54 || mult = 2 && pairsDiffer (b 2) 0x55)) = true ↔
    ∀ k, pairsDiffer (b k) (maskOf (isFull mult k)) = true := by
  have hall : (∀ k, pairsDiffer (b k) (maskOf (isFull mult k)) = true) ↔
      (pairsDiffer (b 0) 0x55 = true ∧ pairsDiffer (b 1) 0x55 = true) ∧
        pairsDiffer (b 2) (maskOf (isFull mult 2)) = true := by
    refine ⟨fun h => ⟨⟨h 0, h 1⟩, h 2⟩, fun ⟨⟨h0, h1⟩, h2⟩ k => ?_⟩
    match k with
    | 0 => exact h0
    | 1 => exact h1
    | 2 => exact h2
  rw [hall]
  rcases hmult with rfl | rfl <;> simp [isFull, maskOf]

theorem correct_of_not (hmult : mult = 1 ∨ mult = 2) {k k' : Fin 3} (hk : b k ≠ 0)
    (hdiff : pairsDiffer (b k') (maskOf (isFull mult k')) = false) :
    correct mult buf (b 0) (b 1) (b 2) = if weight b = 1 then (1, buf) else (-1, buf) := by
  have hzero : ¬ b 0 ||| b 1 ||| b 2 = 0 := fun h => hk (or_eq_zero_iff.mp h k)
  have htest := (test_eq (b := b) hmult).not.mpr fun h => by simp [h k'] at hdiff
  rw [correct, if_neg hzero, if_neg htest]
  rfl

theorem le_weight (k : Fin 3) : bitsperbyte (b k) ≤ weight b := by
  rw [weight]
  match k with
  | 0 => omega
  | 1 => omega
  | 2 => omega

end Diagnosis

section Flips

variable {c : Config} {eccsize mult a j : ℕ} {buf : ℕ → BitVec 8} {e : Fin 3 → BitVec 8}

/-- The bits of the address of a data bit, as they are in the three bytes of a difference. -/
def addressOf (a j : ℕ) : Fin 3 → Fin 4 → Bool
  | 0, i => a.testBit i
  | 1, i => a.testBit (4 + i)
  | 2, 0 => a.testBit 8
  | 2, 1 => j.testBit 0
  | 2, 2 => j.testBit 1
  | 2, 3 => j.testBit 2

def dataDiff (mult a j : ℕ) (k : Fin 3) : BitVec 8 :=
  dataByte (isFull mult k) (addressOf a j k 3) (addressOf a j k 2) (addressOf a j k 1)
    (addressOf a j k 0)

theorem place_eq_iff : ∀ k l, place c l = k ↔ l = place c k := by
  obtain ⟨be, smc⟩ := c
  cases smc <;> cases be <;> decide

theorem nandCorrectData_eq (e e' : Fin 3 → BitVec 8) : nandCorrectData c eccsize buf e e' =
    correct (eccsize >>> 8) buf (e (place c 0) ^^^ e' (place c 0))
      (e (place c 1) ^^^ e' (place c 1)) (e (place c 2) ^^^ e' (place c 2)) := by
  rw [nandCorrectData]
  cases hs : c.smc <;> simp [place, hs]

theorem pattern_place (k : Fin 3) : pattern c mult a j (place c k) = dataDiff mult a j k := by
  match k with
  | 0 => cases hs : c.smc <;> simp only [place, hs, pattern] <;> rfl
  | 1 => cases hs : c.smc <;> simp only [place, hs, pattern] <;> rfl
  | 2 => rfl

theorem Flip.Meaningful.data {f : Flip} (hf : f.Meaningful eccsize) :
    ∀ a j, f = .data a j → a < eccsize ∧ j < 8 := by
  rintro a j rfl
  exact hf

def Flip.block (buf : ℕ → BitVec 8) : Flip → ℕ → BitVec 8
  | data a j => flipBit buf a j
  | code _ _ => buf

def Flip.ecc (e : Fin 3 → BitVec 8) : Flip → Fin 3 → BitVec 8
  | data _ _ => e
  | code k i => update e k (e k ^^^ 1#8 <<< i)

/-- What the bit changes in the difference of the codes. -/
def Flip.diff (c : Config) (mult : ℕ) : Flip → Fin 3 → BitVec 8
  | data a j => dataDiff mult a j
  | code k i => fun l => if l = place c k then 1#8 <<< i else 0

theorem Flip.diff_eq (h : eccsize = 256 ∨ eccsize = 512) {f : Flip}
    (hf : ∀ a j, f = .data a j → a < eccsize ∧ j < 8) (k : Fin 3) :
    f.ecc e (place c k) ^^^ nandCalculateEcc c eccsize (f.block buf) (place c k) =
      (e (place c k) ^^^ nandCalculateEcc c eccsize buf (place c k)) ^^^
        f.diff c (eccsize >>> 8) k := by
  cases f with
  | data a j =>
    obtain ⟨ha, hj⟩ := hf a j rfl
    rw [ecc, block, nandCalculateEcc_flipBit h ha hj, pattern_place, diff, xor_assoc]
  | code k' i =>
    simp only [ecc, diff]
    by_cases hk : place c k = k'
    · rw [← hk, update_self, if_pos ((place_eq_iff _ _).mp rfl)]
      ac_rfl
    · rw [update_of_ne hk, if_neg (fun h => hk ((place_eq_iff _ _).mpr h))]
      exact xor_zero.symm

end Flips

section Errors

variable {c : Config} {eccsize mult a j a' j' i i' : ℕ} {k k' : Fin 3} {buf : ℕ → BitVec 8}
  {b : Fin 3 → BitVec 8}

theorem address_eq : (∀ a < 512, (a.testBit 8).toNat <<< 8 + ((a.testBit 7).toNat * 8 +
      (a.testBit 6).toNat * 4 + (a.testBit 5).toNat * 2 + (a.testBit 4).toNat) <<< 4 +
      ((a.testBit 3).toNat * 8 + (a.testBit 2).toNat * 4 + (a.testBit 1).toNat * 2 +
        (a.testBit 0).toNat) = a) ∧
    (∀ a < 256, a.testBit 8 = false) ∧
    ∀ j < 8, (j.testBit 2).toNat * 4 + (j.testBit 1).toNat * 2 + (j.testBit 0).toNat = j := by
  decide +kernel

theorem flipBit_flipBit (buf : ℕ → BitVec 8) (a j : ℕ) : flipBit (flipBit buf a j) a j = buf := by
  rw [flipBit, flipBit, update_idem, update_self, xor_assoc, BitVec.xor_self,
    xor_zero, update_eq_self]

section

variable (hmult : mult = 1 ∨ mult = 2) (ha : a < 256 * mult) (hj : j < 8)
include hmult ha hj

theorem correct_data :
    correct mult buf (dataDiff mult a j 0) (dataDiff mult a j 1) (dataDiff mult a j 2) =
      (1, flipBit buf a j) := by
  have hzero : ¬ dataDiff mult a j 0 ||| dataDiff mult a j 1 ||| dataDiff mult a j 2 = 0 :=
    fun h => (dataByte_spec _ _ _ _ _).2.2 (or_eq_zero_iff.mp h 0)
  have htest := (test_eq (b := dataDiff mult a j) hmult).mpr fun k => (dataByte_spec _ _ _ _ _).1
  obtain ⟨haddr, hhigh, hbit⟩ := address_eq
  have hbits : addressbits (dataDiff mult a j 2 >>> 2) = j :=
    ((addressbits_spec ..).2 _).1.trans (hbit j hj)
  rw [correct, if_neg hzero, if_pos htest, hbits]
  have h0 : addressbits (dataDiff mult a j 0) = _ := (addressbits_spec ..).1
  have h1 : addressbits (dataDiff mult a j 1) = _ := (addressbits_spec ..).1
  rw [h0, h1]
  rcases hmult with rfl | rfl
  · have hsum := haddr a (by omega)
    rw [hhigh a ha, show false.toNat <<< 8 = 0 from rfl, zero_add] at hsum
    exact congrArg (fun a => (1, flipBit buf a j)) hsum
  · have h2 : addressbits (dataDiff 2 a j 2 &&& 0x3) = _ := ((addressbits_spec ..).2 true).2
    rw [h2]
    exact congrArg (fun a => (1, flipBit buf a j)) (haddr a ha)

theorem dataDiff_injective (ha' : a' < 256 * mult) (hj' : j' < 8)
    (h : ∀ k, dataDiff mult a j k ^^^ dataDiff mult a' j' k = 0) :
    a = a' ∧ j = j' := by
  have hbits : ∀ k, addressOf a j k 3 = addressOf a' j' k 3 ∧
      addressOf a j k 2 = addressOf a' j' k 2 ∧ addressOf a j k 1 = addressOf a' j' k 1 ∧
      (isFull mult k = true → addressOf a j k 0 = addressOf a' j' k 0) :=
    fun k => (dataByte_xor_spec ..).2.2 (h k)
  obtain ⟨haddr, hhigh, hbit⟩ := address_eq
  have h8 : a.testBit 8 = a'.testBit 8 := by
    rcases hmult with rfl | rfl
    · rw [hhigh a ha, hhigh a' ha']
    · exact (hbits 2).2.2.2 rfl
  have hlow : a.testBit 3 = a'.testBit 3 ∧ a.testBit 2 = a'.testBit 2 ∧
      a.testBit 1 = a'.testBit 1 ∧ (true = true → a.testBit 0 = a'.testBit 0) := hbits 0
  have hmid : a.testBit 7 = a'.testBit 7 ∧ a.testBit 6 = a'.testBit 6 ∧
      a.testBit 5 = a'.testBit 5 ∧ (true = true → a.testBit 4 = a'.testBit 4) := hbits 1
  have hcol : j.testBit 2 = j'.testBit 2 ∧ j.testBit 1 = j'.testBit 1 ∧
      j.testBit 0 = j'.testBit 0 ∧ _ := hbits 2
  constructor
  · rw [← haddr a (by omega), ← haddr a' (by omega), h8, hlow.1, hlow.2.1, hlow.2.2.1,
      hlow.2.2.2 rfl, hmid.1, hmid.2.1, hmid.2.2.1, hmid.2.2.2 rfl]
  · rw [← hbit j hj, ← hbit j' hj', hcol.1, hcol.2.1, hcol.2.2.1]

theorem correct_data_data (ha' : a' < 256 * mult) (hj' : j' < 8) (hne : (a, j) ≠ (a', j'))
    (hb : ∀ k, b k = dataDiff mult a j k ^^^ dataDiff mult a' j' k) :
    correct mult buf (b 0) (b 1) (b 2) = (-1, buf) := by
  obtain ⟨k, hk⟩ : ∃ k, b k ≠ 0 := by
    by_contra hall
    obtain ⟨rfl, rfl⟩ := dataDiff_injective hmult ha hj ha' hj' fun k => by
      rw [← hb]
      exact not_not.mp fun hk => hall ⟨k, hk⟩
    exact hne rfl
  have hspec : ∀ k, pairsDiffer (b k) (maskOf (isFull mult k)) = false ∧
      bitsperbyte (b k) % 2 = 0 := fun k => by
    rw [hb]
    exact ⟨(dataByte_xor_spec ..).1, (dataByte_xor_spec ..).2.1⟩
  rw [correct_of_not hmult hk (hspec 0).1, if_neg]
  have h0 := (hspec 0).2
  have h1 := (hspec 1).2
  have h2 := (hspec 2).2
  rw [weight]
  omega

end

theorem exists_ne_ne : ∀ k k' : Fin 3, ∃ l, l ≠ k ∧ l ≠ k' := by decide

section

variable (hmult : mult = 1 ∨ mult = 2) (hi : i < 8)
include hmult hi

theorem correct_data_code (hfull : isFull mult k = true ∨ 2 ≤ i)
    (hb : ∀ l, b l = dataDiff mult a j l ^^^ if l = k then 1#8 <<< i else 0) :
    correct mult buf (b 0) (b 1) (b 2) = (-1, buf) := by
  obtain ⟨l, hl, -⟩ := exists_ne_ne k k
  have hbl : b l = dataDiff mult a j l := by
    rw [hb, if_neg hl]
    exact xor_zero
  have hdiff : pairsDiffer (b k) (maskOf (isFull mult k)) = false := by
    rw [hb, if_pos rfl]
    exact dataByte_bit_spec i hi _ _ _ _ _ hfull
  have hle := le_weight (b := b) l
  have hthree : 3 ≤ bitsperbyte (b l) := hbl ▸ (dataByte_spec ..).2.1
  have hne : b l ≠ 0 := hbl.symm ▸ (dataByte_spec ..).2.2
  rw [correct_of_not hmult hne hdiff, if_neg (by omega)]

theorem correct_code (hb : ∀ l, b l = if l = k then 1#8 <<< i else 0) :
    correct mult buf (b 0) (b 1) (b 2) = (1, buf) := by
  obtain ⟨l, hl, -⟩ := exists_ne_ne k k
  obtain ⟨hone, hne⟩ := bit_spec i hi
  have hzero : b l = 0 := by rw [hb, if_neg hl]
  have hbk : b k = 1#8 <<< i := by rw [hb, if_pos rfl]
  have hweight : weight b = 1 := by
    have h0 : bitsperbyte 0#8 = 0 := (zero_spec true).2
    rw [weight, hb, hb, hb]
    match k with
    | 0 => simp [hone, h0]
    | 1 => simp [hone, h0]
    | 2 => simp [hone, h0]
  rw [correct_of_not hmult (hbk ▸ hne) (hzero ▸ (zero_spec _).1), if_pos hweight]

theorem correct_code_code (hi' : i' < 8) (hne : (k, i) ≠ (k', i'))
    (hb : ∀ l, b l = (if l = k then 1#8 <<< i else 0) ^^^ if l = k' then 1#8 <<< i' else 0) :
    correct mult buf (b 0) (b 1) (b 2) = (-1, buf) := by
  obtain ⟨l, hl, hl'⟩ := exists_ne_ne k k'
  have hzero : b l = 0 := by
    rw [hb, if_neg hl, if_neg hl']
    rfl
  have h0 : bitsperbyte 0#8 = 0 := (zero_spec true).2
  have hdiff : pairsDiffer (b l) (maskOf (isFull mult l)) = false := hzero ▸ (zero_spec _).1
  have hspec : b k ≠ 0 ∧ weight b = 2 := by
    by_cases hk : k = k'
    · subst hk
      have hii : i ≠ i' := fun heq => hne (by rw [heq])
      obtain ⟨htwo, hne⟩ := bit_xor_spec i hi i' hi' hii
      refine ⟨by rw [hb, if_pos rfl, if_pos rfl]; exact hne, ?_⟩
      rw [weight, hb, hb, hb]
      match k with
      | 0 => simp [htwo, h0]
      | 1 => simp [htwo, h0]
      | 2 => simp [htwo, h0]
    · obtain ⟨hone, hne⟩ := bit_spec i hi
      obtain ⟨hone', -⟩ := bit_spec i' hi'
      refine ⟨by rw [hb, if_neg hk]; simpa using hne, ?_⟩
      rw [weight, hb, hb, hb]
      match k, k' with
      | 0, 0 | 1, 1 | 2, 2 => exact absurd rfl hk
      | 0, 1 | 0, 2 | 1, 0 | 1, 2 | 2, 0 | 2, 1 => simp [hone, hone', h0]
  rw [correct_of_not hmult hspec.1 hdiff, hspec.2, if_neg (by decide)]

end

section

variable (h : eccsize = 256 ∨ eccsize = 512)
include h

theorem mult_spec : (eccsize >>> 8 = 1 ∨ eccsize >>> 8 = 2) ∧ 256 * (eccsize >>> 8) = eccsize := by
  rcases h with rfl | rfl <;> decide

theorem isFull_place (hk : eccsize = 256 → k = 2 → 2 ≤ i) :
    isFull (eccsize >>> 8) (place c k) = true ∨ 2 ≤ i := by
  rcases h with rfl | rfl
  · by_cases hk2 : k = 2
    · exact .inr (hk rfl hk2)
    · have hne : place c k ≠ 2 := fun heq => hk2 ((place_eq_iff 2 k).mp heq)
      exact .inl (by simp [isFull, hne])
  · exact .inl (by simp [isFull])

theorem correct_two {f g : Flip} (hfg : f ≠ g) (hf : f.Meaningful eccsize)
    (hg : g.Meaningful eccsize)
    (hb : ∀ k, b k = f.diff c (eccsize >>> 8) k ^^^ g.diff c (eccsize >>> 8) k) :
    correct (eccsize >>> 8) buf (b 0) (b 1) (b 2) = (-1, buf) := by
  obtain ⟨hmult, hsize⟩ := mult_spec h
  cases f with
  | data a j =>
    cases g with
    | data a' j' =>
      refine correct_data_data hmult (hf.1.trans_eq hsize.symm) hf.2 (hg.1.trans_eq hsize.symm) hg.2
        (fun heq => hfg ?_) hb
      rw [(Prod.mk.inj heq).1, (Prod.mk.inj heq).2]
    | code k i => exact correct_data_code hmult hg.1 (isFull_place h hg.2) hb
  | code k i =>
    cases g with
    | data a j =>
      have hb' : ∀ l, b l = dataDiff (eccsize >>> 8) a j l ^^^
          if l = place c k then 1#8 <<< i else 0 :=
        fun l => (hb l).trans (BitVec.xor_comm _ _)
      exact correct_data_code hmult hf.1 (isFull_place h hf.2) hb'
    | code k' i' =>
      refine correct_code_code hmult hf.1 hg.1 (fun heq => hfg ?_) hb
      obtain ⟨hk, rfl⟩ := Prod.mk.inj heq
      rw [← (place_eq_iff _ _).mpr hk.symm, (place_eq_iff _ _).mpr rfl]

end

end Errors

section Ecc

/-- One flipped bit is corrected, and two are detected. -/
theorem nand_ecc {eccsize : ℕ} (h : eccsize = 256 ∨ eccsize = 512) (c : Config)
    (buf : ℕ → BitVec 8) :
    nandCorrectData c eccsize buf (nandCalculateEcc c eccsize buf)
      (nandCalculateEcc c eccsize buf) = (0, buf) ∧
    (∀ a < eccsize, ∀ j < 8, nandCorrectData c eccsize (flipBit buf a j)
      (nandCalculateEcc c eccsize buf) (nandCalculateEcc c eccsize (flipBit buf a j)) = (1, buf)) ∧
    (∀ k, ∀ i < 8, nandCorrectData c eccsize buf
      ((Flip.code k i).ecc (nandCalculateEcc c eccsize buf)) (nandCalculateEcc c eccsize buf) =
        (1, buf)) ∧
    ∀ f g : Flip, f ≠ g → f.Meaningful eccsize → g.Meaningful eccsize →
      nandCorrectData c eccsize (f.block (g.block buf))
        (f.ecc (g.ecc (nandCalculateEcc c eccsize buf)))
        (nandCalculateEcc c eccsize (f.block (g.block buf))) = (-1, f.block (g.block buf)) := by
  obtain ⟨hmult, hsize⟩ := mult_spec h
  have hself : ∀ x : BitVec 8, x ^^^ x = 0 := fun x => xor_self
  have hone : ∀ f : Flip, (∀ a j, f = .data a j → a < eccsize ∧ j < 8) → ∀ k,
      f.ecc (nandCalculateEcc c eccsize buf) (place c k) ^^^
        nandCalculateEcc c eccsize (f.block buf) (place c k) = f.diff c (eccsize >>> 8) k :=
    fun f hf k => by rw [Flip.diff_eq h hf, hself]; exact zero_xor
  refine ⟨?_, fun a ha j hj => ?_, fun k i hi => ?_, fun f g hfg hf hg => ?_⟩
  · rw [nandCorrectData_eq, hself, hself, hself]
    rfl
  · have hf : ∀ a' j', Flip.data a j = .data a' j' → a' < eccsize ∧ j' < 8 := by
      rintro _ _ ⟨⟩
      exact ⟨ha, hj⟩
    have hdiff := hone (.data a j) hf
    simp only [Flip.ecc, Flip.block, Flip.diff] at hdiff
    rw [nandCorrectData_eq, hdiff, hdiff, hdiff, correct_data hmult (ha.trans_eq hsize.symm) hj,
      flipBit_flipBit]
  · have hdiff := hone (.code k i) (by rintro _ _ ⟨⟩)
    simp only [Flip.block] at hdiff
    rw [nandCorrectData_eq, hdiff, hdiff, hdiff]
    exact correct_code hmult hi fun l => rfl
  · have hdiff : ∀ k, f.ecc (g.ecc (nandCalculateEcc c eccsize buf)) (place c k) ^^^
        nandCalculateEcc c eccsize (f.block (g.block buf)) (place c k) =
          f.diff c (eccsize >>> 8) k ^^^ g.diff c (eccsize >>> 8) k := fun k => by
      rw [Flip.diff_eq h hf.data, hone g hg.data, BitVec.xor_comm]
    rw [nandCorrectData_eq]
    exact correct_two h hfg hf hg hdiff

/-- A flipped bit of a step of zeros. -/
theorem nand_ecc_zeros : nandCorrectData ⟨false, true⟩ 256 (flipBit (fun _ => 0) 200 3)
    (nandCalculateEcc ⟨false, true⟩ 256 fun _ => 0)
    (nandCalculateEcc ⟨false, true⟩ 256 (flipBit (fun _ => 0) 200 3)) = (1, fun _ => 0) :=
  (nand_ecc (.inl rfl) ⟨false, true⟩ fun _ => 0).2.1 200 (by decide) 3 (by decide)

end Ecc

end LinuxKernel.Nand
