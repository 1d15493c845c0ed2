import Mathlib.Data.Nat.Bitwise
import Mathlib.Tactic.IntervalCases
import LinuxKernel.Nand.Model

/-! # The code is linear

Every bit of the code is the parity of some bits of the block. A bit of the block that is flipped
therefore flips one of every two parities: the one for the value of that address bit.
-/

namespace LinuxKernel.Nand

open List BitVec Function

section Parity

def odd (x : BitVec 8) : Bool := (List.range 8).foldl (fun b i => b ^^ x.getLsbD i) false

theorem foldl_xor (f g : ℕ → Bool) (l : List ℕ) (a b : Bool) :
    l.foldl (fun b i => b ^^ (f i ^^ g i)) (a ^^ b) =
      (l.foldl (fun b i => b ^^ f i) a ^^ l.foldl (fun b i => b ^^ g i) b) := by
  induction l generalizing a b with
  | nil => rfl
  | cons i l ih =>
    rw [foldl_cons, foldl_cons, foldl_cons, ← ih]
    congr 1
    cases a <;> cases b <;> cases f i <;> cases g i <;> rfl

theorem odd_xor (x y : BitVec 8) : odd (x ^^^ y) = (odd x ^^ odd y) := by
  simp only [odd, getLsbD_xor]
  exact foldl_xor x.getLsbD y.getLsbD _ false false

def bit (b : Bool) : BitVec 8 := if b then 1 else 0

theorem invparity_eq : ∀ x, invparity x = bit (!odd x) := by decide +kernel

def byteOf (b7 b6 b5 b4 b3 b2 b1 b0 : Bool) : BitVec 8 :=
  bit b7 <<< 7 ||| bit b6 <<< 6 ||| bit b5 <<< 5 ||| bit b4 <<< 4 ||| bit b3 <<< 3 |||
    bit b2 <<< 2 ||| bit b1 <<< 1 ||| bit b0

theorem getLsbD_bit (b : Bool) (i : ℕ) : (bit b).getLsbD i = (b && decide (i = 0)) := by
  cases b
  · simp [bit]
  · cases i <;> simp [bit]

theorem getLsbD_byteOf (b7 b6 b5 b4 b3 b2 b1 b0 : Bool) {i : ℕ} (hi : i < 8) :
    (byteOf b7 b6 b5 b4 b3 b2 b1 b0).getLsbD i = [b0, b1, b2, b3, b4, b5, b6, b7].getD i false := by
  simp only [byteOf, getLsbD_or, getLsbD_shiftLeft, getLsbD_bit]
  interval_cases i <;> simp

theorem byteOf_xor (x7 x6 x5 x4 x3 x2 x1 x0 y7 y6 y5 y4 y3 y2 y1 y0 : Bool) :
    byteOf (x7 ^^ y7) (x6 ^^ y6) (x5 ^^ y5) (x4 ^^ y4) (x3 ^^ y3) (x2 ^^ y2) (x1 ^^ y1) (x0 ^^ y0) =
      byteOf x7 x6 x5 x4 x3 x2 x1 x0 ^^^ byteOf y7 y6 y5 y4 y3 y2 y1 y0 := by
  refine eq_of_getLsbD_eq fun i hi => ?_
  rw [getLsbD_xor, getLsbD_byteOf _ _ _ _ _ _ _ _ hi, getLsbD_byteOf _ _ _ _ _ _ _ _ hi,
    getLsbD_byteOf _ _ _ _ _ _ _ _ hi]
  interval_cases i <;> rfl

end Parity

section Loop

variable {mult i w n : ℕ} {m : BitVec 32} {s t : Parities} {u v : ℕ → BitVec 32}

def Parities.xor (s t : Parities) : Parities where
  par := s.par ^^^ t.par
  rp4 := s.rp4 ^^^ t.rp4
  rp6 := s.rp6 ^^^ t.rp6
  rp8 := s.rp8 ^^^ t.rp8
  rp10 := s.rp10 ^^^ t.rp10
  rp12 := s.rp12 ^^^ t.rp12
  rp14 := s.rp14 ^^^ t.rp14
  rp16 := s.rp16 ^^^ t.rp16

theorem ite_xor_xor {p : Prop} [Decidable p] (a b c d : BitVec 32) :
    (if p then a ^^^ b ^^^ (c ^^^ d) else a ^^^ b) =
      (if p then a ^^^ c else a) ^^^ if p then b ^^^ d else b := by
  split
  · ac_rfl
  · rfl

/-- `tmppar` at the end of a round. -/
def tmppar (bp : ℕ → BitVec 32) (i : ℕ) : BitVec 32 :=
  bp (16 * i) ^^^ bp (16 * i + 1) ^^^ bp (16 * i + 2) ^^^ bp (16 * i + 3) ^^^ bp (16 * i + 4) ^^^
    bp (16 * i + 5) ^^^ bp (16 * i + 6) ^^^ bp (16 * i + 7) ^^^ bp (16 * i + 8) ^^^
    bp (16 * i + 9) ^^^ bp (16 * i + 10) ^^^ bp (16 * i + 11) ^^^ bp (16 * i + 12) ^^^
    bp (16 * i + 13) ^^^ bp (16 * i + 14) ^^^ bp (16 * i + 15)

theorem round_eq : round mult u s i =
    { par := s.par ^^^ tmppar u i
      rp4 := s.rp4 ^^^ (u (16 * i) ^^^ u (16 * i + 2) ^^^ u (16 * i + 4) ^^^ u (16 * i + 6) ^^^
        u (16 * i + 8) ^^^ u (16 * i + 10) ^^^ u (16 * i + 12) ^^^ u (16 * i + 14))
      rp6 := s.rp6 ^^^ (u (16 * i) ^^^ u (16 * i + 1) ^^^ u (16 * i + 4) ^^^ u (16 * i + 5) ^^^
        u (16 * i + 8) ^^^ u (16 * i + 9) ^^^ u (16 * i + 12) ^^^ u (16 * i + 13))
      rp8 := s.rp8 ^^^ (u (16 * i) ^^^ u (16 * i + 1) ^^^ u (16 * i + 2) ^^^ u (16 * i + 3) ^^^
        u (16 * i + 8) ^^^ u (16 * i + 9) ^^^ u (16 * i + 10) ^^^ u (16 * i + 11))
      rp10 := s.rp10 ^^^ (u (16 * i) ^^^ u (16 * i + 1) ^^^ u (16 * i + 2) ^^^ u (16 * i + 3) ^^^
        u (16 * i + 4) ^^^ u (16 * i + 5) ^^^ u (16 * i + 6) ^^^ u (16 * i + 7))
      rp12 := if i &&& 0x1 = 0 then s.rp12 ^^^ tmppar u i else s.rp12
      rp14 := if i &&& 0x2 = 0 then s.rp14 ^^^ tmppar u i else s.rp14
      rp16 := if mult = 2 ∧ i &&& 0x4 = 0 then s.rp16 ^^^ tmppar u i else s.rp16 } := by
  simp only [round, tmppar, Parities.mk.injEq, true_and]
  refine ⟨?_, ?_, ?_⟩ <;> ac_rfl

theorem round_xor : round mult (fun k => u k ^^^ v k) (s.xor t) i =
    (round mult u s i).xor (round mult v t i) := by
  have htmppar : tmppar (fun k => u k ^^^ v k) i = tmppar u i ^^^ tmppar v i := by
    simp only [tmppar]
    ac_rfl
  simp only [round_eq, Parities.xor, htmppar, ite_xor_xor, Parities.mk.injEq]
  refine ⟨?_, ?_, ?_, ?_, ?_⟩ <;> ac_rfl

/-- What a longword contributes to the parities. -/
def contribution (mult w : ℕ) (m : BitVec 32) : Parities where
  par := m
  rp4 := if w.testBit 0 then 0 else m
  rp6 := if w.testBit 1 then 0 else m
  rp8 := if w.testBit 2 then 0 else m
  rp10 := if w.testBit 3 then 0 else m
  rp12 := if w.testBit 4 then 0 else m
  rp14 := if w.testBit 5 then 0 else m
  rp16 := if mult = 2 ∧ w.testBit 6 = false then m else 0

def single (w : ℕ) (m : BitVec 32) (k : ℕ) : BitVec 32 := if k = w then m else 0

theorem and_two_pow_eq_zero (i k : ℕ) : i &&& 2 ^ k = 0 ↔ i.testBit k = false := by
  rw [Nat.and_two_pow]
  cases i.testBit k <;> simp

theorem round_of_zero (h : ∀ r < 16, u (16 * i + r) = 0) : round mult u s i = s := by
  have h0 : u (16 * i) = 0 := h 0 (by decide)
  have htmppar : tmppar u i = 0 := by simp [tmppar, h0, h]
  simp [round_eq, htmppar, h0, h]

theorem single_add (i r k : ℕ) : single (16 * i + r) m (16 * i + k) = if k = r then m else 0 := by
  simp [single]

theorem tmppar_single {r : ℕ} (hr : r < 16) : tmppar (single (16 * i + r) m) i = m := by
  have h0 : single (16 * i + r) m (16 * i) = if 0 = r then m else 0 := single_add i r 0
  simp only [tmppar, single_add, h0]
  interval_cases r <;> simp

theorem ite_xor_ite {p : Prop} [Decidable p] {b : Bool} (h : p ↔ b = false) (x : BitVec 32) :
    (if p then x ^^^ m else x) = x ^^^ if b then 0 else m := by
  cases b
  · rw [if_pos (h.mpr rfl)]
    rfl
  · rw [if_neg (fun hp => absurd (h.mp hp) (by decide))]
    simp

theorem round_single {r : ℕ} (hr : r < 16) : round mult (single (16 * i + r) m) s i =
    s.xor (contribution mult (16 * i + r) m) := by
  have h0 : single (16 * i + r) m (16 * i) = if 0 = r then m else 0 := single_add i r 0
  have hbit : ∀ k, (16 * i + r).testBit k = if k < 4 then r.testBit k else i.testBit (k - 4) :=
    Nat.testBit_two_pow_mul_add i (show r < 2 ^ 4 from hr)
  have hand := and_two_pow_eq_zero i
  rw [round_eq, tmppar_single hr]
  simp only [Parities.xor, contribution, hbit, single_add, h0, Parities.mk.injEq, true_and]
  refine ⟨?_, ?_, ?_, ?_, ?_, ?_, ?_⟩
  · interval_cases r <;> simp
  · interval_cases r <;> simp [Nat.testBit]
  · interval_cases r <;> simp [Nat.testBit]
  · interval_cases r <;> simp [Nat.testBit]
  · exact ite_xor_ite (hand 0) _
  · exact ite_xor_ite (hand 1) _
  · have hiff : (mult = 2 ∧ i &&& 0x4 = 0) ↔ (mult = 2 ∧ i.testBit 2 = false) :=
      and_congr_right fun _ => hand 2
    change _ = s.rp16 ^^^ if mult = 2 ∧ i.testBit 2 = false then m else 0
    by_cases hp : mult = 2 ∧ i.testBit 2 = false
    · rw [if_pos (hiff.mpr hp), if_pos hp]
    · rw [if_neg (hiff.not.mpr hp), if_neg hp]
      exact (xor_zero).symm

theorem foldl_round_single {l : List ℕ} (hl : l.Nodup) :
    l.foldl (round mult (single w m)) s =
      if w / 16 ∈ l then s.xor (contribution mult w m) else s := by
  induction l generalizing s with
  | nil => rfl
  | cons i l ih =>
    obtain ⟨hi, hl⟩ := nodup_cons.mp hl
    rw [foldl_cons, ih hl]
    by_cases hiw : w / 16 = i
    · have hw : w = 16 * i + w % 16 := by omega
      have hround : round mult (single w m) s i = s.xor (contribution mult w m) := by
        rw [hw]
        exact round_single (Nat.mod_lt w (by decide))
      rw [hround, hiw, if_neg hi, if_pos mem_cons_self]
    · have hround : round mult (single w m) s i = s := round_of_zero fun r hr => if_neg (by omega)
      simp only [hround, mem_cons, hiw, false_or]

theorem foldl_round_xor (l : List ℕ) :
    l.foldl (round mult fun k => u k ^^^ v k) (s.xor t) =
      (l.foldl (round mult u) s).xor (l.foldl (round mult v) t) := by
  induction l generalizing s t with
  | nil => rfl
  | cons i l ih => rw [foldl_cons, round_xor, ih, foldl_cons, foldl_cons]

theorem parities_xor_single (hw : w / 16 < mult <<< 2) :
    parities mult (fun k => u k ^^^ single w m k) =
      (parities mult u).xor (contribution mult w m) := by
  have hzero : ∀ t : Parities, (⟨0, 0, 0, 0, 0, 0, 0, 0⟩ : Parities).xor t = t := fun t => by
    simp [Parities.xor]
  rw [parities, ← hzero ⟨0, 0, 0, 0, 0, 0, 0, 0⟩, foldl_round_xor,
    foldl_round_single nodup_range, if_pos (mem_range.mpr hw), hzero]
  rfl

end Loop

section Code

variable {c : Config} {mult : ℕ} {s t : Parities} {m x y : BitVec 32}

theorem xor_and {n : ℕ} (x y z : BitVec n) : (x ^^^ y) &&& z = (x &&& z) ^^^ (y &&& z) := by
  ext i
  simp [Bool.and_xor_distrib_right]

theorem xor_xor_xor {n : ℕ} (x y z z' : BitVec n) :
    x ^^^ y ^^^ (z ^^^ z') = (x ^^^ z) ^^^ (y ^^^ z') := by ac_rfl

theorem fold_xor : fold (x ^^^ y) = fold x ^^^ fold y := by
  simp only [fold, ushiftRight_xor_distrib, setWidth_xor]
  ac_rfl

theorem fold16_xor : fold16 (x ^^^ y) = fold16 x ^^^ fold16 y := by
  simp only [fold16, ushiftRight_xor_distrib, setWidth_xor]
  ac_rfl

/-- The parities of the bytes of a longword by the two lowest bits of their addresses. -/
def rp0 (c : Config) (par : BitVec 32) : BitVec 8 :=
  if c.bigEndian then ((par ^^^ par >>> 16) >>> 8).setWidth 8 else (par ^^^ par >>> 16).setWidth 8

def rp1 (c : Config) (par : BitVec 32) : BitVec 8 :=
  if c.bigEndian then (par ^^^ par >>> 16).setWidth 8 else ((par ^^^ par >>> 16) >>> 8).setWidth 8

def rp2 (c : Config) (par : BitVec 32) : BitVec 8 :=
  if c.bigEndian then fold16 (par >>> 16) else fold16 (par &&& 0xffff)

def rp3 (c : Config) (par : BitVec 32) : BitVec 8 :=
  if c.bigEndian then fold16 (par &&& 0xffff) else fold16 (par >>> 16)

theorem rp0_xor : rp0 c (x ^^^ y) = rp0 c x ^^^ rp0 c y := by
  simp only [rp0, ushiftRight_xor_distrib, setWidth_xor]
  split <;> ac_rfl

theorem rp1_xor : rp1 c (x ^^^ y) = rp1 c x ^^^ rp1 c y := by
  simp only [rp1, ushiftRight_xor_distrib, setWidth_xor]
  split <;> ac_rfl

theorem rp2_xor : rp2 c (x ^^^ y) = rp2 c x ^^^ rp2 c y := by
  simp only [rp2, ushiftRight_xor_distrib, xor_and, fold16_xor]
  split <;> rfl

theorem rp3_xor : rp3 c (x ^^^ y) = rp3 c x ^^^ rp3 c y := by
  simp only [rp3, ushiftRight_xor_distrib, xor_and, fold16_xor]
  split <;> rfl

theorem codeByte_xor (r7 r6 r5 r4 r3 r2 r1 r0 d7 d6 d5 d4 d3 d2 d1 d0 : BitVec 8) :
    codeByte (r7 ^^^ d7) (r6 ^^^ d6) (r5 ^^^ d5) (r4 ^^^ d4) (r3 ^^^ d3) (r2 ^^^ d2) (r1 ^^^ d1)
        (r0 ^^^ d0) =
      codeByte r7 r6 r5 r4 r3 r2 r1 r0 ^^^
        byteOf (odd d7) (odd d6) (odd d5) (odd d4) (odd d3) (odd d2) (odd d1) (odd d0) := by
  have hcode : ∀ r7 r6 r5 r4 r3 r2 r1 r0, codeByte r7 r6 r5 r4 r3 r2 r1 r0 =
      byteOf (!odd r7) (!odd r6) (!odd r5) (!odd r4) (!odd r3) (!odd r2) (!odd r1) (!odd r0) := by
    intros
    simp only [codeByte, invparity_eq, byteOf]
  rw [hcode, hcode, ← byteOf_xor]
  simp only [odd_xor, Bool.not_xor]

/-- The three bytes of the code. -/
def lowByte (c : Config) (s : Parities) : BitVec 8 :=
  codeByte (fold s.par ^^^ fold s.rp6) (fold s.rp6) (fold s.par ^^^ fold s.rp4) (fold s.rp4)
    (rp3 c s.par) (rp2 c s.par) (rp1 c s.par) (rp0 c s.par)

def highByte (s : Parities) : BitVec 8 :=
  codeByte (fold s.par ^^^ fold s.rp14) (fold s.rp14) (fold s.par ^^^ fold s.rp12) (fold s.rp12)
    (fold s.par ^^^ fold s.rp10) (fold s.rp10) (fold s.par ^^^ fold s.rp8) (fold s.rp8)

def columnByte (mult : ℕ) (s : Parities) : BitVec 8 :=
  if mult = 1 then
    invparity (fold s.par &&& 0xf0) <<< 7 ||| invparity (fold s.par &&& 0x0f) <<< 6 |||
      invparity (fold s.par &&& 0xcc) <<< 5 ||| invparity (fold s.par &&& 0x33) <<< 4 |||
      invparity (fold s.par &&& 0xaa) <<< 3 ||| invparity (fold s.par &&& 0x55) <<< 2 ||| 3
  else
    codeByte (fold s.par &&& 0xf0) (fold s.par &&& 0x0f) (fold s.par &&& 0xcc)
      (fold s.par &&& 0x33) (fold s.par &&& 0xaa) (fold s.par &&& 0x55)
      (fold s.par ^^^ fold s.rp16) (fold s.rp16)

theorem codeOf_zero : codeOf c mult s 0 = if c.smc then lowByte c s else highByte s := rfl

theorem codeOf_one : codeOf c mult s 1 = if c.smc then highByte s else lowByte c s := rfl

theorem codeOf_two : codeOf c mult s 2 = columnByte mult s := rfl

/-- One of every two bits, by the value of a bit of the address. -/
def pairs (x3 x2 x1 x0 : Bool) : BitVec 8 := byteOf x3 (!x3) x2 (!x2) x1 (!x1) x0 (!x0)

section

variable (hm : odd (fold m) = true)
include hm

theorem odd_fold_ite (b : Bool) :
    odd (fold (if b then 0 else m)) = !b ∧ odd (fold m ^^^ fold (if b then 0 else m)) = b := by
  cases b
  · exact ⟨hm, by rw [if_neg (by decide), BitVec.xor_self]; rfl⟩
  · rw [if_pos rfl]
    exact ⟨rfl, by rw [odd_xor, hm]; rfl⟩

theorem lowByte_xor (w : ℕ) :
    lowByte c (s.xor (contribution mult w m)) = lowByte c s ^^^
      byteOf (w.testBit 1) (!w.testBit 1) (w.testBit 0) (!w.testBit 0)
        (odd (rp3 c m)) (odd (rp2 c m)) (odd (rp1 c m)) (odd (rp0 c m)) := by
  simp only [lowByte, Parities.xor, fold_xor, rp0_xor, rp1_xor, rp2_xor, rp3_xor]
  rw [xor_xor_xor _ _ (fold s.rp6), xor_xor_xor _ _ (fold s.rp4), codeByte_xor]
  simp only [contribution, odd_fold_ite hm]

theorem highByte_xor (w : ℕ) :
    highByte (s.xor (contribution mult w m)) =
      highByte s ^^^ pairs (w.testBit 5) (w.testBit 4) (w.testBit 3) (w.testBit 2) := by
  simp only [highByte, Parities.xor, fold_xor]
  rw [xor_xor_xor _ _ (fold s.rp14), xor_xor_xor _ _ (fold s.rp12), xor_xor_xor _ _ (fold s.rp10),
    xor_xor_xor _ _ (fold s.rp8), codeByte_xor]
  simp only [contribution, odd_fold_ite hm, pairs]

theorem columnByte_xor (hmult : mult = 1 ∨ mult = 2) (w : ℕ) :
    columnByte mult (s.xor (contribution mult w m)) = columnByte mult s ^^^
      byteOf (odd (fold m &&& 0xf0)) (odd (fold m &&& 0x0f)) (odd (fold m &&& 0xcc))
        (odd (fold m &&& 0x33)) (odd (fold m &&& 0xaa)) (odd (fold m &&& 0x55))
        (decide (mult = 2) && w.testBit 6) (decide (mult = 2) && !w.testBit 6) := by
  rcases hmult with rfl | rfl
  · have hone : ∀ t : Parities, columnByte 1 t = byteOf (!odd (fold t.par &&& 0xf0))
        (!odd (fold t.par &&& 0x0f)) (!odd (fold t.par &&& 0xcc)) (!odd (fold t.par &&& 0x33))
        (!odd (fold t.par &&& 0xaa)) (!odd (fold t.par &&& 0x55)) true true := fun t => by
      simp only [columnByte, invparity_eq, byteOf]
      rw [or_assoc _ (bit true <<< 1)]
      rfl
    rw [hone, hone, ← byteOf_xor]
    simp [Parities.xor, fold_xor, xor_and, odd_xor, contribution]
  · have hrp16 : (contribution 2 w m).rp16 = if w.testBit 6 then 0 else m := by
      cases hw : w.testBit 6 <;> simp [contribution, hw]
    simp only [columnByte, Parities.xor, fold_xor, xor_and, hrp16, if_neg (show ¬ 2 = 1 by decide)]
    rw [xor_xor_xor _ _ (fold s.rp16), codeByte_xor]
    simp only [contribution, odd_fold_ite hm, decide_true, Bool.true_and]

end

end Code

section Flip

variable {c : Config} {eccsize a j : ℕ} {buf : ℕ → BitVec 8}

def mask (c : Config) (r j : ℕ) : BitVec 32 := longword c (flipBit (fun _ => 0) r j) 0

structure MaskSpec (c : Config) (r j : ℕ) : Prop where
  fold_eq : fold (mask c r j) = 1#8 <<< j
  rp3 : odd (rp3 c (mask c r j)) = r.testBit 1
  rp2 : odd (rp2 c (mask c r j)) = !r.testBit 1
  rp1 : odd (rp1 c (mask c r j)) = r.testBit 0
  rp0 : odd (rp0 c (mask c r j)) = !r.testBit 0

theorem mask_spec {r : ℕ} (hr : r < 4) (hj : j < 8) : MaskSpec c r j := by
  have hall : ∀ be smc : Bool, ∀ r < 4, ∀ j < 8, fold (mask ⟨be, smc⟩ r j) = 1#8 <<< j ∧
      odd (rp3 ⟨be, smc⟩ (mask ⟨be, smc⟩ r j)) = r.testBit 1 ∧
      odd (rp2 ⟨be, smc⟩ (mask ⟨be, smc⟩ r j)) = !r.testBit 1 ∧
      odd (rp1 ⟨be, smc⟩ (mask ⟨be, smc⟩ r j)) = r.testBit 0 ∧
      odd (rp0 ⟨be, smc⟩ (mask ⟨be, smc⟩ r j)) = !r.testBit 0 := by decide +kernel
  obtain ⟨h1, h2, h3, h4, h5⟩ := hall c.bigEndian c.smc r hr j hj
  exact ⟨h1, h2, h3, h4, h5⟩

theorem column_spec : ∀ j < 8, odd (1#8 <<< j) = true ∧
    odd (1#8 <<< j &&& 0xf0) = j.testBit 2 ∧ odd (1#8 <<< j &&& 0x0f) = !j.testBit 2 ∧
    odd (1#8 <<< j &&& 0xcc) = j.testBit 1 ∧ odd (1#8 <<< j &&& 0x33) = !j.testBit 1 ∧
    odd (1#8 <<< j &&& 0xaa) = j.testBit 0 ∧ odd (1#8 <<< j &&& 0x55) = !j.testBit 0 := by
  decide +kernel

theorem append_xor_append (x₁ x₂ x₃ x₄ y₁ y₂ y₃ y₄ : BitVec 8) :
    ((x₁ ^^^ y₁) ++ (x₂ ^^^ y₂) ++ (x₃ ^^^ y₃) ++ (x₄ ^^^ y₄) : BitVec 32) =
      (x₁ ++ x₂ ++ x₃ ++ x₄ : BitVec 32) ^^^ (y₁ ++ y₂ ++ y₃ ++ y₄ : BitVec 32) := by
  rw [← xor_append, ← xor_append, ← xor_append]

theorem longword_xor (c : Config) (p q : ℕ → BitVec 8) (k : ℕ) :
    longword c (fun x => p x ^^^ q x) k = longword c p k ^^^ longword c q k := by
  rw [longword, longword, longword]
  split <;> exact append_xor_append ..

theorem flipBit_eq (buf : ℕ → BitVec 8) (a j : ℕ) :
    flipBit buf a j = fun x => buf x ^^^ flipBit (fun _ => 0) a j x := by
  funext x
  by_cases hx : x = a
  · simp [flipBit, hx]
  · simp [flipBit, hx]

theorem longword_single (c : Config) (a j k : ℕ) :
    longword c (flipBit (fun _ => 0) a j) k = single (a / 4) (mask c (a % 4) j) k := by
  have hflip : ∀ r i, flipBit (fun _ => 0) (4 * k + r) j (4 * k + i) =
      flipBit (fun _ => 0) r j (4 * 0 + i) := fun r i => by
    simp [flipBit, update_apply]
  by_cases hk : k = a / 4
  · obtain ⟨r, hr, rfl⟩ : ∃ r < 4, a = 4 * k + r := ⟨a % 4, by omega, by omega⟩
    have h0 := hflip r 0
    rw [single, if_pos hk, show (4 * k + r) % 4 = r by omega, mask, longword, longword, hflip r 1,
      hflip r 2, hflip r 3]
    rw [add_zero] at h0
    rw [h0]
  · rw [single, longword]
    simp only [flipBit]
    rw [update_of_ne (by omega), update_of_ne (by omega),
      update_of_ne (by omega), update_of_ne (by omega)]
    split <;> rfl

theorem longword_flipBit (c : Config) (buf : ℕ → BitVec 8) (a j k : ℕ) :
    longword c (flipBit buf a j) k = longword c buf k ^^^ single (a / 4) (mask c (a % 4) j) k := by
  rw [flipBit_eq, longword_xor, longword_single]

/-- What a bit that is flipped changes in the code. -/
def pattern (c : Config) (mult a j : ℕ) : Fin 3 → BitVec 8
  | 0 => if c.smc then pairs (a.testBit 3) (a.testBit 2) (a.testBit 1) (a.testBit 0)
    else pairs (a.testBit 7) (a.testBit 6) (a.testBit 5) (a.testBit 4)
  | 1 => if c.smc then pairs (a.testBit 7) (a.testBit 6) (a.testBit 5) (a.testBit 4)
    else pairs (a.testBit 3) (a.testBit 2) (a.testBit 1) (a.testBit 0)
  | 2 => byteOf (j.testBit 2) (!j.testBit 2) (j.testBit 1) (!j.testBit 1) (j.testBit 0)
      (!j.testBit 0) (decide (mult = 2) && a.testBit 8) (decide (mult = 2) && !a.testBit 8)

theorem nandCalculateEcc_flipBit (h : eccsize = 256 ∨ eccsize = 512) (ha : a < eccsize)
    (hj : j < 8) (k : Fin 3) :
    nandCalculateEcc c eccsize (flipBit buf a j) k =
      nandCalculateEcc c eccsize buf k ^^^ pattern c (eccsize >>> 8) a j k := by
  have hmult : eccsize >>> 8 = 1 ∨ eccsize >>> 8 = 2 := by
    rcases h with rfl | rfl
    · exact .inl rfl
    · exact .inr rfl
  have hw : a / 4 / 16 < (eccsize >>> 8) <<< 2 := by
    rcases h with rfl | rfl
    · omega
    · omega
  have hbit : ∀ i, (a / 4).testBit i = a.testBit (i + 2) := fun i =>
    Nat.testBit_div_two_pow (n := 2) a i
  have hmod : ∀ i < 2, (a % 4).testBit i = a.testBit i := fun i hi => by
    rw [show 4 = 2 ^ 2 by rfl, Nat.testBit_mod_two_pow, decide_eq_true hi, Bool.true_and]
  have hspec := mask_spec (c := c) (Nat.mod_lt a (show 0 < 4 by decide)) hj
  obtain ⟨hodd, hcol⟩ := column_spec j hj
  have hm : odd (fold (mask c (a % 4) j)) = true := by rw [hspec.fold_eq, hodd]
  have hparities : parities (eccsize >>> 8) (longword c (flipBit buf a j)) =
      (parities (eccsize >>> 8) (longword c buf)).xor
        (contribution (eccsize >>> 8) (a / 4) (mask c (a % 4) j)) := by
    rw [← parities_xor_single hw]
    exact congrArg _ (funext (longword_flipBit c buf a j))
  simp only [nandCalculateEcc, hparities]
  generalize parities (eccsize >>> 8) (longword c buf) = s
  have hlow : lowByte c (s.xor (contribution (eccsize >>> 8) (a / 4) (mask c (a % 4) j))) =
      lowByte c s ^^^ pairs (a.testBit 3) (a.testBit 2) (a.testBit 1) (a.testBit 0) := by
    rw [lowByte_xor hm, hspec.rp3, hspec.rp2, hspec.rp1, hspec.rp0, hbit, hbit,
      hmod 1 (by decide), hmod 0 (by decide), pairs]
  have hhigh : highByte (s.xor (contribution (eccsize >>> 8) (a / 4) (mask c (a % 4) j))) =
      highByte s ^^^ pairs (a.testBit 7) (a.testBit 6) (a.testBit 5) (a.testBit 4) := by
    rw [highByte_xor hm, hbit, hbit, hbit, hbit]
  match k with
  | 0 =>
    rw [codeOf_zero, codeOf_zero, hlow, hhigh, pattern]
    split <;> rfl
  | 1 =>
    rw [codeOf_one, codeOf_one, hlow, hhigh, pattern]
    split <;> rfl
  | 2 =>
    obtain ⟨h1, h2, h3, h4, h5, h6⟩ := hcol
    rw [codeOf_two, codeOf_two, columnByte_xor hm hmult, hspec.fold_eq, h1, h2, h3, h4, h5, h6,
      hbit, pattern]

end Flip

end LinuxKernel.Nand
