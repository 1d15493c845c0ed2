import Mathlib.Algebra.Group.Nat.Defs
import Mathlib.Logic.Function.Basic

/-! # Error correction for NAND flash

The software error correction of `drivers/mtd/nand/nand_ecc.c`. For every bit of the address of a
data bit the code has two parities: one of the bits where the address bit is clear, and one of those
where it is set. A block is the memory from the address `buf` on, and `& 0xff` is a byte.
-/

namespace LinuxKernel.Nand

open Function

section Tables

def invparityTable : List ℕ :=
  [1, 0, 0, 1, 0, 1, 1, 0, 0, 1, 1, 0, 1, 0, 0, 1, 0, 1, 1, 0, 1, 0, 0, 1, 1, 0, 0, 1, 0, 1, 1, 0,
   0, 1, 1, 0, 1, 0, 0, 1, 1, 0, 0, 1, 0, 1, 1, 0, 1, 0, 0, 1, 0, 1, 1, 0, 0, 1, 1, 0, 1, 0, 0, 1,
   0, 1, 1, 0, 1, 0, 0, 1, 1, 0, 0, 1, 0, 1, 1, 0, 1, 0, 0, 1, 0, 1, 1, 0, 0, 1, 1, 0, 1, 0, 0, 1,
   1, 0, 0, 1, 0, 1, 1, 0, 0, 1, 1, 0, 1, 0, 0, 1, 0, 1, 1, 0, 1, 0, 0, 1, 1, 0, 0, 1, 0, 1, 1, 0,
   0, 1, 1, 0, 1, 0, 0, 1, 1, 0, 0, 1, 0, 1, 1, 0, 1, 0, 0, 1, 0, 1, 1, 0, 0, 1, 1, 0, 1, 0, 0, 1,
   1, 0, 0, 1, 0, 1, 1, 0, 0, 1, 1, 0, 1, 0, 0, 1, 0, 1, 1, 0, 1, 0, 0, 1, 1, 0, 0, 1, 0, 1, 1, 0,
   1, 0, 0, 1, 0, 1, 1, 0, 0, 1, 1, 0, 1, 0, 0, 1, 0, 1, 1, 0, 1, 0, 0, 1, 1, 0, 0, 1, 0, 1, 1, 0,
   0, 1, 1, 0, 1, 0, 0, 1, 1, 0, 0, 1, 0, 1, 1, 0, 1, 0, 0, 1, 0, 1, 1, 0, 0, 1, 1, 0, 1, 0, 0, 1]

def bitsperbyteTable : List ℕ :=
  [0, 1, 1, 2, 1, 2, 2, 3, 1, 2, 2, 3, 2, 3, 3, 4, 1, 2, 2, 3, 2, 3, 3, 4, 2, 3, 3, 4, 3, 4, 4, 5,
   1, 2, 2, 3, 2, 3, 3, 4, 2, 3, 3, 4, 3, 4, 4, 5, 2, 3, 3, 4, 3, 4, 4, 5, 3, 4, 4, 5, 4, 5, 5, 6,
   1, 2, 2, 3, 2, 3, 3, 4, 2, 3, 3, 4, 3, 4, 4, 5, 2, 3, 3, 4, 3, 4, 4, 5, 3, 4, 4, 5, 4, 5, 5, 6,
   2, 3, 3, 4, 3, 4, 4, 5, 3, 4, 4, 5, 4, 5, 5, 6, 3, 4, 4, 5, 4, 5, 5, 6, 4, 5, 5, 6, 5, 6, 6, 7,
   1, 2, 2, 3, 2, 3, 3, 4, 2, 3, 3, 4, 3, 4, 4, 5, 2, 3, 3, 4, 3, 4, 4, 5, 3, 4, 4, 5, 4, 5, 5, 6,
   2, 3, 3, 4, 3, 4, 4, 5, 3, 4, 4, 5, 4, 5, 5, 6, 3, 4, 4, 5, 4, 5, 5, 6, 4, 5, 5, 6, 5, 6, 6, 7,
   2, 3, 3, 4, 3, 4, 4, 5, 3, 4, 4, 5, 4, 5, 5, 6, 3, 4, 4, 5, 4, 5, 5, 6, 4, 5, 5, 6, 5, 6, 6, 7,
   3, 4, 4, 5, 4, 5, 5, 6, 4, 5, 5, 6, 5, 6, 6, 7, 4, 5, 5, 6, 5, 6, 6, 7, 5, 6, 6, 7, 6, 7, 7, 8]

def addressbitsTable : List ℕ :=
  [0, 0, 1, 1, 0, 0, 1, 1, 2, 2, 3, 3, 2, 2, 3, 3,
   0, 0, 1, 1, 0, 0, 1, 1, 2, 2, 3, 3, 2, 2, 3, 3,
   4, 4, 5, 5, 4, 4, 5, 5, 6, 6, 7, 7, 6, 6, 7, 7,
   4, 4, 5, 5, 4, 4, 5, 5, 6, 6, 7, 7, 6, 6, 7, 7,
   0, 0, 1, 1, 0, 0, 1, 1, 2, 2, 3, 3, 2, 2, 3, 3,
   0, 0, 1, 1, 0, 0, 1, 1, 2, 2, 3, 3, 2, 2, 3, 3,
   4, 4, 5, 5, 4, 4, 5, 5, 6, 6, 7, 7, 6, 6, 7, 7,
   4, 4, 5, 5, 4, 4, 5, 5, 6, 6, 7, 7, 6, 6, 7, 7,
   8, 8, 9, 9, 8, 8, 9, 9, 10, 10, 11, 11, 10, 10, 11, 11,
   8, 8, 9, 9, 8, 8, 9, 9, 10, 10, 11, 11, 10, 10, 11, 11,
   12, 12, 13, 13, 12, 12, 13, 13, 14, 14, 15, 15, 14, 14, 15, 15,
   12, 12, 13, 13, 12, 12, 13, 13, 14, 14, 15, 15, 14, 14, 15, 15,
   8, 8, 9, 9, 8, 8, 9, 9, 10, 10, 11, 11, 10, 10, 11, 11,
   8, 8, 9, 9, 8, 8, 9, 9, 10, 10, 11, 11, 10, 10, 11, 11,
   12, 12, 13, 13, 12, 12, 13, 13, 14, 14, 15, 15, 14, 14, 15, 15,
   12, 12, 13, 13, 12, 12, 13, 13, 14, 14, 15, 15, 14, 14, 15, 15]

def invparity (x : BitVec 8) : BitVec 8 := .ofNat 8 (invparityTable.getD x.toNat 0)

def bitsperbyte (x : BitVec 8) : ℕ := bitsperbyteTable.getD x.toNat 0

def addressbits (x : BitVec 8) : ℕ := addressbitsTable.getD x.toNat 0

end Tables

/-- `__BIG_ENDIAN` and `CONFIG_MTD_NAND_ECC_SMC`. -/
structure Config where
  bigEndian : Bool
  smc : Bool

section Calculate

variable (c : Config) (eccsize mult : ℕ)

def longword (buf : ℕ → BitVec 8) (k : ℕ) : BitVec 32 :=
  if c.bigEndian then buf (4 * k) ++ buf (4 * k + 1) ++ buf (4 * k + 2) ++ buf (4 * k + 3)
  else buf (4 * k + 3) ++ buf (4 * k + 2) ++ buf (4 * k + 1) ++ buf (4 * k)

structure Parities where
  par : BitVec 32
  rp4 : BitVec 32
  rp6 : BitVec 32
  rp8 : BitVec 32
  rp10 : BitVec 32
  rp12 : BitVec 32
  rp14 : BitVec 32
  rp16 : BitVec 32

/-- One round of the loop, over sixteen longwords. -/
def round (bp : ℕ → BitVec 32) (s : Parities) (i : ℕ) : Parities :=
  let cur := bp (16 * i)
  let tmppar := cur
  let rp4 := s.rp4 ^^^ cur
  let cur := bp (16 * i + 1)
  let tmppar := tmppar ^^^ cur
  let rp6 := s.rp6 ^^^ tmppar
  let cur := bp (16 * i + 2)
  let tmppar := tmppar ^^^ cur
  let rp4 := rp4 ^^^ cur
  let cur := bp (16 * i + 3)
  let tmppar := tmppar ^^^ cur
  let rp8 := s.rp8 ^^^ tmppar
  let cur := bp (16 * i + 4)
  let tmppar := tmppar ^^^ cur
  let rp4 := rp4 ^^^ cur
  let rp6 := rp6 ^^^ cur
  let cur := bp (16 * i + 5)
  let tmppar := tmppar ^^^ cur
  let rp6 := rp6 ^^^ cur
  let cur := bp (16 * i + 6)
  let tmppar := tmppar ^^^ cur
  let rp4 := rp4 ^^^ cur
  let cur := bp (16 * i + 7)
  let tmppar := tmppar ^^^ cur
  let rp10 := s.rp10 ^^^ tmppar
  let cur := bp (16 * i + 8)
  let tmppar := tmppar ^^^ cur
  let rp4 := rp4 ^^^ cur
  let rp6 := rp6 ^^^ cur
  let rp8 := rp8 ^^^ cur
  let cur := bp (16 * i + 9)
  let tmppar := tmppar ^^^ cur
  let rp6 := rp6 ^^^ cur
  let rp8 := rp8 ^^^ cur
  let cur := bp (16 * i + 10)
  let tmppar := tmppar ^^^ cur
  let rp4 := rp4 ^^^ cur
  let rp8 := rp8 ^^^ cur
  let cur := bp (16 * i + 11)
  let tmppar := tmppar ^^^ cur
  let rp8 := rp8 ^^^ cur
  let cur := bp (16 * i + 12)
  let tmppar := tmppar ^^^ cur
  let rp4 := rp4 ^^^ cur
  let rp6 := rp6 ^^^ cur
  let cur := bp (16 * i + 13)
  let tmppar := tmppar ^^^ cur
  let rp6 := rp6 ^^^ cur
  let cur := bp (16 * i + 14)
  let tmppar := tmppar ^^^ cur
  let rp4 := rp4 ^^^ cur
  let cur := bp (16 * i + 15)
  let tmppar := tmppar ^^^ cur
  { par := s.par ^^^ tmppar
    rp4, rp6, rp8, rp10
    rp12 := if i &&& 0x1 = 0 then s.rp12 ^^^ tmppar else s.rp12
    rp14 := if i &&& 0x2 = 0 then s.rp14 ^^^ tmppar else s.rp14
    rp16 := if mult = 2 ∧ i &&& 0x4 = 0 then s.rp16 ^^^ tmppar else s.rp16 }

def parities (bp : ℕ → BitVec 32) : Parities :=
  (List.range (mult <<< 2)).foldl (round mult bp) ⟨0, 0, 0, 0, 0, 0, 0, 0⟩

/-- The upper and lower 16 bits are folded, and then the upper and lower 8 bits. -/
def fold (x : BitVec 32) : BitVec 8 :=
  let x := x ^^^ x >>> 16
  let x := x ^^^ x >>> 8
  x.setWidth 8

/-- The upper and lower 8 bits of 16 bits are folded. -/
def fold16 (x : BitVec 32) : BitVec 8 := (x ^^^ x >>> 8).setWidth 8

def codeByte (r7 r6 r5 r4 r3 r2 r1 r0 : BitVec 8) : BitVec 8 :=
  invparity r7 <<< 7 ||| invparity r6 <<< 6 ||| invparity r5 <<< 5 ||| invparity r4 <<< 4 |||
    invparity r3 <<< 3 ||| invparity r2 <<< 2 ||| invparity r1 <<< 1 ||| invparity r0

/-- The end of `__nand_calculate_ecc`, after the loop. -/
def codeOf (s : Parities) : Fin 3 → BitVec 8 :=
  let rp4 := fold s.rp4
  let rp6 := fold s.rp6
  let rp8 := fold s.rp8
  let rp10 := fold s.rp10
  let rp12 := fold s.rp12
  let rp14 := fold s.rp14
  let rp16 := fold s.rp16
  let rp3 := if c.bigEndian then fold16 (s.par &&& 0xffff) else fold16 (s.par >>> 16)
  let rp2 := if c.bigEndian then fold16 (s.par >>> 16) else fold16 (s.par &&& 0xffff)
  let par := s.par ^^^ s.par >>> 16
  let rp1 := if c.bigEndian then par.setWidth 8 else (par >>> 8).setWidth 8
  let rp0 := if c.bigEndian then (par >>> 8).setWidth 8 else par.setWidth 8
  let par := (par ^^^ par >>> 8).setWidth 8
  let rp5 := par ^^^ rp4
  let rp7 := par ^^^ rp6
  let rp9 := par ^^^ rp8
  let rp11 := par ^^^ rp10
  let rp13 := par ^^^ rp12
  let rp15 := par ^^^ rp14
  let rp17 := par ^^^ rp16
  let low := codeByte rp7 rp6 rp5 rp4 rp3 rp2 rp1 rp0
  let high := codeByte rp15 rp14 rp13 rp12 rp11 rp10 rp9 rp8
  let columns := invparity (par &&& 0xf0) <<< 7 ||| invparity (par &&& 0x0f) <<< 6 |||
    invparity (par &&& 0xcc) <<< 5 ||| invparity (par &&& 0x33) <<< 4 |||
    invparity (par &&& 0xaa) <<< 3 ||| invparity (par &&& 0x55) <<< 2
  fun
    | 0 => if c.smc then low else high
    | 1 => if c.smc then high else low
    | 2 => if mult = 1 then columns ||| 3 else columns ||| invparity rp17 <<< 1 ||| invparity rp16

def nandCalculateEcc (buf : ℕ → BitVec 8) : Fin 3 → BitVec 8 :=
  let mult := eccsize >>> 8
  codeOf c mult (parities mult (longword c buf))

end Calculate

section Correct

variable (c : Config) (eccsize mult : ℕ) (buf : ℕ → BitVec 8)

def flipBit (a j : ℕ) : ℕ → BitVec 8 := update buf a (buf a ^^^ 1#8 <<< j)

/-- Every two parities of the byte differ. -/
def pairsDiffer (b mask : BitVec 8) : Bool := (b ^^^ b >>> 1) &&& mask = mask

/-- The rest of `__nand_correct_data`, with the return value and the block. -/
def correct (b0 b1 b2 : BitVec 8) : ℤ × (ℕ → BitVec 8) :=
  if b0 ||| b1 ||| b2 = 0 then (0, buf)
  else if pairsDiffer b0 0x55 && pairsDiffer b1 0x55 &&
      (mult = 1 && pairsDiffer b2 0x54 || mult = 2 && pairsDiffer b2 0x55) then
    let byteAddr :=
      if mult = 1 then addressbits b1 <<< 4 + addressbits b0
      else addressbits (b2 &&& 0x3) <<< 8 + addressbits b1 <<< 4 + addressbits b0
    let bitAddr := addressbits (b2 >>> 2)
    (1, flipBit buf byteAddr bitAddr)
  else if bitsperbyte b0 + bitsperbyte b1 + bitsperbyte b2 = 1 then (1, buf)
  else (-1, buf)

def nandCorrectData (readEcc calcEcc : Fin 3 → BitVec 8) : ℤ × (ℕ → BitVec 8) :=
  let b0 := if c.smc then readEcc 0 ^^^ calcEcc 0 else readEcc 1 ^^^ calcEcc 1
  let b1 := if c.smc then readEcc 1 ^^^ calcEcc 1 else readEcc 0 ^^^ calcEcc 0
  let b2 := readEcc 2 ^^^ calcEcc 2
  correct (eccsize >>> 8) buf b0 b1 b2

end Correct

def isFull (mult : ℕ) (k : Fin 3) : Bool := k ≠ 2 || mult = 2

def weight (b : Fin 3 → BitVec 8) : ℕ := bitsperbyte (b 0) + bitsperbyte (b 1) + bitsperbyte (b 2)

/-- The byte of the code that becomes `b0`, `b1` or `b2`. -/
def place (c : Config) : Fin 3 → Fin 3
  | 0 => if c.smc then 0 else 1
  | 1 => if c.smc then 1 else 0
  | 2 => 2

inductive Flip where
  | data (a j : ℕ)
  | code (k : Fin 3) (i : ℕ)

/-- The bit is in the block, or it is a bit of the code that holds a parity. -/
def Flip.Meaningful (eccsize : ℕ) : Flip → Prop
  | data a j => a < eccsize ∧ j < 8
  | code k i => i < 8 ∧ (eccsize = 256 → k = 2 → 2 ≤ i)

end LinuxKernel.Nand
