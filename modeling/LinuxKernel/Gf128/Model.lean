import Mathlib.Data.BitVec

/-! # Multiplication in the field of 2^128 elements

`crypto/gf128mul.c`. A block of 16 bytes is an element of the field, with the coefficients in
little-little-endian or in big-big-endian order. The functions of the two orders differ in the
direction of the shifts, in the table and in the order of the bytes.
-/

namespace LinuxKernel.Gf128

open Function List

/-- `be128`, by the two values that `be64_to_cpu` reads from it. -/
structure Be128 where
  a : BitVec 64
  b : BitVec 64
  deriving DecidableEq, Repr

def Be128.zero : Be128 := ⟨0, 0⟩

/-- A byte of the block, in the order of the memory. -/
def Be128.byte (x : Be128) (i : ℕ) : BitVec 8 :=
  if i < 8 then (x.a >>> (56 - 8 * i)).setWidth 8 else (x.b >>> (120 - 8 * i)).setWidth 8

def be128Xor (p q : Be128) : Be128 := ⟨p.a ^^^ q.a, p.b ^^^ q.b⟩

section Tables

/-- `xda_bbe` and `xda_lle` select the words for the bits of `i`. -/
def xda (w7 w6 w5 w4 w3 w2 w1 w0 : BitVec 16) (i : BitVec 8) : BitVec 16 :=
  (if i &&& 0x80 ≠ 0 then w7 else 0) ^^^ (if i &&& 0x40 ≠ 0 then w6 else 0) ^^^
  (if i &&& 0x20 ≠ 0 then w5 else 0) ^^^ (if i &&& 0x10 ≠ 0 then w4 else 0) ^^^
  (if i &&& 0x08 ≠ 0 then w3 else 0) ^^^ (if i &&& 0x04 ≠ 0 then w2 else 0) ^^^
  (if i &&& 0x02 ≠ 0 then w1 else 0) ^^^ (if i &&& 0x01 ≠ 0 then w0 else 0)

def gf128mulTableBbe : BitVec 8 → BitVec 16 :=
  xda 0x4380 0x21c0 0x10e0 0x0870 0x0438 0x021c 0x010e 0x0087

def gf128mulTableLle : BitVec 8 → BitVec 16 :=
  xda 0xe100 0x7080 0x3840 0x1c20 0x0e10 0x0708 0x0384 0x01c2

end Tables

section Shifts

variable (x : Be128)

def gf128mulXLle : Be128 :=
  let tt : BitVec 64 := (gf128mulTableLle ((x.b <<< 7).setWidth 8)).setWidth 64
  ⟨x.a >>> 1 ^^^ tt <<< 48, x.b >>> 1 ||| x.a <<< 63⟩

def gf128mulXBbe : Be128 :=
  let tt : BitVec 64 := (gf128mulTableBbe ((x.a >>> 63).setWidth 8)).setWidth 64
  ⟨x.a <<< 1 ||| x.b >>> 63, x.b <<< 1 ^^^ tt⟩

def gf128mulX8Lle : Be128 :=
  let tt : BitVec 64 := (gf128mulTableLle (x.b.setWidth 8)).setWidth 64
  ⟨x.a >>> 8 ^^^ tt <<< 48, x.b >>> 8 ||| x.a <<< 56⟩

def gf128mulX8Bbe : Be128 :=
  let tt : BitVec 64 := (gf128mulTableBbe ((x.a >>> 56).setWidth 8)).setWidth 64
  ⟨x.a <<< 8 ||| x.b >>> 56, x.b <<< 8 ^^^ tt⟩

end Shifts

section Product

variable (x8 : Be128 → Be128)

/-- The array `p` of `gf128mul_lle` and `gf128mul_bbe`. -/
def powers (x : Be128 → Be128) (r : Be128) : ℕ → Be128 :=
  (List.range 7).foldl (fun p i => update p (i + 1) (x (p i))) (update (fun _ => .zero) 0 r)

/-- The bits of `ch` are tested from the highest one, and the `m`-th of them selects `q m`. -/
def addSelected (q : ℕ → Be128) (ch : BitVec 8) (r : Be128) : Be128 :=
  (List.range 8).foldl (fun r m => if ch.getMsbD m then be128Xor r (q m) else r) r

/-- The loop of `gf128mul_lle` and `gf128mul_bbe` over the bytes of the other factor. -/
def mulBytes (q : ℕ → Be128) (ch : ℕ → BitVec 8) : Be128 :=
  (range' 1 15).foldl (fun r i => addSelected q (ch i) (x8 r)) (addSelected q (ch 0) .zero)

/-- `gf128mul_lle`, with the value of `r` after it. -/
def gf128mulLle (r b : Be128) : Be128 :=
  mulBytes gf128mulX8Lle (powers gf128mulXLle r) fun i => b.byte (15 - i)

/-- `gf128mul_bbe`, with the value of `r` after it. -/
def gf128mulBbe (r b : Be128) : Be128 :=
  mulBytes gf128mulX8Bbe (fun m => powers gf128mulXBbe r (7 - m)) fun i => b.byte i

end Product

section Tables

abbrev Entries := ℕ → Be128

/-- The entries for the single bits of a byte. -/
def bitEntriesLle (g : Be128) : Entries :=
  [64, 32, 16, 8, 4, 2, 1].foldl (fun t j => update t j (gf128mulXLle (t (j + j))))
    (update (fun _ => .zero) 128 g)

def bitEntriesBbe (g : Be128) : Entries :=
  [1, 2, 4, 8, 16, 32, 64].foldl (fun t j => update t (j + j) (gf128mulXBbe (t j)))
    (update (fun _ => .zero) 1 g)

/-- The other entries are sums. -/
def sumEntries (t : Entries) : Entries :=
  [2, 4, 8, 16, 32, 64, 128].foldl
    (fun t j => (range' 1 (j - 1)).foldl
      (fun t k => update t (j + k) (be128Xor (t j) (t k))) t) t

/-- `gf128mul_init_4k_lle`. The argument says whether there is memory for the table. -/
def gf128mulInit4kLle (kzalloc : Bool) (g : Be128) : Option Entries :=
  if kzalloc then some (sumEntries (bitEntriesLle g)) else none

def gf128mulInit4kBbe (kzalloc : Bool) (g : Be128) : Option Entries :=
  if kzalloc then some (sumEntries (bitEntriesBbe g)) else none

/-- `gf128mul_4k_lle` and `gf128mul_4k_bbe`, with the bytes in the order of the loop. -/
def mul4k (x8 : Be128 → Be128) (t : Entries) (ch : ℕ → BitVec 8) : Be128 :=
  (range' 1 15).foldl (fun r i => be128Xor (x8 r) (t (ch i).toNat)) (t (ch 0).toNat)

def gf128mul4kLle (a : Be128) (t : Entries) : Be128 :=
  mul4k gf128mulX8Lle t fun i => a.byte (15 - i)

def gf128mul4kBbe (a : Be128) (t : Entries) : Be128 :=
  mul4k gf128mulX8Bbe t fun i => a.byte i

/-- The entries of the next table for the single bits of a byte. -/
def nextEntries (x8 : Be128 → Be128) (t : Entries) : Entries :=
  [128, 64, 32, 16, 8, 4, 2, 1].foldl (fun u j => update u j (x8 (t j))) fun _ => .zero

/-- The loop of `gf128mul_init_64k_lle` and `gf128mul_init_64k_bbe` over the 16 tables. -/
def tables (x8 : Be128 → Be128) (t : Entries) : ℕ → Entries
  | 0 => sumEntries t
  | i + 1 => sumEntries (nextEntries x8 (tables x8 t i))

/-- `gf128mul_init_64k_lle`. The arguments say whether there is memory for the structure and for
each of the 16 tables. -/
def gf128mulInit64kLle (kzalloc : Bool) (kzallocTable : ℕ → Bool) (g : Be128) :
    Option (ℕ → Entries) :=
  if kzalloc && (List.range 16).all kzallocTable then some (tables gf128mulX8Lle (bitEntriesLle g))
  else none

def gf128mulInit64kBbe (kzalloc : Bool) (kzallocTable : ℕ → Bool) (g : Be128) :
    Option (ℕ → Entries) :=
  if kzalloc && (List.range 16).all kzallocTable then some (tables gf128mulX8Bbe (bitEntriesBbe g))
  else none

/-- `gf128mul_64k_lle` and `gf128mul_64k_bbe`, with the bytes in the order of the loop. -/
def mul64k (t : ℕ → Entries) (ch : ℕ → BitVec 8) : Be128 :=
  (range' 1 15).foldl (fun r i => be128Xor r (t i (ch i).toNat)) (t 0 (ch 0).toNat)

def gf128mul64kLle (a : Be128) (t : ℕ → Entries) : Be128 :=
  mul64k t fun i => a.byte i

def gf128mul64kBbe (a : Be128) (t : ℕ → Entries) : Be128 :=
  mul64k t fun i => a.byte (15 - i)

end Tables

end LinuxKernel.Gf128
