import Mathlib.Algebra.Group.Nat.Defs
import Mathlib.Data.Int.Notation
import Mathlib.Logic.Equiv.Defs
import LinuxKernel.Base.Errno

/-! # Ciphertext stealing

The mode `cts` of `crypto/cts.c` over a child in the mode `cbc`. The cipher is any permutation of
the blocks. A scatterlist gives the address of each of its bytes, so a request works in place if it
has one scatterlist twice.
-/

namespace LinuxKernel.Cts

open Function

abbrev Byte := BitVec 8

abbrev Block (b : ℕ) := Fin b → Byte

/-- An array, or the bytes from an address on. -/
abbrev Buffer := ℕ → Byte

section Buffers

variable {b : ℕ}

def Block.bytes (x : Block b) : Buffer := fun i => if h : i < b then x ⟨i, h⟩ else 0

def Buffer.block (s : Buffer) (b offset : ℕ) : Block b := fun i => s (offset + i)

/-- `memcpy`. -/
def Buffer.copy (d : Buffer) (offset : ℕ) (s : Buffer) (n : ℕ) : Buffer := fun i =>
  if offset ≤ i ∧ i < offset + n then s (i - offset) else d i

def cryptoXor (x y : Block b) : Block b := fun i => x i ^^^ y i

/-- The bytes of a scatterlist from an offset on. -/
def Buffer.gather (mem : Buffer) (sg : ℕ → ℕ) (offset : ℕ) : Buffer := fun i =>
  mem (sg (offset + i))

/-- `scatterwalk_map_and_copy` to a scatterlist. -/
def Buffer.scatter (mem : Buffer) (sg : ℕ → ℕ) (offset : ℕ) (d : Buffer) : ℕ → Buffer
  | 0 => mem
  | n + 1 => update (scatter mem sg offset d n) (sg (offset + n)) (d n)

end Buffers

/-- The value of a number as an `int`. -/
def int32 (x : ℤ) : ℤ := (BitVec.ofInt 32 x).toInt

structure State (b : ℕ) where
  mem : Buffer
  info : Block b

section Code

variable {b : ℕ} (E : Equiv.Perm (Block b)) (junk : Buffer) (dst src : ℕ → ℕ)

/-- The child encrypts whole blocks. -/
def cbcEncrypt : ℕ → State b → State b
  | 0, s => s
  | k + 1, s =>
    let s := cbcEncrypt k s
    let c := E (cryptoXor s.info ((s.mem.gather src (k * b)).block b 0))
    { mem := s.mem.scatter dst (k * b) c.bytes b, info := c }

/-- The child decrypts whole blocks. -/
def cbcDecrypt : ℕ → State b → State b
  | 0, s => s
  | k + 1, s =>
    let s := cbcDecrypt k s
    let c := (s.mem.gather src (k * b)).block b 0
    { mem := s.mem.scatter dst (k * b) (cryptoXor (E.symm c) s.info).bytes b, info := c }

/-- `cts_cbc_encrypt`, where the arrays that are not initialised have any contents. They are only
long enough for two blocks, so `nbytes` is at most that. -/
def ctsCbcEncrypt (offset nbytes : ℕ) (desc : State b) : Option Errno × State b :=
  if int32 (nbytes - b) < 0 then (some .einval, desc)
  else
    let lastn := (int32 (nbytes - b)).toNat
    let s := Buffer.copy (fun _ => 0) 0 (desc.mem.gather src offset) nbytes
    let tmp := E (cryptoXor desc.info (s.block b 0))
    let d := junk.copy b tmp.bytes lastn
    let tmp2 := E (cryptoXor tmp (s.block b b))
    let d := d.copy 0 tmp2.bytes b
    (none, { mem := desc.mem.scatter dst offset d nbytes, info := tmp2 })

/-- `tot_blocks`: the sum is an `unsigned int`. -/
def totBlocks (b nbytes : ℕ) : ℤ := int32 ((nbytes + b - 1) % 2 ^ 32 / b : ℕ)

def cbcBlocks (b nbytes : ℕ) : ℕ :=
  if 2 < totBlocks b nbytes then (totBlocks b nbytes - 2).toNat else 0

def cryptoCtsEncrypt (nbytes : ℕ) (desc : State b) : Option Errno × State b :=
  let cbcBlocks := cbcBlocks b nbytes
  if totBlocks b nbytes = 1 then (none, cbcEncrypt E dst src 1 desc)
  else if nbytes ≤ b * 2 then ctsCbcEncrypt E junk dst src 0 nbytes desc
  else
    ctsCbcEncrypt E junk dst src (cbcBlocks * b) (nbytes - cbcBlocks * b)
      (cbcEncrypt E dst src cbcBlocks desc)

def ctsCbcDecrypt (offset nbytes : ℕ) (desc : State b) : Option Errno × State b :=
  if int32 (nbytes - b) < 0 then (some .einval, desc)
  else
    let lastn := (int32 (nbytes - b)).toNat
    let zero : Block b := fun _ => 0
    let s := junk.copy 0 (desc.mem.gather src offset) nbytes
    -- 1. Decrypt Cn-1 (s) to create Dn (tmp)
    let tmp := cryptoXor (E.symm (s.block b 0)) zero
    -- 2. Pad Cn with zeros at the end to create C of length BB
    let iv := zero.bytes.copy 0 (fun i => s (b + i)) lastn
    -- 3. Exclusive-or Dn (tmp) with C (iv) to create Xn (tmp)
    let tmp := cryptoXor tmp (iv.block b 0)
    -- 4. Select the first Ln bytes of Xn (tmp) to create Pn
    let d := junk.copy b tmp.bytes lastn
    -- 5. Append the tail (BB - Ln) bytes of Xn (tmp) to Cn to create En
    let s' := s.copy (b + lastn) (fun i => tmp.bytes (lastn + i)) (b - lastn)
    -- 6. Decrypt En to create Pn-1
    let first := cryptoXor (E.symm (s'.block b b)) zero
    let d := d.copy 0 (cryptoXor first desc.info).bytes b
    (none, { mem := desc.mem.scatter dst offset d nbytes, info := s'.block b 0 })

def cryptoCtsDecrypt (nbytes : ℕ) (desc : State b) : Option Errno × State b :=
  let cbcBlocks := cbcBlocks b nbytes
  if totBlocks b nbytes = 1 then (none, cbcDecrypt E dst src 1 desc)
  else if nbytes ≤ b * 2 then ctsCbcDecrypt E junk dst src 0 nbytes desc
  else
    ctsCbcDecrypt E junk dst src (cbcBlocks * b) (nbytes - cbcBlocks * b)
      (cbcDecrypt E dst src cbcBlocks desc)

end Code

end LinuxKernel.Cts
