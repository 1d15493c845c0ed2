import Mathlib.Algebra.Group.Int.Defs
import LinuxKernel.Base.LittleEndian
import LinuxKernel.Ebitmap.Model

/-! # Bitmaps in a policy file

`ebitmap_write` and `ebitmap_read` of `security/selinux/ss/ebitmap.c`. The file has words of 64 bits
with the number of their first bit, whatever the size of a long is.
-/

namespace LinuxKernel.Selinux

open LittleEndian

section Write

/-- `rounddown(bit, BITS_PER_U64)`. -/
def rounddown (bit : ℕ) : ℕ := bit - bit % 64

/-- `roundup(x, BITS_PER_U64)`. -/
def roundup (x : ℕ) : ℕ := (x + 63) / 64 * 64

structure Count where
  count : ℕ
  lastBit : ℕ
  lastStartbit : ℤ

def countBit (c : Count) (bit : ℕ) : Count :=
  let c := if c.lastStartbit < rounddown bit then
      { c with count := c.count + 1, lastStartbit := rounddown bit }
    else c
  { c with lastBit := roundup (bit + 1) }

structure Output where
  file : List UInt8
  map : ℕ
  lastStartbit : ℤ

def putWord (startbit : ℤ) (map : ℕ) : List UInt8 := leBytes 4 startbit.toNat ++ leBytes 8 map

def putBit (o : Output) (bit : ℕ) : Output :=
  if o.lastStartbit < rounddown bit then
    if o.map = 0 then ⟨o.file, 1 <<< (bit - rounddown bit), rounddown bit⟩
    else ⟨o.file ++ putWord o.lastStartbit o.map, 0 ||| 1 <<< (bit - rounddown bit), rounddown bit⟩
  else { o with map := o.map ||| 1 <<< (bit - o.lastStartbit.toNat) }

/-- `ebitmap_write`, with the bytes that are written. -/
def ebitmapWrite {a : Arch} (e : Ebitmap a) (fuel : ℕ) : Option (List UInt8) := do
  let bits ← ebitmapForEachPositiveBit e fuel
  let c := bits.foldl countBit ⟨0, 0, -1⟩
  let header := leBytes 4 64 ++ leBytes 4 c.lastBit ++ leBytes 4 c.count
  let o := bits.foldl putBit ⟨header, 0, -2 ^ 31⟩
  return if o.map ≠ 0 then o.file ++ putWord o.lastStartbit o.map else o.file

end Write

section Read

variable (a : Arch)

def nextEntry (fp : List UInt8) (bytes : ℕ) : Option (ℕ × List UInt8) :=
  if fp.length < bytes then none else some (leValue (fp.take bytes), fp.drop bytes)

variable {a}

theorem length_maps_set (n : Node a) (i : ℕ) (x : BitVec a.unitSize) :
    (n.maps.set i x).length = a.unitNums := List.length_set.trans n.length_maps

def Node.setMap (n : Node a) (i : ℕ) (x : BitVec a.unitSize) : Node a :=
  ⟨n.startbit, n.maps.set i x, length_maps_set n i x⟩

/-- The loop that stores a word of the file in the words of a node. It ends when no bits are
left. -/
def storeMap : ℕ → Node a → ℕ → ℕ → Option (Node a)
  | 0, _, _, _ => none
  | fuel + 1, n, index, map =>
    if map = 0 then some n
    else if a.unitNums ≤ index then none
    else storeMap fuel (n.setMap index (BitVec.ofNat a.unitSize map)) (index + 1)
      (map >>> (a.unitSize / 2) >>> (a.unitSize / 2))

/-- The end of `ebitmap_read`: success, or an error with the bitmap destroyed. -/
inductive ReadResult (a : Arch) where
  | ok (e : Ebitmap a) (fp : List UInt8)
  | bad (err : Errno)

/-- The node for a word at `startbit`, if the word is in place: the current one or a new one. The
nodes before it are returned as well. -/
def readNode (alloc : Bool) (startbit : ℕ) (ns : List (Node a)) (cur : Option (Node a)) :
    Except Errno (List (Node a) × Node a) :=
  match cur.filter fun n => startbit < n.startbit + a.size with
  | none =>
    if alloc then .ok (ns ++ cur.toList, .zero (startbit - startbit % a.size) a)
    else .error .enomem
  | some n => if startbit ≤ n.startbit then .error .einval else .ok (ns, n)

/-- The loop of `ebitmap_read` with the nodes before the current one, where the `i`-th `kzalloc`
gives memory if `alloc i` holds. -/
def readLoop (highbit : ℕ) (alloc : ℕ → Bool) :
    ℕ → ℕ → List (Node a) → Option (Node a) → List UInt8 → Option (ReadResult a)
  | 0, _, ns, cur, fp => some (.ok ⟨ns ++ cur.toList, highbit⟩ fp)
  | count + 1, i, ns, cur, fp =>
    match nextEntry fp 4 with
    | none => some (.bad .einval)
    | some (startbit, fp) =>
      if startbit &&& (64 - 1) ≠ 0 then some (.bad .einval)
      else if highbit - 64 < startbit then some (.bad .einval)
      else
        match readNode (alloc i) startbit ns cur with
        | .error err => some (.bad err)
        | .ok (ns, n) =>
          match nextEntry fp 8 with
          | none => some (.bad .einval)
          | some (map, fp) => do
            let n ← storeMap 64 n ((startbit - n.startbit) / a.unitSize) map
            readLoop highbit alloc count (i + 1) ns (some n) fp

def ebitmapRead (a : Arch) (alloc : ℕ → Bool) (fp : List UInt8) : Option (ReadResult a) :=
  if fp.length < 12 then some (.bad .einval)
  else
    let mapunit := leValue (fp.take 4)
    let highbit := leValue ((fp.drop 4).take 4)
    let count := leValue ((fp.drop 8).take 4)
    if mapunit ≠ 64 then some (.bad .einval)
    else
      -- round up e->highbit
      let highbit := (highbit + (a.size - 1)) % 2 ^ 32
      let highbit := highbit - highbit % a.size
      if highbit = 0 then some (.ok ⟨[], 0⟩ (fp.drop 12))
      else readLoop highbit alloc count 0 [] none (fp.drop 12)

end Read

end LinuxKernel.Selinux
