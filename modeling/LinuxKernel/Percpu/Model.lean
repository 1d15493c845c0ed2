import Mathlib.Algebra.Order.Ring.Int

/-! # The area map of a chunk of per-cpu memory

A chunk is cut into areas, whose sizes stand in `map` in the order of their offsets. The size of an
allocated area is negated. An allocation takes the first free area that is large enough, and a free
area is merged with its free neighbours.
-/

namespace LinuxKernel.Percpu

/-- The part of a `struct pcpu_chunk` that describes its areas. The entries of `map` that are in
use are in the list, and `mapAlloc` is the number for which there is room. -/
structure Chunk where
  map : List ℤ
  mapAlloc : ℕ
  freeSize : ℤ
  contigHint : ℤ
  deriving DecidableEq, Repr

def Chunk.mapUsed (chunk : Chunk) : ℕ := chunk.map.length

def pcpuDflMapAlloc : ℕ := 16

/-- A chunk as `pcpu_alloc_chunk` makes it. -/
def pcpuAllocChunk (unitSize : ℕ) : Chunk where
  map := [unitSize]
  mapAlloc := pcpuDflMapAlloc
  freeSize := unitSize
  contigHint := unitSize

/-- The extension of the map, once memory for it has been allocated. -/
def pcpuExtendAreaMap (chunk : Chunk) (newAlloc : ℕ) : Chunk :=
  if newAlloc ≤ chunk.mapAlloc then chunk else { chunk with mapAlloc := newAlloc }

section Alloc

def toInt (x : ℤ) : ℤ := x.bmod (2 ^ 32)

/-- `ALIGN(x, a)` for variables of type `int`. -/
def align (x a : BitVec 32) : BitVec 32 := (x + (a - 1)) &&& ~~~(a - 1)

/-- What has to be left out at `off` for the alignment. -/
def headSize (off al : ℕ) : ℤ :=
  (align (BitVec.ofNat 32 off) (BitVec.ofNat 32 al) - BitVec.ofNat 32 off).toInt

/-- The comparison of an `int` with `sizeof(int)`, which is unsigned. -/
def small (x : ℤ) : Bool := 0 ≤ x && x < 4

/-- The entries before, at and behind an index of `map`. -/
structure Cursor where
  pre : List ℤ
  cur : ℤ
  rest : List ℤ
  deriving DecidableEq, Repr

def Cursor.map (c : Cursor) : List ℤ := c.pre ++ c.cur :: c.rest

/-- A part of a block becomes an entry if it is not empty. -/
def part (x : ℤ) : List ℤ := if x ≠ 0 then [x] else []

/-- The index is moved to the middle one of the blocks, as the caller does. `none` if the map is
full: then the source is at a `BUG_ON`. -/
def pcpuSplitBlock (mapAlloc : ℕ) (c : Cursor) (head tail : ℤ) : Option Cursor :=
  if mapAlloc < c.map.length + (part head).length + (part tail).length then none
  else some ⟨c.pre ++ part head, c.cur - head - tail, part tail ++ c.rest⟩

/-- The head is left to the previous block if it is small or that block is free: the block is then
shorter, and nothing has to be split off it. -/
def mergeHead (freeSize : ℤ) (c : Cursor) (head : ℤ) : ℤ × ℤ × Cursor :=
  match c.pre.getLast? with
  | none => (head, freeSize, c)
  | some p =>
    if head ≠ 0 ∧ (small head ∨ p > 0) then
      if p > 0 then (0, freeSize, ⟨c.pre.dropLast ++ [p + head], c.cur - head, c.rest⟩)
      else (0, freeSize - head, ⟨c.pre.dropLast ++ [p - head], c.cur - head, c.rest⟩)
    else (head, freeSize, c)

/-- The block is split if anything is left of it. -/
def split (mapAlloc : ℕ) (c : Cursor) (head tail : ℤ) : Option Cursor :=
  if head ≠ 0 ∨ tail ≠ 0 then pcpuSplitBlock mapAlloc c head tail else some c

/-- The block is split and marked as allocated. A small tail is kept in it. -/
def carve (chunk : Chunk) (size : ℕ) (freeSize : ℤ) (c : Cursor) (head maxContig : ℤ) :
    Option Chunk :=
  let isLast := c.rest.isEmpty
  let tail := toInt (c.cur - head - size)
  let tail := if small tail then 0 else tail
  let maxContig := if head ≠ 0 then max head maxContig else maxContig
  let maxContig := if tail ≠ 0 then max tail maxContig else maxContig
  (split chunk.mapAlloc c head tail).map fun c => { chunk with
    map := c.pre ++ (-c.cur) :: c.rest
    freeSize := freeSize - c.cur
    contigHint := if isLast then maxContig else max chunk.contigHint maxContig }

/-- The loop over the blocks. The first component is the offset, `none` for the return of -1. -/
def scan (chunk : Chunk) (size al : ℕ) (pre : List ℤ) (off : ℕ) (maxContig : ℤ) :
    List ℤ → Option (Option ℕ × Chunk)
  | [] => some (none, { chunk with contigHint := maxContig })
  | e :: rest =>
    let head := headSize off al
    if pre.isEmpty ∧ head ≠ 0 then none
    else if e < 0 then scan chunk size al (pre ++ [e]) (off + e.natAbs) maxContig rest
    else if e < toInt (head + size) then
      scan chunk size al (pre ++ [e]) (off + e.natAbs) (max e maxContig) rest
    else
      let (head', freeSize, c) := mergeHead chunk.freeSize ⟨pre, e, rest⟩ head
      (carve chunk size freeSize c head' maxContig).map fun chunk =>
        (some (off + head.toNat), chunk)

/-- `none` if a `BUG_ON` is hit. Sums of entries are offsets in the chunk, and are not wrapped. -/
def pcpuAllocArea (chunk : Chunk) (size al : ℕ) : Option (Option ℕ × Chunk) :=
  scan chunk size al [] 0 0 chunk.map

end Alloc

section Free

/-- The loop that looks for the block at an offset. -/
def locate (freeme : ℕ) (pre : List ℤ) (off : ℕ) : List ℤ → Option Cursor
  | [] => none
  | e :: rest => if off = freeme then some ⟨pre, e, rest⟩
    else locate freeme (pre ++ [e]) (off + e.natAbs) rest

def mergePrev (c : Cursor) : Cursor :=
  match c.pre.getLast? with
  | some p => if p ≥ 0 then ⟨c.pre.dropLast, p + c.cur, c.rest⟩ else c
  | none => c

def mergeNext (c : Cursor) : Cursor :=
  match c.rest with
  | n :: rest => if n ≥ 0 then ⟨c.pre, c.cur + n, rest⟩ else c
  | [] => c

/-- `none` if a `BUG_ON` is hit, or if the offset is the end of the chunk. -/
def pcpuFreeArea (chunk : Chunk) (freeme : ℕ) : Option Chunk := do
  let c ← locate freeme [] 0 chunk.map
  if c.cur > 0 then none
  else
    let size := -c.cur
    let c := mergeNext (mergePrev ⟨c.pre, size, c.rest⟩)
    some { chunk with
      map := c.map
      freeSize := chunk.freeSize + size
      contigHint := max c.cur chunk.contigHint }

end Free

end LinuxKernel.Percpu
