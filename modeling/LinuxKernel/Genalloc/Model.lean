import Mathlib.Data.BitVec
import LinuxKernel.Base.Run

/-! # Memory pools without locks

A pool hands out pieces of its chunks. Each chunk has a bitmap with one bit per granule, and calls
on different CPUs change its words with `cmpxchg` only. A step of the model is the begin of a call
or one access of a call to shared memory, with the local work up to the next access; only the search
for zero bits is one step, in which each read may see any value.
-/

namespace LinuxKernel.Genalloc

open BitVec Function List

section Bitmap

def bitmapFirstWordMask (w start : ℕ) : BitVec w := allOnes w <<< (start % w)

def bitmapLastWordMask (w nbits : ℕ) : BitVec w :=
  if nbits % w = 0 then allOnes w else 1#w <<< (nbits % w) - 1#w

/-- One round of `bitmap_set_ll` or `bitmap_clear_ll`: the word, the mask for it, and the number of
bits that remain before it. -/
structure Segment (w : ℕ) where
  word : ℕ
  mask : BitVec w
  nr : ℕ

/-- The rounds from one position of the loop on, which is left after at most `nr + 1` of them. -/
def segmentLoop {w : ℕ} (size : ℕ) : ℕ → ℕ → ℕ → ℕ → BitVec w → List (Segment w)
  | 0, _, _, _, _ => []
  | fuel + 1, p, nr, bits, mask =>
    if bits ≤ nr then
      ⟨p, mask, nr⟩ :: segmentLoop size fuel (p + 1) (nr - bits) w (allOnes w)
    else if nr = 0 then []
    else [⟨p, mask &&& bitmapLastWordMask w size, nr⟩]

def segments (w start nr : ℕ) : List (Segment w) :=
  segmentLoop (start + nr) (nr + 1) (start / w) nr (w - start % w) (bitmapFirstWordMask w start)

def findNextBit (map : ℕ → Bool) (size offset : ℕ) : ℕ :=
  ((range' offset (size - offset)).find? map).getD size

def findNextZeroBit (map : ℕ → Bool) (size offset : ℕ) : ℕ :=
  findNextBit (fun i => !map i) size offset

/-- The map changes during the search: `seen k` is what its `k`-th pass reads. -/
def bitmapFindNextZeroArea (w : ℕ) (seen : ℕ → ℕ → Bool) (size nr : ℕ) : ℕ → ℕ → ℕ → Option ℕ
  | 0, _, _ => none
  | fuel + 1, k, start =>
    let index := findNextZeroBit (seen k) size start
    let stop := (index + nr) % 2 ^ w
    if size < stop then some stop
    else
      let i := findNextBit (seen (k + 1)) stop index
      if i < stop then bitmapFindNextZeroArea w seen size nr fuel (k + 2) (i + 1) else some index

end Bitmap

section Pool

structure Chunk where
  startAddr : ℕ
  size : ℕ
  deriving DecidableEq

def Chunk.endAddr (chunk : Chunk) : ℕ := chunk.startAddr + chunk.size

/-- A pool of `k` chunks of memory on a machine with `w` bits in a `long`. -/
structure Pool (w k : ℕ) where
  minAllocOrder : ℕ
  chunk : Fin k → Chunk
  le_word : 32 ≤ w
  order_lt : minAllocOrder < w
  size_lt : ∀ c, (chunk c).size < 2 ^ 31
  endAddr_lt : ∀ c, (chunk c).endAddr < 2 ^ w
  disjoint : ∀ c d, c ≠ d →
    (chunk c).endAddr ≤ (chunk d).startAddr ∨ (chunk d).endAddr ≤ (chunk c).startAddr

variable {w k : ℕ} (pool : Pool w k)

namespace Pool

def granule : ℕ := 2 ^ pool.minAllocOrder

def endBit (c : Fin k) : ℕ := (pool.chunk c).size / pool.granule

/-- The number of bits for a size, which is a `size_t` cut to an `int`. -/
def nbits (size : BitVec w) : BitVec 32 :=
  ((size + 1#w <<< pool.minAllocOrder - 1#w) >>> pool.minAllocOrder).setWidth 32

/-- The chunk that `gen_pool_free` finds for an address. -/
def chunkOf (addr : ℕ) : Option (Fin k) :=
  (finRange k).find? fun c =>
    (pool.chunk c).startAddr ≤ addr ∧ addr < (pool.chunk c).endAddr

end Pool

structure Allocation (w k : ℕ) where
  chunk : Fin k
  startBit : ℕ
  size : BitVec w
  deriving DecidableEq

def Allocation.addr (a : Allocation w k) : ℕ :=
  (pool.chunk a.chunk).startAddr + a.startBit * pool.granule

end Pool

section Calls

variable {w k : ℕ}

/-- Who goes over the words of a bitmap: `gen_pool_alloc`, with the chunks it has not looked at, to
set bits or to clear those it has set, or `gen_pool_free`. -/
inductive Kind (k : ℕ) where
  | set (rest : List (Fin k))
  | undo (rest : List (Fin k))
  | free

/-- A call of `bitmap_set_ll` or `bitmap_clear_ll` for a request of `size` bytes. -/
structure Job (w k : ℕ) where
  kind : Kind k
  size : BitVec w
  chunk : Fin k
  start : ℕ
  nr : ℕ

/-- Where a CPU is: before the next access to shared memory that it names. -/
inductive Pc (w k : ℕ) where
  | idle
  /-- The read of `avail`. -/
  | check (size : BitVec w) (c : Fin k) (rest : List (Fin k)) (startBit : BitVec 32)
  /-- The search for zero bits. -/
  | find (size : BitVec w) (c : Fin k) (rest : List (Fin k)) (startBit : BitVec 32)
  /-- The first read of a word, or the `cmpxchg` of it with the value that was read. -/
  | work (job : Job w k) (seg : Segment w) (segs : List (Segment w)) (val : Option (BitVec w))
  /-- The `atomic_sub` of `gen_pool_alloc`. -/
  | take (size : BitVec w) (c : Fin k) (startBit : ℕ)
  /-- The `atomic_add` of `gen_pool_free`. -/
  | give (size : BitVec w) (c : Fin k)
  /-- A `BUG_ON` has fired. -/
  | bug
  /-- An access outside of the bitmap. -/
  | fault

/-- The next chunk of the list, or the return of zero. -/
def visit (size : BitVec w) (startBit : BitVec 32) : List (Fin k) → Pc w k
  | [] => .idle
  | c :: rest => .check size c rest startBit

namespace Job

/-- The test before the `cmpxchg`, which gives `-EBUSY`. -/
def busy (job : Job w k) (val mask : BitVec w) : Bool :=
  match job.kind with
  | .set _ => val &&& mask != 0
  | _ => val &&& mask != mask

def newVal (job : Job w k) (val mask : BitVec w) : BitVec w :=
  match job.kind with
  | .set _ => val ||| mask
  | _ => val &&& ~~~mask

/-- After the last word. -/
def done (job : Job w k) : Pc w k :=
  match job.kind with
  | .set _ => .take job.size job.chunk job.start
  | .undo rest => .find job.size job.chunk rest (BitVec.ofNat 32 job.start)
  | .free => .give job.size job.chunk

def goOn (job : Job w k) : List (Segment w) → Pc w k
  | [] => job.done
  | seg :: segs => .work job seg segs none

def enter (job : Job w k) : Pc w k := job.goOn (segments w job.start job.nr)

/-- After `-EBUSY`: the bits that were set are cleared again, and a failure to clear bits is a
bug. -/
def fail (job : Job w k) (remain : ℕ) : Pc w k :=
  match job.kind with
  | .set rest => enter ⟨.undo rest, job.size, job.chunk, job.start, job.nr - remain⟩
  | _ => .bug

/-- The body of the loop in `set_bits_ll` and `clear_bits_ll` up to the `cmpxchg`. -/
def attempt (job : Job w k) (seg : Segment w) (segs : List (Segment w)) (val : BitVec w) : Pc w k :=
  if job.busy val seg.mask then job.fail seg.nr else .work job seg segs (some val)

end Job

variable (pool : Pool w k)

/-- After the search. A negative position or number of bits leads out of the bitmap. -/
def found (size : BitVec w) (c : Fin k) (rest : List (Fin k)) (startBit : BitVec 32) : Pc w k :=
  if (pool.endBit c : ℤ) ≤ startBit.toInt then visit size startBit rest
  else if startBit.toInt < 0 ∨ (pool.nbits size).toInt < 0 then .fault
  else Job.enter ⟨.set rest, size, c, startBit.toNat, (pool.nbits size).toNat⟩

def genPoolAlloc (size : BitVec w) : Pc w k :=
  if size = 0 then .idle else visit size 0 (finRange k)

def genPoolFree (addr : ℕ) (size : BitVec w) : Pc w k :=
  match pool.chunkOf addr with
  | none => .bug
  | some c =>
    if (pool.chunk c).endAddr < (addr + size.toNat) % 2 ^ w then .bug
    else if (pool.nbits size).toInt < 0 then .fault
    else Job.enter ⟨.free, size, c, (addr - (pool.chunk c).startAddr) / pool.granule,
      (pool.nbits size).toNat⟩

end Calls

section Steps

variable {w k : ℕ} {T : Type*} [DecidableEq T]

/-- The shared memory, the CPUs, and the allocations that were returned and not yet freed. -/
structure State (w k : ℕ) (T : Type*) where
  bits : Fin k → ℕ → BitVec w
  avail : Fin k → BitVec 32
  pc : T → Pc w k
  live : List (Allocation w k)

inductive Op (w k : ℕ) (T : Type*) where
  | alloc (i : T) (size : BitVec w)
  | free (i : T) (a : Allocation w k)
  | find (i : T) (seen : ℕ → ℕ → Bool)
  | access (i : T)

variable (pool : Pool w k)

def State.init : State w k T where
  bits _ _ := 0
  avail c := BitVec.ofNat 32 (pool.chunk c).size
  pc _ := .idle
  live := []

def State.goto (s : State w k T) (i : T) (pc : Pc w k) : State w k T :=
  { s with pc := update s.pc i pc }

def State.write (s : State w k T) (c : Fin k) (word : ℕ) (val : BitVec w) : State w k T :=
  { s with bits := update s.bits c (update (s.bits c) word val) }

def State.setAvail (s : State w k T) (c : Fin k) (avail : BitVec 32) : State w k T :=
  { s with avail := update s.avail c avail }

def State.setLive (s : State w k T) (live : List (Allocation w k)) : State w k T :=
  { s with live := live }

/-- `nbits << order`, as it is taken from `avail` and added to it. -/
def bytes (size : BitVec w) : BitVec 32 := pool.nbits size <<< pool.minAllocOrder

/-- The access of a CPU to shared memory; the search has its own step. -/
def access (s : State w k T) (i : T) : Option (State w k T) :=
  match s.pc i with
  | .check size c rest startBit =>
    if (s.avail c).signExtend w < size then some (s.goto i (visit size startBit rest))
    else some (s.goto i (.find size c rest startBit))
  | .work job seg segs none => some (s.goto i (job.attempt seg segs (s.bits job.chunk seg.word)))
  | .work job seg segs (some val) =>
    if s.bits job.chunk seg.word = val then
      some ((s.write job.chunk seg.word (job.newVal val seg.mask)).goto i (job.goOn segs))
    else some (s.goto i (job.attempt seg segs (s.bits job.chunk seg.word)))
  | .take size c startBit =>
    some (((s.setAvail c (s.avail c - bytes pool size)).setLive
      (⟨c, startBit, size⟩ :: s.live)).goto i .idle)
  | .give size c =>
    some ((s.setAvail c (s.avail c + bytes pool size)).goto i .idle)
  | _ => none

/-- One step. A call of `gen_pool_free` is given the address and the size of a live allocation. -/
def step (s : State w k T) : Op w k T → Option (State w k T)
  | .alloc i size =>
    match s.pc i with
    | .idle => some (s.goto i (genPoolAlloc size))
    | _ => none
  | .free i a =>
    match s.pc i with
    | .idle =>
      if a ∈ s.live then
        some ((s.setLive (s.live.erase a)).goto i (genPoolFree pool (a.addr pool) a.size))
      else none
    | _ => none
  | .find i seen =>
    match s.pc i with
    | .find size c rest startBit =>
      (bitmapFindNextZeroArea w seen (pool.endBit c) (pool.nbits size).toNat (pool.endBit c + 2) 0
        (startBit.signExtend w).toNat).map fun start =>
          s.goto i (found pool size c rest (BitVec.ofNat 32 start))
    | _ => none
  | .access i => access pool s i

end Steps

end LinuxKernel.Genalloc
