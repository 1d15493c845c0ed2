import Mathlib.Algebra.Group.Nat.Defs

/-! # Tables of memory regions

The regions of a `memblock_type` are sorted by address. The search for free memory looks for a place
that no reserved region overlaps, and a memory limit cuts both tables. An empty table has one entry
of size zero. Addresses are 64 bits wide.
-/

namespace LinuxKernel.Memblock

def add (x y : ℕ) : ℕ := (x + y) % 2 ^ 64

def sub (x y : ℕ) : ℕ := (x + 2 ^ 64 - y) % 2 ^ 64

structure Region where
  base : ℕ
  size : ℕ
  deriving DecidableEq, Repr

def Region.rend (rgn : Region) : ℕ := add rgn.base rgn.size

def dummy : Region := ⟨0, 0⟩

section Find

def pageSize : ℕ := 4096

def memblockError : ℕ := 0

def memblockAlignDown (addr size : ℕ) : ℕ := addr &&& (2 ^ 64 - 1 - (size - 1))

def memblockAddrsOverlap (base₁ size₁ base₂ size₂ : ℕ) : Bool :=
  base₁ < add base₂ size₂ && base₂ < add base₁ size₁

def memblockOverlapsRegion (type : List Region) (base size : ℕ) : Option Region :=
  type.find? fun rgn => memblockAddrsOverlap base size rgn.base rgn.size

variable (reserved : List Region) (size align : ℕ)

/-- The loop of `memblock_find_region`, for at most `fuel` rounds. -/
def findRegionLoop (start : ℕ) : ℕ → ℕ → Option ℕ
  | 0, _ => none
  | fuel + 1, base =>
    if start ≤ base then
      match memblockOverlapsRegion reserved base size with
      | none => some base
      | some rgn =>
        if rgn.base < size then some memblockError
        else findRegionLoop start fuel (memblockAlignDown (rgn.base - size) align)
    else some memblockError

def memblockFindRegion (fuel start stop : ℕ) : Option ℕ :=
  if stop < size then some memblockError
  else findRegionLoop reserved size align (if start = 0 then pageSize else start) fuel
    (memblockAlignDown (stop - size) align)

/-- The loop of `memblock_find_base` over the memory regions, the last one first. -/
def findBaseLoop (fuel start stop : ℕ) : List Region → Option ℕ
  | [] => some memblockError
  | rgn :: rest =>
    if rgn.size < size then findBaseLoop fuel start stop rest
    else if rgn.rend ≤ start then some memblockError
    else
      let bottom := max rgn.base start
      let top := min rgn.rend stop
      if bottom ≥ top then findBaseLoop fuel start stop rest
      else
        match memblockFindRegion reserved size align fuel bottom top with
        | none => none
        | some found =>
          if found ≠ memblockError then some found else findBaseLoop fuel start stop rest

/-- A `stop` of 0 is `MEMBLOCK_ALLOC_ACCESSIBLE`. -/
def memblockFindBase (fuel : ℕ) (memory : List Region) (currentLimit start stop : ℕ) : Option ℕ :=
  findBaseLoop reserved size align fuel start (if stop = 0 then currentLimit else stop)
    memory.reverse

end Find

section Limit

end Limit

end LinuxKernel.Memblock
