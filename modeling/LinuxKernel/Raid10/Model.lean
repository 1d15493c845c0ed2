import Mathlib.Algebra.Group.Nat.Defs
import Mathlib.Algebra.Group.Int.Defs

/-! # Copies of the sectors of a RAID 10 array

The chunks of the array are laid out over the devices with `near_copies` copies of each, next to
each other and row by row. The whole is repeated `far_copies` times with the devices shifted, at a
stride that is a part of the device, or, for an offset layout, row after row. `raid10_find_phys`
gives the copies of a sector, and `raid10_find_virt` goes back from one of them. Sectors have 64
bits.
-/

namespace LinuxKernel.Raid10

structure Mddev where
  newChunkSectors : ℕ
  newLayout : ℕ
  raidDisks : ℕ
  devSectors : ℕ

structure R10conf where
  raidDisks : ℕ
  nearCopies : ℕ
  farCopies : ℕ
  copies : ℕ
  farOffset : Bool
  chunkMask : ℕ
  chunkShift : ℕ
  devSectors : ℕ
  stride : ℕ
deriving DecidableEq

def sector (n : ℕ) : ℕ := n % 2 ^ 64

def isPowerOf2 (n : ℕ) : Bool := n ≠ 0 ∧ n &&& (n - 1) = 0

/-- `ffz(~n)`, the first bit that is set. -/
def firstBit (n : ℕ) : ℕ := ((List.range 32).find? n.testBit).getD 32

/-- The layout is accepted, and the allocations succeed. Pages have 4096 bytes. -/
def setupConf (mddev : Mddev) : Option R10conf :=
  if mddev.newChunkSectors < 8 ∨ ¬ isPowerOf2 mddev.newChunkSectors then none
  else
    let nc := mddev.newLayout &&& 255
    let fc := (mddev.newLayout >>> 8) &&& 255
    let fo := mddev.newLayout &&& (1 <<< 16) ≠ 0
    if nc * fc < 2 ∨ nc * fc > mddev.raidDisks ∨ mddev.newLayout >>> 17 ≠ 0 then none
    else
      let chunkShift := firstBit mddev.newChunkSectors
      let size := sector ((mddev.devSectors >>> chunkShift) / fc * mddev.raidDisks) / nc
      -- the used chunks of each device, rounded up
      let stride := sector (size * (nc * fc) + (mddev.raidDisks - 1)) / mddev.raidDisks
      some {
        raidDisks := mddev.raidDisks
        nearCopies := nc
        farCopies := fc
        copies := nc * fc
        farOffset := fo
        chunkMask := mddev.newChunkSectors - 1
        chunkShift := chunkShift
        devSectors := sector (stride <<< chunkShift)
        stride := sector ((if fo then 1 else stride / fc) <<< chunkShift) }

/-- `raid10_size` of the whole array. -/
def raid10Size (conf : R10conf) : ℕ :=
  let size := sector ((conf.devSectors >>> conf.chunkShift) / conf.farCopies * conf.raidDisks)
  sector ((size / conf.nearCopies) <<< conf.chunkShift)

/-- The copies of a sector after the first one of a device, as pairs of a device and an address. -/
def farLoop (conf : R10conf) : ℕ → ℕ → ℕ → List (ℕ × ℕ)
  | 0, _, _ => []
  | f + 1, d, s =>
    let d := d + conf.nearCopies
    let d := if d ≥ conf.raidDisks then d - conf.raidDisks else d
    let s := sector (s + conf.stride)
    (d, s) :: farLoop conf f d s

def nearLoop (conf : R10conf) : ℕ → ℕ → ℕ → List (ℕ × ℕ)
  | 0, _, _ => []
  | n + 1, dev, s =>
    (dev, s) :: farLoop conf (conf.farCopies - 1) dev s ++
      if dev + 1 ≥ conf.raidDisks then nearLoop conf n 0 (sector (s + (conf.chunkMask + 1)))
      else nearLoop conf n (dev + 1) s

/-- `none` is the `BUG_ON` at the end. -/
def raid10FindPhys (conf : R10conf) (v : ℕ) : Option (List (ℕ × ℕ)) :=
  let chunk := sector ((v >>> conf.chunkShift) * conf.nearCopies)
  let stripe := chunk / conf.raidDisks
  let stripe := if conf.farOffset then sector (stripe * conf.farCopies) else stripe
  let devs := nearLoop conf conf.nearCopies (chunk % conf.raidDisks)
    (sector ((v &&& conf.chunkMask) + stripe <<< conf.chunkShift))
  if devs.length ≠ conf.copies then none else some devs

/-- The loop that goes back to the first of the far copies. -/
def virtLoop (conf : R10conf) : ℕ → ℕ → ℤ → Option (ℕ × ℤ)
  | 0, _, _ => none
  | fuel + 1, s, dev =>
    if s ≥ conf.stride then
      virtLoop conf fuel (s - conf.stride)
        (if dev < conf.nearCopies then dev + (conf.raidDisks - conf.nearCopies)
          else dev - conf.nearCopies)
    else some (s, dev)

/-- The end of `raid10_find_virt`, for the first of the far copies. -/
def virtSector (conf : R10conf) (offset chunk : ℕ) (dev : ℤ) : ℕ :=
  let vchunk := ((chunk * conf.raidDisks + dev) % 2 ^ 64).toNat / conf.nearCopies
  sector (vchunk <<< conf.chunkShift + offset)

/-- `none` is a loop that does not end, which needs a stride of zero. -/
def raid10FindVirt (conf : R10conf) (s : ℕ) (dev : ℤ) : Option ℕ :=
  let offset := s &&& conf.chunkMask
  if conf.farOffset then
    let chunk := s >>> conf.chunkShift
    let fc := chunk % conf.farCopies
    let dev := dev - fc * conf.nearCopies
    let dev := if dev < 0 then dev + conf.raidDisks else dev
    some (virtSector conf offset (chunk / conf.farCopies) dev)
  else
    (virtLoop conf (s + 1) s dev).map fun (s, dev) =>
      virtSector conf offset (s >>> conf.chunkShift) dev

end LinuxKernel.Raid10
