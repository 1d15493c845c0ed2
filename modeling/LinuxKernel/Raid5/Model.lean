import Mathlib.Algebra.Group.Nat.Defs
import Mathlib.Algebra.Group.Int.Defs

/-! # Sectors of a RAID array with parity

An array of level 4, 5 or 6 is cut into chunks, and the chunks of a stripe lie on different disks
together with the parity of the stripe, and on level 6 a second one called Q.
`raid5_compute_sector` says on which disk and at which sector of it a sector of the array is, and
`compute_blocknr` goes back. Sectors have 64 bits. A disk index is an integer, and the index of Q is
-1 if there is none. A call that would stop at `BUG` gives `none`.
-/

namespace LinuxKernel.Raid5

inductive Level where
  | four
  | five
  | six
deriving DecidableEq

inductive Algorithm where
  | leftAsymmetric
  | rightAsymmetric
  | leftSymmetric
  | rightSymmetric
  | parity0
  | parityN
  | rotatingZeroRestart
  | rotatingNRestart
  | rotatingNContinue
  | leftAsymmetric6
  | rightAsymmetric6
  | leftSymmetric6
  | rightSymmetric6
  | parity06
deriving DecidableEq

/-- `struct r5conf`, with the values from before a reshape. -/
structure Conf where
  level : Level
  algorithm : Algorithm
  prevAlgo : Algorithm
  chunkSectors : ℕ
  prevChunkSectors : ℕ
  raidDisks : ℕ
  previousRaidDisks : ℕ

namespace Conf

def maxDegraded (conf : Conf) : ℕ := if conf.level = .six then 2 else 1

def algo (conf : Conf) (previous : Bool) : Algorithm :=
  if previous then conf.prevAlgo else conf.algorithm

def sectorsPerChunk (conf : Conf) (previous : Bool) : ℕ :=
  if previous then conf.prevChunkSectors else conf.chunkSectors

def disks (conf : Conf) (previous : Bool) : ℕ :=
  if previous then conf.previousRaidDisks else conf.raidDisks

def dataDisks (conf : Conf) (previous : Bool) : ℕ := conf.disks previous - conf.maxDegraded

end Conf

structure Place where
  ddIdx : ℤ
  pdIdx : ℤ
  qdIdx : ℤ
  ddfLayout : Bool
deriving DecidableEq

/-- The parity disks of a stripe, and the disk of its chunk `dd`. -/
def place (level : Level) (algorithm : Algorithm) (raidDisks dataDisks : ℤ) (stripe : ℕ) (dd : ℤ) :
    Option Place :=
  match level with
  | .four => some ⟨dd, dataDisks, -1, false⟩
  | .five =>
    match algorithm with
    | .leftAsymmetric =>
      let pd := dataDisks - stripe % raidDisks
      some ⟨if dd ≥ pd then dd + 1 else dd, pd, -1, false⟩
    | .rightAsymmetric =>
      let pd := stripe % raidDisks
      some ⟨if dd ≥ pd then dd + 1 else dd, pd, -1, false⟩
    | .leftSymmetric =>
      let pd := dataDisks - stripe % raidDisks
      some ⟨(pd + 1 + dd) % raidDisks, pd, -1, false⟩
    | .rightSymmetric =>
      let pd := stripe % raidDisks
      some ⟨(pd + 1 + dd) % raidDisks, pd, -1, false⟩
    | .parity0 => some ⟨dd + 1, 0, -1, false⟩
    | .parityN => some ⟨dd, dataDisks, -1, false⟩
    | _ => none
  | .six =>
    match algorithm with
    | .leftAsymmetric =>
      let pd := raidDisks - 1 - stripe % raidDisks
      if pd = raidDisks - 1 then some ⟨dd + 1, pd, 0, false⟩  -- Q D D D P
      else some ⟨if dd ≥ pd then dd + 2 else dd, pd, pd + 1, false⟩  -- D D P Q D
    | .rightAsymmetric =>
      let pd := stripe % raidDisks
      if pd = raidDisks - 1 then some ⟨dd + 1, pd, 0, false⟩
      else some ⟨if dd ≥ pd then dd + 2 else dd, pd, pd + 1, false⟩
    | .leftSymmetric =>
      let pd := raidDisks - 1 - stripe % raidDisks
      some ⟨(pd + 2 + dd) % raidDisks, pd, (pd + 1) % raidDisks, false⟩
    | .rightSymmetric =>
      let pd := stripe % raidDisks
      some ⟨(pd + 2 + dd) % raidDisks, pd, (pd + 1) % raidDisks, false⟩
    | .parity0 => some ⟨dd + 2, 0, 1, false⟩
    | .parityN => some ⟨dd, dataDisks, dataDisks + 1, false⟩
    | .rotatingZeroRestart =>
      let pd := stripe % raidDisks
      if pd = raidDisks - 1 then some ⟨dd + 1, pd, 0, true⟩
      else some ⟨if dd ≥ pd then dd + 2 else dd, pd, pd + 1, true⟩
    | .rotatingNRestart =>
      let pd := raidDisks - 1 - ((stripe + 1) % 2 ^ 64 : ℕ) % raidDisks
      if pd = raidDisks - 1 then some ⟨dd + 1, pd, 0, true⟩
      else some ⟨if dd ≥ pd then dd + 2 else dd, pd, pd + 1, true⟩
    | .rotatingNContinue =>
      let pd := raidDisks - 1 - stripe % raidDisks
      some ⟨(pd + 1 + dd) % raidDisks, pd, (pd + raidDisks - 1) % raidDisks, true⟩
    | .leftAsymmetric6 =>
      let pd := dataDisks - stripe % (raidDisks - 1)
      some ⟨if dd ≥ pd then dd + 1 else dd, pd, raidDisks - 1, false⟩
    | .rightAsymmetric6 =>
      let pd := stripe % (raidDisks - 1)
      some ⟨if dd ≥ pd then dd + 1 else dd, pd, raidDisks - 1, false⟩
    | .leftSymmetric6 =>
      let pd := dataDisks - stripe % (raidDisks - 1)
      some ⟨(pd + 1 + dd) % (raidDisks - 1), pd, raidDisks - 1, false⟩
    | .rightSymmetric6 =>
      let pd := stripe % (raidDisks - 1)
      some ⟨(pd + 1 + dd) % (raidDisks - 1), pd, raidDisks - 1, false⟩
    | .parity06 => some ⟨dd + 1, 0, raidDisks - 1, false⟩

/-- The disk and the sector on it, for a sector of the array. -/
def raid5ComputeSector (conf : Conf) (rSector : ℕ) (previous : Bool) : Option (Place × ℕ) :=
  let sectorsPerChunk := conf.sectorsPerChunk previous
  let dataDisks := conf.dataDisks previous
  let chunkOffset := rSector % sectorsPerChunk
  let chunkNumber := rSector / sectorsPerChunk
  let stripe := chunkNumber / dataDisks
  (place conf.level (conf.algo previous) (conf.disks previous) dataDisks stripe
    ((chunkNumber % dataDisks : ℕ) : ℤ)).map
    fun p => (p, (stripe * sectorsPerChunk + chunkOffset) % 2 ^ 64)

structure StripeHead where
  sector : ℕ
  disks : ℕ
  pdIdx : ℤ
  qdIdx : ℤ
  ddfLayout : Bool

/-- `init_stripe` and `stripe_set_idx`: the stripe at a sector of the disks. -/
def stripeSetIdx (conf : Conf) (sector : ℕ) (previous : Bool) : Option StripeHead :=
  let sectorsPerChunk := conf.sectorsPerChunk previous
  let chunkOffset := sector % sectorsPerChunk
  let stripe := sector / sectorsPerChunk
  (raid5ComputeSector conf
    ((stripe * conf.dataDisks previous * sectorsPerChunk + chunkOffset) % 2 ^ 64) previous).map
    fun p => ⟨sector, conf.disks previous, p.1.pdIdx, p.1.qdIdx, p.1.ddfLayout⟩

/-- The chunk of a stripe that is on the disk `i`. -/
def unplace (level : Level) (algorithm : Algorithm) (raidDisks dataDisks pd i : ℤ) : Option ℤ :=
  match level with
  | .four => some i
  | .five =>
    match algorithm with
    | .leftAsymmetric | .rightAsymmetric => some (if i > pd then i - 1 else i)
    | .leftSymmetric | .rightSymmetric =>
      some ((if i < pd then i + raidDisks else i) - (pd + 1))
    | .parity0 => some (i - 1)
    | .parityN => some i
    | _ => none
  | .six =>
    match algorithm with
    | .leftAsymmetric | .rightAsymmetric | .rotatingZeroRestart | .rotatingNRestart =>
      some (if pd = raidDisks - 1 then i - 1 else if i > pd then i - 2 else i)
    | .leftSymmetric | .rightSymmetric =>
      some (if pd = raidDisks - 1 then i - 1
        else (if i < pd then i + raidDisks else i) - (pd + 2))
    | .parity0 => some (i - 2)
    | .parityN => some i
    | .rotatingNContinue =>
      some (if pd = 0 then i - 1 else (if i < pd then i + raidDisks else i) - (pd + 1))
    | .leftAsymmetric6 | .rightAsymmetric6 => some (if i > pd then i - 1 else i)
    | .leftSymmetric6 | .rightSymmetric6 =>
      some ((if i < pd then i + (dataDisks + 1) else i) - (pd + 1))
    | .parity06 => some (i - 1)

/-- The results of `compute_blocknr`. The value is zero for a parity disk, and also, after a
message, when the map is not correct. -/
inductive Blocknr where
  | parity
  | mapNotCorrect
  | sector (rSector : ℕ)
deriving DecidableEq

def computeBlocknr (conf : Conf) (sh : StripeHead) (i : ℤ) (previous : Bool) : Option Blocknr :=
  let raidDisks := sh.disks
  let dataDisks := raidDisks - conf.maxDegraded
  let sectorsPerChunk := conf.sectorsPerChunk previous
  let chunkOffset := sh.sector % sectorsPerChunk
  let stripe := sh.sector / sectorsPerChunk
  if i = sh.pdIdx then some .parity
  else if conf.level = .six ∧ i = sh.qdIdx then some .parity
  else do
    let dd ← unplace conf.level (conf.algo previous) raidDisks dataDisks sh.pdIdx i
    let chunkNumber := ((stripe * dataDisks : ℕ) + dd) % 2 ^ 64
    let rSector := (chunkNumber.toNat * sectorsPerChunk + chunkOffset) % 2 ^ 64
    let (p, check) ← raid5ComputeSector conf rSector previous
    if check ≠ sh.sector ∨ p.ddIdx ≠ i ∨ p.pdIdx ≠ sh.pdIdx ∨ p.qdIdx ≠ sh.qdIdx then
      some .mapNotCorrect
    else some (.sector rSector)

end LinuxKernel.Raid5
