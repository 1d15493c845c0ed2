import Mathlib.Algebra.Group.Nat.Defs
import Mathlib.Tactic.Common
import LinuxKernel.Base.Errno

/-! # Region tracking of huge pages

The regions of a mapping that are reserved are kept in a list. `region_chg` says how much a new
reservation would add, and makes sure that there is a list element in which `region_add` can then
record it. Offsets are pages of a file; they and the sizes are far from the bounds of a `long`.
-/

namespace LinuxKernel.Hugetlb

structure FileRegion where
  rgFrom : ℤ
  rgTo : ℤ
  deriving DecidableEq, Repr

/-- The regions that lie before an offset. -/
def before (l : List FileRegion) (f : ℤ) : List FileRegion := l.takeWhile (·.rgTo < f)

/-- The regions from the one on that an offset is in or before. -/
def located (l : List FileRegion) (f : ℤ) : List FileRegion := l.dropWhile (·.rgTo < f)

section Add

/-- The loop over the regions that are overlapped: how far they reach, and what follows them. -/
def consume (t : ℤ) : List FileRegion → ℤ × List FileRegion
  | [] => (t, [])
  | rg :: rest =>
    if rg.rgFrom > t then (t, rg :: rest)
    else consume (if rg.rgTo > t then rg.rgTo else t) rest

/-- `none` if there is no list element to write to: then the source writes to the list head. -/
def regionAdd (l : List FileRegion) (f t : ℤ) : Option (List FileRegion) :=
  match located l f with
  | [] => none
  | nrg :: rest =>
    let f' := if f > nrg.rgFrom then nrg.rgFrom else f
    -- the first region is reused, whether it is overlapped or not
    let (t, rest) := if nrg.rgFrom > t then (t, rest)
      else consume (if nrg.rgTo > t then nrg.rgTo else t) rest
    some (before l f ++ ⟨f', t⟩ :: rest)

end Add

section Chg

/-- The loop that accounts for the regions that are overlapped. -/
def account (chg t : ℤ) : List FileRegion → ℤ
  | [] => chg
  | rg :: rest =>
    if rg.rgFrom > t then chg
    else if rg.rgTo > t then
      account (chg + (rg.rgTo - t) - (rg.rgTo - rg.rgFrom)) rg.rgTo rest
    else account (chg - (rg.rgTo - rg.rgFrom)) t rest

/-- A new region of size zero, if `kmalloc` does not fail. -/
def placeholder (kmalloc : Bool) (l : List FileRegion) (f t : ℤ) :
    Except Errno ℤ × List FileRegion :=
  if kmalloc then (.ok (t - f), before l f ++ ⟨f, f⟩ :: located l f) else (.error .enomem, l)

def regionChg (kmalloc : Bool) (l : List FileRegion) (f t : ℤ) :
    Except Errno ℤ × List FileRegion :=
  match located l f with
  | [] => placeholder kmalloc l f t
  | rg :: rest =>
    if t < rg.rgFrom then placeholder kmalloc l f t
    else
      let f' := if f > rg.rgFrom then rg.rgFrom else f
      (.ok (account (t - f') t (rg :: rest)), l)

end Chg

/-- The loop that drops regions and counts what they covered. -/
def dropAll (chg : ℤ) (l : List FileRegion) : ℤ :=
  l.foldl (fun chg rg => chg + (rg.rgTo - rg.rgFrom)) chg

def regionTruncate (l : List FileRegion) (stop : ℤ) : ℤ × List FileRegion :=
  match located l stop with
  | [] => (0, l)
  | rg :: rest =>
    if stop > rg.rgFrom then
      (dropAll (rg.rgTo - stop) rest, before l stop ++ [⟨rg.rgFrom, stop⟩])
    else (dropAll 0 (rg :: rest), before l stop)

/-- The value of a `long`, or of the difference of two `int`s, in a variable of type `int`. -/
def toInt (x : ℤ) : ℤ := x.bmod (2 ^ 32)

def regionCount (f t : ℤ) (chg : ℤ) : List FileRegion → ℤ
  | [] => chg
  | rg :: rest =>
    if rg.rgTo ≤ f then regionCount f t chg rest
    else if rg.rgFrom ≥ t then chg
    else
      let segFrom := toInt (max rg.rgFrom f)
      let segTo := toInt (min rg.rgTo t)
      regionCount f t (chg + toInt (segTo - segFrom)) rest

end LinuxKernel.Hugetlb
