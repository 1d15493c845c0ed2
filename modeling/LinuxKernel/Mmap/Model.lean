import Mathlib.Data.BitVec
import LinuxKernel.Base.Dlist
import LinuxKernel.Base.Errno
import LinuxKernel.Base.SearchTree

/-! # Address spaces

The areas of an address space (`struct vm_area_struct`) are in a list by address and in a red-black
tree. This is the code of `mm/mmap.c` that finds free ranges, splits and adjusts areas, merges a
range with its neighbours and removes a range. Page tables, the trees of the files, accounting and
locking are left out. An access through a null pointer and a `BUG_ON` have no result.
-/

namespace LinuxKernel.Mmap

open Dlist Function

section Words

def uadd (a b : ℕ) : ℕ := (a + b) % 2 ^ 64

def usub (a b : ℕ) : ℕ := (a + 2 ^ 64 - b) % 2 ^ 64

def pageSize : ℕ := 4096

def pages (x : ℕ) : ℕ := x / pageSize

def pageAlign (x : ℕ) : ℕ := uadd x (pageSize - 1) / pageSize * pageSize

def vmSpecial : BitVec 64 := 0x4000#64 ||| 0x40000#64 ||| 0x80000#64 ||| 0x400#64

def vmHugetlb : BitVec 64 := 0x400000#64

def vmCanNonlinear : BitVec 64 := 0x8000000#64

end Words

section State

/-- `struct vm_area_struct` without the pointers of the list and the tree. `hugePageSize` is the one
of `hstate_vma`, and `closes` says that there is a `close` operation. -/
structure Vma where
  vmStart : ℕ
  vmEnd : ℕ
  vmPgoff : ℕ
  vmFlags : BitVec 64
  vmFile : Option ℕ
  vmPolicy : ℕ
  anonVma : Option ℕ
  anonVmaChain : List ℕ
  closes : Bool
  hugePageSize : ℕ

/-- `struct mm_struct`, with the areas by their addresses. `topdown` says which pair of functions
`get_unmapped_area` and `unmap_area` point to. -/
structure Mm where
  vma : ℕ → Vma
  vmNext : ℕ → Option ℕ
  vmPrev : ℕ → Option ℕ
  mmap : Option ℕ
  mmRb : SearchTree ℕ
  mmapCache : Option ℕ
  mapCount : ℕ
  topdown : Bool
  mmapBase : ℕ
  freeAreaCache : ℕ
  cachedHoleSize : ℕ

structure Arch where
  taskSize : ℕ
  taskUnmappedBase : ℕ
  sysctlMaxMapCount : ℕ

end State

section Find

/-- The search in the tree of `find_vma`. -/
def rbFind (vma : ℕ → Vma) (addr : ℕ) : SearchTree ℕ → Option ℕ
  | .leaf => none
  | .node _ left x right =>
    if (vma x).vmEnd > addr then
      if (vma x).vmStart ≤ addr then some x else (rbFind vma addr left).or (some x)
    else rbFind vma addr right

/-- The area in `mmap_cache`, if it has the address. -/
def cacheHit (mm : Mm) (addr : ℕ) : Option ℕ :=
  mm.mmapCache.filter fun c => (mm.vma c).vmEnd > addr ∧ (mm.vma c).vmStart ≤ addr

def findVma (mm : Mm) (addr : ℕ) : Mm × Option ℕ :=
  match cacheHit mm addr with
  | some c => (mm, some c)
  | none =>
    match rbFind mm.vma addr mm.mmRb with
    | some x => ({ mm with mmapCache := some x }, some x)
    | none => (mm, none)

/-- What `find_vma_prepare` returns: the area, the one before, the place for a new node and the node
above that place. -/
structure Prepared where
  vma : Option ℕ
  prev : Option ℕ
  rbLink : List Side
  rbParent : Option ℕ

def prepareLoop (vma : ℕ → Vma) (addr : ℕ) : SearchTree ℕ → Prepared → Prepared
  | .leaf, p => p
  | .node _ left x right, p =>
    if (vma x).vmEnd > addr then
      if (vma x).vmStart ≤ addr then ⟨some x, p.prev, p.rbLink, some x⟩
      else prepareLoop vma addr left ⟨some x, p.prev, p.rbLink ++ [.left], some x⟩
    else prepareLoop vma addr right ⟨p.vma, some x, p.rbLink ++ [.right], some x⟩

def findVmaPrepare (mm : Mm) (addr : ℕ) : Prepared :=
  prepareLoop mm.vma addr mm.mmRb ⟨none, none, [], none⟩

end Find

section Link

variable (bal : SearchTree.Balance ℕ)

def vmaLinkList (mm : Mm) (vma : ℕ) (prev rbParent : Option ℕ) : Mm :=
  let next := prev.elim rbParent mm.vmNext
  { mm with
    mmap := if prev.isSome then mm.mmap else some vma
    vmNext := update (setAt mm.vmNext prev (some vma)) vma next
    vmPrev := setAt (update mm.vmPrev vma prev) next (some vma) }

def vmaLink (mm : Mm) (vma : ℕ) (p : Prepared) : Mm :=
  let mm := vmaLinkList mm vma p.prev p.rbParent
  { mm with mmRb := bal.insertColor (mm.mmRb.linkAt vma p.rbLink) vma }

def insertVmStruct (mm : Mm) (vma : ℕ) : Option Mm :=
  let p := findVmaPrepare mm (mm.vma vma).vmStart
  if p.vma.any fun x => (mm.vma x).vmStart < (mm.vma vma).vmEnd then none
  else
    let mm := vmaLink bal mm vma p
    some { mm with mapCount := mm.mapCount + 1 }

def vmaUnlink (mm : Mm) (vma prev : ℕ) : Mm :=
  let next := mm.vmNext vma
  { mm with
    vmNext := update mm.vmNext prev next
    vmPrev := setAt mm.vmPrev next (some prev)
    mmRb := bal.erase mm.mmRb vma
    mmapCache := if mm.mmapCache = some vma then some prev else mm.mmapCache }

end Link

section Adjust

variable (bal : SearchTree.Balance ℕ) (clone : ℕ → Bool)

/-- The expanding area gets the `anon_vma` of the shrinking one. `clone` says for an exporter if
`anon_vma_clone` has the memory to copy its chain. -/
def importAnonVma (mm : Mm) (importer exporter : ℕ) : Option Mm :=
  if (mm.vma exporter).anonVma.isSome ∧ (mm.vma importer).anonVma.isNone then
    if clone exporter then
      some { mm with vma := update mm.vma importer { mm.vma importer with
        anonVmaChain := (mm.vma exporter).anonVmaChain ++ (mm.vma importer).anonVmaChain
        anonVma := (mm.vma exporter).anonVma } }
    else none
  else some mm

def setRange (mm : Mm) (vma start stop pgoff : ℕ) : Mm :=
  { mm with vma := update mm.vma vma { mm.vma vma with
    vmStart := start
    vmEnd := stop
    vmPgoff := pgoff } }

/-- The start of the next area moves by a number of pages. -/
def adjustNext (mm : Mm) (next : ℕ) (n : ℤ) : Mm :=
  { mm with vma := update mm.vma next { mm.vma next with
    vmStart := (((mm.vma next).vmStart + n * pageSize) % 2 ^ 64).toNat
    vmPgoff := (((mm.vma next).vmPgoff + n) % 2 ^ 64).toNat } }

/-- One removal of the next area, with the end that `vma` gets by it. -/
def removePass (mm : Mm) (vma start stop pgoff next : ℕ) : Mm :=
  { vmaUnlink bal (setRange mm vma start stop pgoff) next vma with mapCount := mm.mapCount - 1 }

/-- The passes of `vma_adjust` that remove the next area, one for each `again`. -/
def removeNext (vma start pgoff : ℕ) : ℕ → Mm → ℕ → ℕ → Option (Option Errno × Mm)
  | 0, _, _, _ => none
  | fuel + 1, mm, stop, next =>
    let nextEnd := (mm.vma next).vmEnd
    match importAnonVma clone mm vma next with
    | none => some (some .enomem, mm)
    | some mm =>
      let mm := removePass bal mm vma start nextEnd pgoff next
      if stop > nextEnd then
        match mm.vmNext vma with
        | none => none
        | some next => removeNext vma start pgoff fuel mm nextEnd next
      else some (none, mm)

def vmaAdjust (fuel : ℕ) (mm : Mm) (vma start stop pgoff : ℕ) (insert : Option ℕ) :
    Option (Option Errno × Mm) :=
  match insert, mm.vmNext vma with
  | some new, _ => (insertVmStruct bal (setRange mm vma start stop pgoff) new).map (none, ·)
  | none, none => some (none, setRange mm vma start stop pgoff)
  | none, some next =>
    if stop ≥ (mm.vma next).vmEnd then removeNext bal clone vma start pgoff fuel mm stop next
    else if stop > (mm.vma next).vmStart then
      let n : ℤ := pages (usub stop (mm.vma next).vmStart)
      match importAnonVma clone mm vma next with
      | none => some (some .enomem, mm)
      | some mm => some (none, adjustNext (setRange mm vma start stop pgoff) next n)
    else if stop < (mm.vma vma).vmEnd then
      let n : ℤ := -pages (usub (mm.vma vma).vmEnd stop)
      match importAnonVma clone mm next vma with
      | none => some (some .enomem, mm)
      | some mm => some (none, adjustNext (setRange mm vma start stop pgoff) next n)
    else some (none, setRange mm vma start stop pgoff)

end Adjust

section Merge

variable (bal : SearchTree.Balance ℕ) (clone : ℕ → Bool)

def isMergeableVma (vma : Vma) (file : Option ℕ) (vmFlags : BitVec 64) : Bool :=
  if (vma.vmFlags ^^^ vmFlags) &&& ~~~vmCanNonlinear ≠ 0#64 then false
  else if vma.vmFile ≠ file then false
  else if vma.closes then false
  else true

def isMergeableAnonVma (anonVma1 anonVma2 : Option ℕ) (vma : Option Vma) : Bool :=
  if (anonVma1.isNone ∨ anonVma2.isNone) ∧ vma.all (·.anonVmaChain.length = 1) then true
  else anonVma1 = anonVma2

def canVmaMergeBefore (vma : Vma) (vmFlags : BitVec 64) (anonVma file : Option ℕ) (pgoff : ℕ) :
    Bool :=
  isMergeableVma vma file vmFlags && isMergeableAnonVma anonVma vma.anonVma (some vma) &&
    vma.vmPgoff = pgoff

def canVmaMergeAfter (vma : Vma) (vmFlags : BitVec 64) (anonVma file : Option ℕ) (pgoff : ℕ) :
    Bool :=
  isMergeableVma vma file vmFlags && isMergeableAnonVma anonVma vma.anonVma (some vma) &&
    uadd vma.vmPgoff (pages (usub vma.vmEnd vma.vmStart)) = pgoff

structure Request where
  addr : ℕ
  stop : ℕ
  vmFlags : BitVec 64
  anonVma : Option ℕ
  file : Option ℕ
  pgoff : ℕ
  policy : ℕ

/-- The request can be merged with an area before it. -/
def mergesAfter (mm : Mm) (r : Request) (prev : ℕ) : Bool :=
  (mm.vma prev).vmEnd = r.addr && (mm.vma prev).vmPolicy = r.policy &&
    canVmaMergeAfter (mm.vma prev) r.vmFlags r.anonVma r.file r.pgoff

/-- The request can be merged with an area behind it. -/
def mergesBefore (mm : Mm) (r : Request) (next : ℕ) : Bool :=
  r.stop = (mm.vma next).vmStart && r.policy = (mm.vma next).vmPolicy &&
    canVmaMergeBefore (mm.vma next) r.vmFlags r.anonVma r.file
      (uadd r.pgoff (pages (usub r.stop r.addr)))

/-- `vma_merge` returns the area or a null pointer. -/
def mergeResult (vma : ℕ) : Option Errno × Mm → Option ℕ × Mm
  | (none, mm) => (some vma, mm)
  | (some _, mm) => (none, mm)

/-- The second half of `vma_merge`: the request in front of the next area. -/
def mergeWithNext (fuel : ℕ) (mm : Mm) (prev area next : Option ℕ) (r : Request) :
    Option (Option ℕ × Mm) :=
  match area, next.filter (mergesBefore mm r ·) with
  | some area, some next =>
    match prev.filter fun p => r.addr < (mm.vma p).vmEnd with
    | some prev => do
      let v := mm.vma prev
      let res ← vmaAdjust bal clone fuel mm prev v.vmStart r.addr v.vmPgoff none
      return mergeResult area res
    | none => do
      let v := mm.vma next
      let res ← vmaAdjust bal clone fuel mm area r.addr v.vmEnd
        (usub v.vmPgoff (pages (usub r.stop r.addr))) none
      return mergeResult area res
  | _, _ => some (none, mm)

def vmaMerge (fuel : ℕ) (mm : Mm) (prev : Option ℕ) (r : Request) : Option (Option ℕ × Mm) :=
  if r.vmFlags &&& vmSpecial ≠ 0#64 then some (none, mm)
  else
    let area := prev.elim mm.mmap mm.vmNext
    let next := area.elim none fun a => if (mm.vma a).vmEnd = r.stop then mm.vmNext a else some a
    match prev.filter (mergesAfter mm r ·) with
    | some prev => do
      let v := mm.vma prev
      let joins := next.filter fun next => mergesBefore mm r next &&
        isMergeableAnonVma v.anonVma (mm.vma next).anonVma none
      let stop := joins.elim r.stop fun next => (mm.vma next).vmEnd
      let res ← vmaAdjust bal clone fuel mm prev v.vmStart stop v.vmPgoff none
      return mergeResult prev res
    | none => mergeWithNext bal clone fuel mm prev area next r

end Merge

section Search

variable (arch : Arch)

/-- There is room for a range below the area, or there is no area. -/
def fits (mm : Mm) (addr len : ℕ) (vma : Option ℕ) : Bool :=
  vma.all fun v => uadd addr len ≤ (mm.vma v).vmStart

/-- The hole before an area is remembered. -/
def noteHole (mm : Mm) (addr vma : ℕ) : Mm :=
  if uadd addr mm.cachedHoleSize < (mm.vma vma).vmStart then
    { mm with cachedHoleSize := usub (mm.vma vma).vmStart addr }
  else mm

/-- The loop at `full_search` of `arch_get_unmapped_area`. -/
def fullSearch (len : ℕ) : ℕ → Mm → ℕ → ℕ → Option ℕ → Option (Except Errno ℕ × Mm)
  | 0, _, _, _, _ => none
  | fuel + 1, mm, startAddr, addr, vma =>
    if usub arch.taskSize len < addr then
      if startAddr ≠ arch.taskUnmappedBase then
        let (mm, vma) := findVma { mm with cachedHoleSize := 0 } arch.taskUnmappedBase
        fullSearch len fuel mm arch.taskUnmappedBase arch.taskUnmappedBase vma
      else some (.error .enomem, mm)
    else if fits mm addr len vma then some (.ok addr, { mm with freeAreaCache := uadd addr len })
    else
      match vma with
      | none => none
      | some v => fullSearch len fuel (noteHole mm addr v) startAddr (mm.vma v).vmEnd (mm.vmNext v)

/-- The check of the address that was asked for. -/
def tryHint (mm : Mm) (addr len : ℕ) : Mm × Option ℕ :=
  if addr ≠ 0 then
    let addr := pageAlign addr
    let (mm, vma) := findVma mm addr
    (mm, if usub arch.taskSize len ≥ addr ∧ fits mm addr len vma then some addr else none)
  else (mm, none)

def archGetUnmappedArea (fuel : ℕ) (mm : Mm) (addr len : ℕ) (mapFixed : Bool) :
    Option (Except Errno ℕ × Mm) :=
  if len > arch.taskSize then some (.error .enomem, mm)
  else if mapFixed then some (.ok addr, mm)
  else
    match tryHint arch mm addr len with
    | (mm, some addr) => some (.ok addr, mm)
    | (mm, none) =>
      if len > mm.cachedHoleSize then
        let addr := mm.freeAreaCache
        let (mm, vma) := findVma mm addr
        fullSearch arch len fuel mm addr addr vma
      else
        let addr := arch.taskUnmappedBase
        let (mm, vma) := findVma { mm with cachedHoleSize := 0 } addr
        fullSearch arch len fuel mm addr addr vma

def archUnmapArea (mm : Mm) (addr : ℕ) : Mm :=
  if addr ≥ arch.taskUnmappedBase ∧ addr < mm.freeAreaCache then
    { mm with freeAreaCache := addr, cachedHoleSize := 2 ^ 64 - 1 }
  else mm

/-- The loop of `arch_get_unmapped_area_topdown`. Without an address it goes on at `bottomup`. -/
def topdownLoop (len : ℕ) : ℕ → Mm → ℕ → Option (Option ℕ × Mm)
  | 0, _, _ => none
  | fuel + 1, mm, addr =>
    let (mm, vma) := findVma mm addr
    if fits mm addr len vma then some (some addr, { mm with freeAreaCache := addr })
    else
      match vma with
      | none => none
      | some v =>
        let mm := noteHole mm addr v
        if len < (mm.vma v).vmStart then topdownLoop len fuel mm (usub (mm.vma v).vmStart len)
        else some (none, mm)

/-- The part of `arch_get_unmapped_area_topdown` at `bottomup`. -/
def bottomup (fuel : ℕ) (mm : Mm) (addr len : ℕ) (mapFixed : Bool) :
    Option (Except Errno ℕ × Mm) := do
  let mm := { mm with cachedHoleSize := 2 ^ 64 - 1, freeAreaCache := arch.taskUnmappedBase }
  let (res, mm) ← archGetUnmappedArea arch fuel mm addr len mapFixed
  return (res, { mm with freeAreaCache := mm.mmapBase, cachedHoleSize := 2 ^ 64 - 1 })

/-- The hint `free_area_cache` of the search from above. -/
def tryCache (mm : Mm) (len : ℕ) : Mm × Option ℕ :=
  let mm := if len ≤ mm.cachedHoleSize then
    { mm with cachedHoleSize := 0, freeAreaCache := mm.mmapBase } else mm
  let addr := mm.freeAreaCache
  if addr > len then
    let (mm, vma) := findVma mm (addr - len)
    if vma.all fun v => addr ≤ (mm.vma v).vmStart then
      ({ mm with freeAreaCache := addr - len }, some (addr - len))
    else (mm, none)
  else (mm, none)

def archGetUnmappedAreaTopdown (fuel : ℕ) (mm : Mm) (addr len : ℕ) (mapFixed : Bool) :
    Option (Except Errno ℕ × Mm) :=
  if len > arch.taskSize then some (.error .enomem, mm)
  else if mapFixed then some (.ok addr, mm)
  else
    match tryHint arch mm addr len with
    | (mm, some addr) => some (.ok addr, mm)
    | (mm, none) =>
      match tryCache mm len with
      | (mm, some addr) => some (.ok addr, mm)
      | (mm, none) =>
        if mm.mmapBase < len then bottomup arch fuel mm addr len mapFixed
        else do
          match ← topdownLoop len fuel mm (mm.mmapBase - len) with
          | (some addr, mm) => return (.ok addr, mm)
          | (none, mm) => bottomup arch fuel mm addr len mapFixed

def archUnmapAreaTopdown (mm : Mm) (addr : ℕ) : Mm :=
  let mm := if addr > mm.freeAreaCache then { mm with freeAreaCache := addr } else mm
  if mm.freeAreaCache > mm.mmapBase then { mm with freeAreaCache := mm.mmapBase } else mm

end Search

section Munmap

variable (bal : SearchTree.Balance ℕ) (arch : Arch)

/-- The memory that a split asks for: the address of the new area, the copy of the policy and the
copy of the anon_vma chain. -/
structure Alloc where
  new : Option ℕ
  mpol : Bool
  anonVma : Bool

def splitVma (mm : Mm) (vma addr : ℕ) (newBelow : Bool) (a : Alloc) : Option (Option Errno × Mm) :=
  let v := mm.vma vma
  if v.vmFlags &&& vmHugetlb ≠ 0#64 ∧ addr % v.hugePageSize ≠ 0 then some (some .einval, mm)
  else
    match a.new with
    | none => some (some .enomem, mm)
    | some new =>
      if a.mpol = false ∨ a.anonVma = false then some (some .enomem, mm)
      else
        let n := if newBelow then { v with vmEnd := addr } else
          { v with vmStart := addr, vmPgoff := uadd v.vmPgoff (pages (usub addr v.vmStart)) }
        let mm := { mm with vma := update mm.vma new n }
        if newBelow then
          vmaAdjust bal (fun _ => a.anonVma) 0 mm vma addr v.vmEnd
            (uadd v.vmPgoff (pages (usub addr n.vmStart))) (some new)
        else vmaAdjust bal (fun _ => a.anonVma) 0 mm vma v.vmStart addr v.vmPgoff (some new)

/-- The loop of `detach_vmas_to_be_unmapped`. It gives the last area that is detached and the area
behind it. There are no more steps than areas. -/
def detachLoop (stop : ℕ) : ℕ → Mm → ℕ → Option (Option ℕ × Mm)
  | 0, _, _ => none
  | count + 1, mm, vma =>
    let mm := { mm with mmRb := bal.erase mm.mmRb vma, mapCount := count }
    match mm.vmNext vma with
    | none => some (none, { mm with vmNext := update mm.vmNext vma none })
    | some next =>
      if (mm.vma next).vmStart < stop then detachLoop stop count mm next
      else some (some next, { mm with vmNext := update mm.vmNext vma none })

/-- The call of `unmap_area`, with the areas around the hole. -/
def unmapArea (mm : Mm) (prev next : Option ℕ) : Mm :=
  if mm.topdown then
    archUnmapAreaTopdown mm (next.elim mm.mmapBase fun x => (mm.vma x).vmStart)
  else archUnmapArea arch mm (prev.elim mm.mmapBase fun x => (mm.vma x).vmEnd)

def detachVmasToBeUnmapped (mm : Mm) (vma : ℕ) (prev : Option ℕ) (stop : ℕ) : Option Mm := do
  let mm := { mm with vmPrev := update mm.vmPrev vma none }
  let (next, mm) ← detachLoop bal stop mm.mapCount mm vma
  let mm := { mm with
    mmap := if prev.isSome then mm.mmap else next
    vmNext := setAt mm.vmNext prev next
    vmPrev := setAt mm.vmPrev next prev }
  return { unmapArea arch mm prev next with mmapCache := none }

/-- The removal of the areas behind `prev` up to the end of the range. -/
def unmapAreas (mm : Mm) (prev : Option ℕ) (stop : ℕ) : Option (Option Errno × Mm) := do
  let vma ← prev.elim mm.mmap mm.vmNext
  let mm ← detachVmasToBeUnmapped bal arch mm vma prev stop
  return (none, mm)

/-- The split of the last area of the range and the removal. -/
def munmapRest (mm : Mm) (prev : Option ℕ) (stop : ℕ) (second : Alloc) :
    Option (Option Errno × Mm) :=
  let (mm, last) := findVma mm stop
  match last.filter fun x => stop > (mm.vma x).vmStart with
  | none => unmapAreas bal arch mm prev stop
  | some x => do
    match ← splitVma bal mm x stop true second with
    | (some e, mm) => return (some e, mm)
    | (none, mm) => unmapAreas bal arch mm prev stop

/-- The part of `do_munmap` that starts with the first area of the range. -/
def munmapFrom (mm : Mm) (vma start stop : ℕ) (first second : Alloc) :
    Option (Option Errno × Mm) :=
  if start > (mm.vma vma).vmStart then
    if stop < (mm.vma vma).vmEnd ∧ mm.mapCount ≥ arch.sysctlMaxMapCount then
      some (some .enomem, mm)
    else do
      match ← splitVma bal mm vma start false first with
      | (some e, mm) => return (some e, mm)
      | (none, mm) => munmapRest bal arch mm (some vma) stop second
  else munmapRest bal arch mm (mm.vmPrev vma) stop second

def doMunmap (mm : Mm) (start len : ℕ) (first second : Alloc) : Option (Option Errno × Mm) :=
  if start % pageSize ≠ 0 ∨ start > arch.taskSize ∨ len > arch.taskSize - start then
    some (some .einval, mm)
  else if pageAlign len = 0 then some (some .einval, mm)
  else
    let stop := uadd start (pageAlign len)
    match findVma mm start with
    | (mm, none) => some (none, mm)
    | (mm, some vma) =>
      if (mm.vma vma).vmStart ≥ stop then some (none, mm)
      else munmapFrom bal arch mm vma start stop first second

end Munmap

end LinuxKernel.Mmap
