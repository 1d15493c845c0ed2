import Mathlib.Algebra.Group.Nat.Defs
import Mathlib.Logic.Function.Basic
import LinuxKernel.Base.Errno

/-! # The tree of resources

Resources are nodes of a tree, linked by pointers to the first child, the next sibling and the
parent. Requesting a resource links it into the children of a node, and inserting one may make it
the parent of some that were there. Every field of the nodes is a function of their addresses. A
loop that follows pointers has fuel: it gives `none` if that is not enough.
-/

namespace LinuxKernel.Resource

structure Heap where
  start : ℕ → ℕ
  stop : ℕ → ℕ
  parent : ℕ → Option ℕ
  sibling : ℕ → Option ℕ
  child : ℕ → Option ℕ

/-- What a `struct resource **` points to. -/
inductive Place where
  | child (p : ℕ)
  | sibling (p : ℕ)

namespace Heap

open Function

def read (h : Heap) : Place → Option ℕ
  | .child p => h.child p
  | .sibling p => h.sibling p

def write (h : Heap) (v : Option ℕ) : Place → Heap
  | .child p => { h with child := update h.child p v }
  | .sibling p => { h with sibling := update h.sibling p v }

def setParent (h : Heap) (p : ℕ) (v : Option ℕ) : Heap := { h with parent := update h.parent p v }

def setSibling (h : Heap) (p : ℕ) (v : Option ℕ) : Heap :=
  { h with sibling := update h.sibling p v }

def setChild (h : Heap) (p : ℕ) (v : Option ℕ) : Heap := { h with child := update h.child p v }

def setRange (h : Heap) (p start stop : ℕ) : Heap :=
  { h with start := update h.start p start, stop := update h.stop p stop }

end Heap

section Request

/-- The loop over the children. The result is the conflict, if there is one. -/
def requestLoop (h : Heap) (root new : ℕ) : ℕ → Place → Option (Option ℕ × Heap)
  | 0, _ => none
  | fuel + 1, p =>
    let link := fun tmp : Option ℕ =>
      some (none, ((h.setSibling new tmp).write (some new) p).setParent new (some root))
    match h.read p with
    | none => link none
    | some tmp =>
      if h.start tmp > h.stop new then link (some tmp)
      else if h.stop tmp < h.start new then requestLoop h root new fuel (.sibling tmp)
      else some (some tmp, h)

def requestResource (fuel : ℕ) (h : Heap) (root new : ℕ) : Option (Option ℕ × Heap) :=
  if h.stop new < h.start new then some (some root, h)
  else if h.start new < h.start root then some (some root, h)
  else if h.stop new > h.stop root then some (some root, h)
  else requestLoop h root new fuel (.child root)

end Request

section Release

def releaseLoop (h : Heap) (old : ℕ) : ℕ → Place → Option (Option Errno × Heap)
  | 0, _ => none
  | fuel + 1, p =>
    match h.read p with
    | none => some (some .einval, h)
    | some tmp =>
      if tmp = old then some (none, (h.write (h.sibling tmp) p).setParent old none)
      else releaseLoop h old fuel (.sibling tmp)

/-- `__release_resource`. There is no parent to follow for the root. -/
def releaseResource (fuel : ℕ) (h : Heap) (old : ℕ) : Option (Option Errno × Heap) :=
  match h.parent old with
  | none => none
  | some parent => releaseLoop h old fuel (.child parent)

end Release

section Insert

/-- The loop over the children that overlap: the one that is not inside, or else the last one. -/
def enclosed (h : Heap) (new : ℕ) : ℕ → ℕ → Option (Except ℕ ℕ)
  | 0, _ => none
  | fuel + 1, next =>
    if h.start next < h.start new ∨ h.stop next > h.stop new then some (.error next)
    else match h.sibling next with
      | none => some (.ok next)
      | some sib => if h.start sib > h.stop new then some (.ok next) else enclosed h new fuel sib

def reparent (new : ℕ) : ℕ → Option ℕ → Heap → Option Heap
  | _, none, h => some h
  | 0, some _, _ => none
  | fuel + 1, some next, h => reparent new fuel (h.sibling next) (h.setParent next (some new))

/-- The loop that looks for the node before another one. -/
def previous (h : Heap) (first : ℕ) : ℕ → ℕ → Option ℕ
  | 0, _ => none
  | fuel + 1, next =>
    if h.sibling next = some first then some next
    else match h.sibling next with
      | none => none
      | some sib => previous h first fuel sib

/-- The nodes from `first` to `next` become the children of a new one. -/
def adopt (fuel : ℕ) (h : Heap) (parent new first next : ℕ) : Option Heap := do
  let h := h.setParent new (some parent)
  let h := h.setSibling new (h.sibling next)
  let h := h.setChild new (some first)
  let h := h.setSibling next none
  let h ← reparent new fuel (some first) h
  if h.child parent = some first then some (h.setChild parent (some new))
  else
    let head ← h.child parent
    let prev ← previous h first fuel head
    some (h.setSibling prev (some new))

/-- The loop that goes down to the node under which the resource belongs. -/
def insertLoop (fuel : ℕ) (h : Heap) (new : ℕ) : ℕ → ℕ → Option (Option ℕ × Heap)
  | 0, _ => none
  | n + 1, parent =>
    (requestResource fuel h parent new).bind fun
    | (none, h) => some (none, h)
    | (some first, h) =>
      if first = parent ∨ first = new then some (some first, h)
      else if (h.start first > h.start new ∨ h.stop first < h.stop new) ∨
          (h.start first = h.start new ∧ h.stop first = h.stop new) then
        (enclosed h new fuel first).bind fun
        | .error next => some (some next, h)
        | .ok next => (adopt fuel h parent new first next).map fun h => (none, h)
      else insertLoop fuel h new n first

def insertResource (fuel : ℕ) (h : Heap) (parent new : ℕ) : Option (Option ℕ × Heap) :=
  insertLoop fuel h new fuel parent

/-- The loop that expands a resource to cover what it conflicts with. -/
def expandLoop (fuel : ℕ) (root new : ℕ) : ℕ → Heap → Option Heap
  | 0, _ => none
  | n + 1, h =>
    (insertResource fuel h root new).bind fun
    | (none, h) => some h
    | (some conflict, h) =>
      if conflict = root then some h
      else
        let start := if h.start conflict < h.start new then h.start conflict else h.start new
        let stop := if h.stop conflict > h.stop new then h.stop conflict else h.stop new
        expandLoop fuel root new n (h.setRange new start stop)

def insertResourceExpandToFit (fuel : ℕ) (h : Heap) (root new : ℕ) : Option Heap :=
  if (h.parent new).isSome then some h else expandLoop fuel root new fuel h

end Insert

section Adjust

/-- The loop that checks that the children are inside. -/
def childrenFit (h : Heap) (start stop : ℕ) : ℕ → Option ℕ → Option Bool
  | _, none => some true
  | 0, some _ => none
  | fuel + 1, some tmp =>
    if h.start tmp < start ∨ h.stop tmp > stop then some false
    else childrenFit h start stop fuel (h.sibling tmp)

/-- Sizes are 64 bits wide. There is no parent to look at for the root. -/
def adjustResource (fuel : ℕ) (h : Heap) (res start size : ℕ) : Option (Option Errno × Heap) := do
  let stop := (start + size + 2 ^ 64 - 1) % 2 ^ 64
  let parent ← h.parent res
  if start < h.start parent ∨ stop > h.stop parent then some (some .ebusy, h)
  else
    let fit ← childrenFit h start stop fuel (h.child res)
    if !fit then some (some .ebusy, h)
    else if (h.sibling res).any (h.start · ≤ stop) then some (some .ebusy, h)
    else
      let tmp ← h.child parent
      if tmp = res then some (none, h.setRange res start stop)
      else
        let prev ← previous h res fuel tmp
        if start ≤ h.stop prev then some (some .ebusy, h)
        else some (none, h.setRange res start stop)

end Adjust

end LinuxKernel.Resource
