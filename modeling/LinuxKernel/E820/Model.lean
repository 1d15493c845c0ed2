import Mathlib.Algebra.Group.Nat.Defs
import Mathlib.Order.Bounds.Defs
import LinuxKernel.Base.Bubble

/-! # The memory map of the firmware

`sanitize_e820_map` turns a list of memory ranges, in any order and with overlaps, into one that is
sorted and has for each address the highest type of the ranges around it. It sorts the addresses
where a range starts or ends, and walks over them with the list of the ranges it is in.
-/

namespace LinuxKernel.E820

open Function

structure E820Entry where
  addr : ℕ
  size : ℕ
  type : ℕ
  deriving DecidableEq

abbrev Map := ℕ → E820Entry

structure ChangeMember where
  pbios : ℕ
  addr : ℕ
  deriving DecidableEq

section ChangePoints

variable (biosmap : Map)

/-- The points where the entries that are not empty start and end. -/
def changePoints (oldNr : ℕ) : List ChangeMember :=
  (List.range oldNr).flatMap fun i =>
    if (biosmap i).size ≠ 0 then
      [⟨i, (biosmap i).addr⟩, ⟨i, ((biosmap i).addr + (biosmap i).size) % 2 ^ 64⟩]
    else []

/-- The condition for a swap of two neighbours. -/
def swapped (cur last : ChangeMember) : Bool :=
  cur.addr < last.addr ∨ cur.addr = last.addr ∧ cur.addr = (biosmap cur.pbios).addr ∧
    last.addr ≠ (biosmap last.pbios).addr

theorem swapped_asymm (a b : ChangeMember) (h : swapped biosmap a b) :
    swapped biosmap b a = false := by
  simp only [swapped, decide_eq_true_eq, decide_eq_false_iff_not] at h ⊢
  omega

def sortedPoints (oldNr : ℕ) : List ChangeMember :=
  Bubble.sort (swapped biosmap) (swapped_asymm biosmap) (changePoints biosmap oldNr)

end ChangePoints

section Sweep

/-- The overlap list without an entry: the last one takes its place. -/
def removeOverlap (overlap : List ℕ) (pbios : ℕ) : List ℕ :=
  (overlap.map fun i => if i = pbios then overlap.getLastD 0 else i).dropLast

/-- The highest type in the overlap list. -/
def currentType (biosmap : Map) (overlap : List ℕ) : ℕ :=
  overlap.foldl
    (fun current i => if (biosmap i).type > current then (biosmap i).type else current) 0

structure Sweep where
  overlap : List ℕ
  newBios : Map
  newEntry : ℕ
  lastType : ℕ
  lastAddr : ℕ

/-- The entry that is being built gets its size, and the next one is begun unless it is empty. -/
def closeEntry (s : Sweep) (addr : ℕ) : Sweep :=
  if s.lastType ≠ 0 then
    { s with
      newBios := update s.newBios s.newEntry
        { s.newBios s.newEntry with size := addr - s.lastAddr }
      newEntry := if addr - s.lastAddr ≠ 0 then s.newEntry + 1 else s.newEntry }
  else s

def openEntry (s : Sweep) (addr current : ℕ) : Sweep :=
  if current ≠ 0 then
    { s with
      newBios := update s.newBios s.newEntry
        { s.newBios s.newEntry with addr := addr, type := current }
      lastAddr := addr
      lastType := current }
  else { s with lastType := current }

/-- The loop over the change points. The arrays of the source have `xMax` entries for each range,
and the result is `none` if an access goes beyond one of them. -/
def sweep (xMax maxNrMap : ℕ) (biosmap : Map) : List ChangeMember → Sweep → Option Sweep
  | [], s => some s
  | point :: rest, s =>
    let start := point.addr = (biosmap point.pbios).addr
    if start ∧ s.overlap.length ≥ xMax then none
    else
      let overlap :=
        if start then s.overlap ++ [point.pbios] else removeOverlap s.overlap point.pbios
      let s := { s with overlap := overlap }
      let current := currentType biosmap overlap
      if current = s.lastType then sweep xMax maxNrMap biosmap rest s
      else
        let t := closeEntry s point.addr
        if t.newEntry ≠ s.newEntry ∧ t.newEntry ≥ maxNrMap then some t
        else if current ≠ 0 ∧ t.newEntry ≥ xMax then none
        else sweep xMax maxNrMap biosmap rest (openEntry t point.addr current)

end Sweep

/-- `sanitize_e820_map` with arrays for `xMax` entries, of which `newBios` holds what was there
before. The result has the return value, the map and the number of its entries. It is `none` if
`BUG_ON` stops the call or an access goes beyond an array. -/
def sanitizeE820Map (xMax : ℕ) (newBios biosmap : Map) (maxNrMap pnrMap : ℕ) :
    Option (ℤ × Map × ℕ) :=
  if pnrMap < 2 then some (-1, biosmap, pnrMap)
  else if pnrMap > maxNrMap then none
  else if ∃ i < pnrMap, ((biosmap i).addr + (biosmap i).size) % 2 ^ 64 < (biosmap i).addr then
    some (-1, biosmap, pnrMap)
  else if pnrMap > xMax then none
  else
    (sweep xMax maxNrMap biosmap (sortedPoints biosmap pnrMap) ⟨[], newBios, 0, 0, 0⟩).map fun s =>
      (0, fun i => if i < s.newEntry then s.newBios i else biosmap i, s.newEntry)

section Purpose

def E820Entry.Covers (e : E820Entry) (x : ℕ) : Prop := e.addr ≤ x ∧ x < e.addr + e.size

def types (biosmap : Map) (nr x : ℕ) : Set ℕ :=
  {t | ∃ i < nr, (biosmap i).Covers x ∧ (biosmap i).type = t}

/-- What the map is for: its entries are in order, without overlaps and none is empty or could be
joined with the next one, and each address has the highest type that the entries around it had. -/
structure Sanitized (biosmap : Map) (nr : ℕ) (newmap : Map) (newNr : ℕ) : Prop where
  nonempty : ∀ i < newNr, (newmap i).size ≠ 0
  sorted : ∀ j < newNr, ∀ i < j, (newmap i).addr + (newmap i).size ≤ (newmap j).addr
  apart : ∀ i, i + 1 < newNr → (newmap i).addr + (newmap i).size = (newmap (i + 1)).addr →
    (newmap i).type ≠ (newmap (i + 1)).type
  type_iff : ∀ x t, t ∈ types newmap newNr x ↔ IsGreatest (types biosmap nr x) t

end Purpose

end LinuxKernel.E820
