import Mathlib.Tactic
import LinuxKernel.Base.Errno

/-! # The swap map and its count continuations

One byte of the swap map holds the low digit of a slot's reference count, the
swap-cache flag and a flag that says whether the count goes on. Further digits
sit at the same offset of the continuation pages that hang off the page of the
swap map, in list order. The pages are not cleared when they are attached.
-/

namespace LinuxKernel.Swap

open Function

abbrev Byte := BitVec 8

abbrev ContPage := ℕ → Byte

def pageSize : ℕ := 4096

def swapMapMax : Byte := 0x3e
def swapHasCache : Byte := 0x40
def swapContMax : Byte := 0x7f
def countContinued : Byte := 0x80
def swapMapShmem : Byte := 0xbf

/-- The part of `struct swap_info_struct` that the reference counts use. For
each page of the swap map, `cont` is `none` until the page's private field says
`SWP_CONTINUED`, and is then the list of continuation pages. -/
structure SwapInfo where
  max : ℕ
  pages : ℤ
  swapMap : ℕ → Byte
  cont : ℕ → Option (List ContPage)
  lowestBit : ℕ
  highestBit : ℕ
  inusePages : ℤ
  nrSwapPages : ℤ

namespace SwapInfo

def setMap (si : SwapInfo) (offset : ℕ) (b : Byte) : SwapInfo :=
  { si with swapMap := update si.swapMap offset b }

def setCont (si : SwapInfo) (offset : ℕ) (pages : List ContPage) : SwapInfo :=
  { si with cont := update si.cont (offset / pageSize) (some pages) }

end SwapInfo

def setDigit (off : ℕ) (b : Byte) (map : ContPage) : ContPage := update map off b

/-- The increment branch of `swap_count_continued`: skip the digits that are
full and continued, then carry into the next digit, opening a fresh one when the
last digit is full. `none` is the `BUG_ON` at the end of the list. -/
def incrementing (off : ℕ) (pages : List ContPage) : Option (Bool × List ContPage) :=
  let full := pages.takeWhile fun map => map off = swapContMax ||| countContinued
  match pages.dropWhile fun map => map off = swapContMax ||| countContinued with
  | [] => none
  | map :: rest =>
    if map off = swapContMax then
      match rest with
      | [] => some (false, pages)
      | fresh :: rest =>
        -- init_map: the page was not zeroed when it was attached
        some (true, (full ++ [map]).map (setDigit off countContinued) ++
          setDigit off (0 + 1) fresh :: rest)
    else
      some (true, full.map (setDigit off countContinued) ++ setDigit off (map off + 1) map :: rest)

/-- The walk back to the head after a borrow. The pages come nearest first; the
nearest one takes the flag of the digit borrowed from, all others are continued. -/
def borrowBack (off : ℕ) : Byte → List ContPage → Byte × List ContPage
  | count, [] => (count, [])
  | count, map :: prev =>
    let r := borrowBack off countContinued prev
    (r.1, setDigit off (swapContMax ||| count) map :: r.2)

/-- The decrement branch of `swap_count_continued`. -/
def decrementing (off : ℕ) (pages : List ContPage) : Option (Bool × List ContPage) :=
  let zero := pages.takeWhile fun map => map off = countContinued
  match pages.dropWhile fun map => map off = countContinued with
  | [] => none
  | map :: rest =>
    if map off = 0 then none
    else
      let digit := map off - 1
      let r := borrowBack off (if digit = 0 then 0 else countContinued) zero.reverse
      some (r.1 = countContinued, r.2.reverse ++ setDigit off digit map :: rest)

/-- Carry into, or borrow from, the continuation digits of a slot. The result
is `none` where the source hits a `BUG_ON`. -/
def swapCountContinued (si : SwapInfo) (offset : ℕ) (count : Byte) :
    Option (Bool × SwapInfo) :=
  match si.cont (offset / pageSize) with
  | none => if count &&& countContinued = 0 then some (false, si) else none
  | some pages =>
    let off := offset % pageSize
    if count = swapMapMax then
      match pages with
      | [] => none
      | map :: rest => some (true, si.setCont offset (setDigit off (0 + 1) map :: rest))
    else if count = swapMapMax ||| countContinued then
      (incrementing off pages).map fun r => (r.1, si.setCont offset r.2)
    else if count = countContinued then
      (decrementing off pages).map fun r => (r.1, si.setCont offset r.2)
    else none

/-- `__swap_duplicate` on a slot of one swap device. -/
def swapDuplicate (si : SwapInfo) (offset : ℕ) (usage : Byte) :
    Option (Option Errno × SwapInfo) :=
  if si.max ≤ offset then some (some .einval, si)
  else
    let hasCache := si.swapMap offset &&& swapHasCache
    let count := si.swapMap offset &&& ~~~swapHasCache
    if usage = swapHasCache then
      if hasCache = 0 ∧ count ≠ 0 then
        some (none, si.setMap offset (count ||| swapHasCache))
      else if hasCache ≠ 0 then some (some .eexist, si.setMap offset (count ||| hasCache))
      else some (some .enoent, si.setMap offset (count ||| hasCache))
    else if count ≠ 0 ∨ hasCache ≠ 0 then
      if count &&& ~~~countContinued < swapMapMax then
        some (none, si.setMap offset (count + usage ||| hasCache))
      else if swapMapMax < count &&& ~~~countContinued then
        some (some .einval, si.setMap offset (count ||| hasCache))
      else
        match swapCountContinued si offset count with
        | none => none
        | some (true, si) => some (none, si.setMap offset (countContinued ||| hasCache))
        | some (false, si) => some (some .enomem, si.setMap offset (count ||| hasCache))
    else some (some .enoent, si.setMap offset (count ||| hasCache))

/-- The bookkeeping of `swap_entry_free` for a slot without references. -/
def SwapInfo.release (si : SwapInfo) (offset : ℕ) : SwapInfo :=
  { si with
    lowestBit := if offset < si.lowestBit then offset else si.lowestBit
    highestBit := if si.highestBit < offset then offset else si.highestBit
    nrSwapPages := si.nrSwapPages + 1
    inusePages := si.inusePages - 1 }

/-- The new count of `swap_entry_free`, with the cache flag left out. -/
def freeCount (si : SwapInfo) (offset : ℕ) (count : Byte) : Option (Byte × SwapInfo) :=
  if count = swapMapShmem then some (0, si)
  else if count &&& ~~~countContinued ≤ swapMapMax then
    if count = countContinued then
      (swapCountContinued si offset count).map fun r =>
        (if r.1 then swapMapMax ||| countContinued else swapMapMax, r.2)
    else some (count - 1, si)
  else some (count, si)

/-- `swap_entry_free`: drop one use of a slot and return what is left of it. -/
def swapEntryFree (si : SwapInfo) (offset : ℕ) (usage : Byte) : Option (Byte × SwapInfo) :=
  let hasCache := si.swapMap offset &&& swapHasCache
  let count := si.swapMap offset &&& ~~~swapHasCache
  let finish (count hasCache : Byte) (si : SwapInfo) : Byte × SwapInfo :=
    let usage := count ||| hasCache
    let si := si.setMap offset usage
    (usage, if usage = 0 then si.release offset else si)
  if usage = swapHasCache then
    if hasCache = 0 then none else some (finish count 0 si)
  else (freeCount si offset count).map fun r => finish r.1 hasCache r.2

/-- The end of `scan_swap_map`: take a slot whose map byte is zero. -/
def takeSlot (si : SwapInfo) (offset : ℕ) (usage : Byte) : SwapInfo :=
  let si := { si with
    lowestBit := if offset = si.lowestBit then si.lowestBit + 1 else si.lowestBit
    highestBit := if offset = si.highestBit then si.highestBit - 1 else si.highestBit
    inusePages := si.inusePages + 1 }
  let si :=
    if si.inusePages = si.pages then { si with lowestBit := si.max, highestBit := 0 } else si
  si.setMap offset usage

/-- The walk of `add_swap_count_continuation` over the pages that are there:
whether the slot has used up all of them. -/
def continuationsUsed (off : ℕ) : Byte → List ContPage → Bool
  | _, [] => true
  | count, map :: rest =>
    if count &&& countContinued = 0 then false
    else if map off &&& ~~~countContinued ≠ swapContMax then false
    else continuationsUsed off (map off) rest

/-- `add_swap_count_continuation`, with the page that `alloc_page` returned and
whatever it contains, or `none` when the allocation failed. -/
def addSwapCountContinuation (si : SwapInfo) (offset : ℕ) (page : Option ContPage) :
    Option (Option Errno × SwapInfo) :=
  if si.max ≤ offset ∨ si.swapMap offset = 0 then some (none, si)
  else
    let count := si.swapMap offset &&& ~~~swapHasCache
    if count &&& ~~~countContinued ≠ swapMapMax then some (none, si)
    else
      match page with
      | none => some (some .enomem, si)
      | some page =>
        match si.cont (offset / pageSize) with
        | none =>
          if count &&& countContinued = 0 then some (none, si.setCont offset [page]) else none
        | some pages =>
          if continuationsUsed (offset % pageSize) count pages then
            some (none, si.setCont offset (pages ++ [page]))
          else some (none, si)

end LinuxKernel.Swap
