import LinuxKernel.Base.Bitmap
import LinuxKernel.Base.Errno

/-! # Replay detection of IPsec

The three ways in which `xfrm_replay.c` detects packets that were received before: the old one
with a bitmap of a single word, the one with a bitmap of any size, and the one with sequence
numbers of 64 bits, of which packets only carry the low half. In `xfrm_input` a packet is checked,
authenticated and then marked as received. With asynchronous crypto other packets come in between.

Numbers in host byte order are words. A window of up to 255 packets may be set for the bitmap of
one word; where the source then shifts a word by 32 or more, the result is that of the x86
instruction, which only looks at the low five bits of the count.
-/

namespace LinuxKernel.Xfrm

open Bitmap

section Legacy

structure ReplayState where
  seq : BitVec 32
  bitmap : BitVec 32
  deriving DecidableEq, Repr

/-- The shift of a word as x86 does it. -/
def shl (x count : BitVec 32) : BitVec 32 := x <<< (count.toNat % 32)

def xfrmReplayCheck (replayWindow : BitVec 8) (replay : ReplayState) (seq : BitVec 32) :
    Option Errno :=
  if replayWindow = 0 then none
  else if seq = 0 then some .einval
  else if seq > replay.seq then none
  else
    let diff := replay.seq - seq
    if diff.toNat ≥ min replayWindow.toNat 32 then some .einval
    else if replay.bitmap &&& shl 1 diff ≠ 0 then some .einval
    else none

def xfrmReplayAdvance (replayWindow : BitVec 8) (replay : ReplayState) (seq : BitVec 32) :
    ReplayState :=
  if replayWindow = 0 then replay
  else if seq > replay.seq then
    let diff := seq - replay.seq
    if diff.toNat < replayWindow.toNat then ⟨seq, shl replay.bitmap diff ||| 1⟩
    else ⟨seq, 1⟩
  else
    let diff := replay.seq - seq
    { replay with bitmap := replay.bitmap ||| shl 1 diff }

end Legacy

section Bmp

/-- `struct xfrm_replay_state_esn`, for received packets; `bmp_len` is the length of `bmp`. -/
structure ReplayStateEsn where
  seq : BitVec 32
  seqHi : BitVec 32
  replayWindow : BitVec 32
  bmp : List (BitVec 32)
  deriving DecidableEq, Repr

variable (replayEsn : ReplayStateEsn) (seq : BitVec 32)

def topBit : BitVec 32 := (replayEsn.seq - 1) % replayEsn.replayWindow

/-- The bit of a number below the highest one. -/
def bitBehind (diff : BitVec 32) : BitVec 32 :=
  let pos := topBit replayEsn
  if pos ≥ diff then (pos - diff) % replayEsn.replayWindow
  else replayEsn.replayWindow - (diff - pos)

/-- The bit of a number above the highest one. -/
def bitAhead (diff : BitVec 32) : BitVec 32 := (topBit replayEsn + diff) % replayEsn.replayWindow

/-- Clear the bits of all numbers between the highest one and a new one. -/
def clearAhead (diff : BitVec 32) : List (BitVec 32) :=
  (List.range' 1 (diff.toNat - 1)).foldl
    (fun bmp i => clearBit bmp (bitAhead replayEsn (.ofNat 32 i)).toNat) replayEsn.bmp

/-- Clear all words with bits of the window. -/
def clearAll : List (BitVec 32) :=
  let nr := (replayEsn.replayWindow - 1) >>> 5
  (List.range (nr.toNat + 1)).foldl (fun bmp i => bmp.set i 0) replayEsn.bmp

def xfrmReplayCheckBmp : Option Errno :=
  let diff := replayEsn.seq - seq
  if replayEsn.replayWindow = 0 then none
  else if seq = 0 then some .einval
  else if seq > replayEsn.seq then none
  else if diff ≥ replayEsn.replayWindow then some .einval
  else if testBit replayEsn.bmp (bitBehind replayEsn diff).toNat then some .einval
  else none

/-- The part of the advance functions for a number that is a new highest one. -/
def advanceTop (diff : BitVec 32) : ReplayStateEsn :=
  let bmp := if diff < replayEsn.replayWindow then clearAhead replayEsn diff
    else clearAll replayEsn
  { replayEsn with seq := seq, bmp := setBit bmp (bitAhead replayEsn diff).toNat }

/-- The part of the advance functions for a number in the window. -/
def advanceBehind : ReplayStateEsn :=
  let diff := replayEsn.seq - seq
  { replayEsn with bmp := setBit replayEsn.bmp (bitBehind replayEsn diff).toNat }

def xfrmReplayAdvanceBmp : ReplayStateEsn :=
  if replayEsn.replayWindow = 0 then replayEsn
  else if seq > replayEsn.seq then advanceTop replayEsn seq (seq - replayEsn.seq)
  else advanceBehind replayEsn seq

end Bmp

section Esn

variable (replayEsn : ReplayStateEsn) (seq : BitVec 32)

def bottom : BitVec 32 := replayEsn.seq - replayEsn.replayWindow + 1

/-- The high half of a number, for a state with `XFRM_STATE_ESN`. -/
def xfrmReplaySeqhi : BitVec 32 :=
  if replayEsn.seq ≥ replayEsn.replayWindow - 1 then
    -- same subspace
    if seq < bottom replayEsn then replayEsn.seqHi + 1 else replayEsn.seqHi
  else
    -- window spans two subspaces
    if seq ≥ bottom replayEsn then replayEsn.seqHi - 1 else replayEsn.seqHi

def checkWindow (diff : BitVec 32) : Option Errno :=
  if diff ≥ replayEsn.replayWindow then some .einval
  else if testBit replayEsn.bmp (bitBehind replayEsn diff).toNat then some .einval
  else none

def xfrmReplayCheckEsn : Option Errno :=
  let wsize := replayEsn.replayWindow
  let top := replayEsn.seq
  let bottom := bottom replayEsn
  if wsize = 0 then none
  else if seq = 0 ∧ replayEsn.seqHi = 0 ∧ replayEsn.seq < replayEsn.replayWindow - 1 then
    some .einval
  else
    let diff := top - seq
    if top ≥ wsize - 1 then
      -- same subspace
      if seq > top ∨ seq < bottom then none else checkWindow replayEsn diff
    else
      -- window spans two subspaces
      if seq > top ∧ seq < bottom then none
      else checkWindow replayEsn (if seq ≥ bottom then ~~~seq + top + 1 else diff)

def xfrmReplayAdvanceEsn : ReplayStateEsn :=
  if replayEsn.replayWindow = 0 then replayEsn
  else
    let wrap := (xfrmReplaySeqhi replayEsn seq - replayEsn.seqHi).toInt
    if (wrap = 0 ∧ seq > replayEsn.seq) ∨ wrap > 0 then
      let diff := if wrap = 0 then seq - replayEsn.seq else ~~~replayEsn.seq + seq + 1
      let replayEsn := advanceTop replayEsn seq diff
      if wrap > 0 then { replayEsn with seqHi := replayEsn.seqHi + 1 } else replayEsn
    else advanceBehind replayEsn seq

end Esn

section Input

variable {σ ν : Type*}

/-- What happens to a packet in `xfrm_input`: if it passes the check, it is marked as received.
The accepted numbers are kept in a list, the last one first. -/
def receive (check : σ → ν → Option Errno) (advance : σ → ν → σ) (s : σ × List ν) (seq : ν) :
    σ × List ν :=
  if check s.1 seq = none then (advance s.1 seq, seq :: s.2) else s

def receiveAll (check : σ → ν → Option Errno) (advance : σ → ν → σ) (s : σ) (seqs : List ν) :
    σ × List ν :=
  seqs.foldl (receive check advance) (s, [])

/-- The check of a packet with a number of 64 bits, and its authentication, which fails unless
the high half of the number is found again. -/
def checkAuthEsn (replayEsn : ReplayStateEsn) (seq : BitVec 64) : Option Errno :=
  match xfrmReplayCheckEsn replayEsn (seq.setWidth 32) with
  | some e => some e
  | none =>
    if xfrmReplaySeqhi replayEsn (seq.setWidth 32) = (seq >>> 32).setWidth 32 then none
    else some .ebadmsg

def advanceEsn (replayEsn : ReplayStateEsn) (seq : BitVec 64) : ReplayStateEsn :=
  xfrmReplayAdvanceEsn replayEsn (seq.setWidth 32)

/-- A packet whose crypto has not been done yet: what `XFRM_SKB_CB` remembers of it. -/
structure Pending where
  low : BitVec 32
  hi : BitVec 32
  deriving DecidableEq, Repr

/-- The state of a receiver with asynchronous crypto. `advanced` are the numbers with which
`advance` was called. -/
structure AsyncState where
  replayEsn : ReplayStateEsn
  pending : List Pending
  advanced : List Pending
  deriving DecidableEq, Repr

/-- `xfrm_input` for a packet that comes in. -/
def asyncReceive (s : AsyncState) (seq : BitVec 32) : AsyncState :=
  if xfrmReplayCheckEsn s.replayEsn seq = none then
    { s with pending := ⟨seq, xfrmReplaySeqhi s.replayEsn seq⟩ :: s.pending }
  else s

/-- `xfrm_input` for a packet that was authenticated. -/
def asyncResume (s : AsyncState) (p : Pending) : AsyncState :=
  let s := { s with pending := s.pending.erase p }
  if xfrmReplayCheckEsn s.replayEsn p.low = none then
    { s with replayEsn := xfrmReplayAdvanceEsn s.replayEsn p.low, advanced := p :: s.advanced }
  else s

end Input

end LinuxKernel.Xfrm
