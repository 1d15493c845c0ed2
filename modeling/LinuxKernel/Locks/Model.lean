import Mathlib.Algebra.Group.Int.Defs
import Mathlib.Order.Basic
import LinuxKernel.Base.Errno

/-! # POSIX record locks

The locks of an inode are on one list, with the POSIX locks of each owner next to each other and
sorted. `__posix_lock_file` edits the list in place: it merges, replaces, trims, splits and
deletes the locks of the requester. A request that conflicts with a lock of another owner may
wait for that lock, unless the waiting owners would then form a circle.
-/

namespace LinuxKernel.Locks

def offsetMax : ℤ := 2 ^ 63 - 1

def maxDeadlkIterations : ℕ := 10

inductive LockType where
  | rdlck
  | wrlck
  | unlck
  deriving DecidableEq, Repr

/-- A `struct file_lock`. `id` stands for its address, `flOwner` for all that
`posix_same_owner` compares, and the flags are those of `fl_flags`. -/
structure FileLock (ω : Type*) where
  id : ℕ
  flOwner : ω
  flPosix : Bool
  flAccess : Bool
  flSleep : Bool
  flExists : Bool
  flType : LockType
  flStart : ℤ
  flEnd : ℤ
  deriving DecidableEq, Repr

/-- A blocked request on `blocked_list`. `flNext` is the address of its blocker, which is on the
list of `inode`. -/
structure Waiter (ω : Type*) where
  request : FileLock ω
  inode : ℕ
  flNext : ℕ
  deriving DecidableEq, Repr

/-- The lock list of every inode, and the blocked requests with the last one first. -/
structure State (ω : Type*) where
  iFlock : ℕ → List (FileLock ω)
  blocked : List (Waiter ω)

inductive Reply where
  | ok
  | deferred
  | error (e : Errno)
  deriving DecidableEq, Repr

variable {ω : Type*} [DecidableEq ω]

section Conflict

def locksOverlap (fl₁ fl₂ : FileLock ω) : Bool :=
  fl₁.flEnd ≥ fl₂.flStart && fl₂.flEnd ≥ fl₁.flStart

def posixSameOwner (fl₁ fl₂ : FileLock ω) : Bool := fl₁.flOwner = fl₂.flOwner

def locksConflict (caller sys : FileLock ω) : Bool :=
  if sys.flType = .wrlck then true
  else if caller.flType = .wrlck then true
  else false

def posixLocksConflict (caller sys : FileLock ω) : Bool :=
  if !sys.flPosix || posixSameOwner caller sys then false
  else if !locksOverlap caller sys then false
  else locksConflict caller sys

end Conflict

section Block

def locksInsertBlock (s : State ω) (inode : ℕ) (blocker request : FileLock ω) : State ω :=
  { s with blocked := ⟨request, inode, blocker.id⟩ :: s.blocked }

def locksDeleteBlock (s : State ω) (waiter : ℕ) : State ω :=
  { s with blocked := s.blocked.filter (·.request.id ≠ waiter) }

/-- Wake up all that wait for one of the locks. -/
def locksWakeUpBlocks (s : State ω) (blockers : List ℕ) : State ω :=
  { s with blocked := s.blocked.filter (·.flNext ∉ blockers) }

def whatOwnerIsWaitingFor (s : State ω) (block : FileLock ω) : Option (FileLock ω) :=
  match s.blocked.find? fun w => posixSameOwner w.request block with
  | none => none
  | some w => (s.iFlock w.inode).find? (·.id = w.flNext)

/-- The loop of `posix_locks_deadlock`, for at most `fuel` rounds. -/
def deadlockLoop (s : State ω) (caller : FileLock ω) : ℕ → ℕ → FileLock ω → Option Bool
  | 0, _, _ => none
  | fuel + 1, i, block =>
    match whatOwnerIsWaitingFor s block with
    | none => some false
    | some block =>
      if i > maxDeadlkIterations then some false
      else if posixSameOwner caller block then some true
      else deadlockLoop s caller fuel (i + 1) block

def posixLocksDeadlock (s : State ω) (caller block : FileLock ω) : Bool :=
  (deadlockLoop s caller (maxDeadlkIterations + 2) 0 block).getD false

end Block

section Scan

/-- The variables of the loop over the locks of the requester. `before` are the locks that it
has left behind. Once `request` has been set to a lock of the list, `aliased` holds, and `after`
are those left behind after that lock. `woken` are the locks whose waiters were woken. -/
structure Scan (ω : Type*) where
  before : List (FileLock ω)
  request : FileLock ω
  aliased : Bool
  after : List (FileLock ω)
  added : Bool
  left : Option (FileLock ω)
  right : Option (FileLock ω)
  woken : List ℕ

namespace Scan

variable (st : Scan ω) (fl : FileLock ω)

/-- The list up to the current position. -/
def done : List (FileLock ω) :=
  st.before ++ if st.aliased then st.request :: st.after else st.after

/-- Go on to the next lock. -/
def next : Scan ω :=
  if st.aliased then { st with after := st.after ++ [fl] }
  else { st with before := st.before ++ [fl] }

def wake : Scan ω := { st with woken := fl.id :: st.woken }

/-- Let `request` point to the current lock. -/
def become : Scan ω := { st with request := fl, aliased := true, added := true }

/-- The range of a lock and the request together. -/
def mergeStart : ℤ := if fl.flStart > st.request.flStart then st.request.flStart else fl.flStart

def mergeEnd : ℤ := if fl.flEnd < st.request.flEnd then st.request.flEnd else fl.flEnd

/-- A lock of the same type that overlaps the request or is adjacent to it. -/
def merge : Scan ω :=
  if st.added then
    { st.wake fl with
      request := { st.request with flStart := st.mergeStart fl, flEnd := st.mergeEnd fl } }
  else st.become { fl with flStart := st.mergeStart fl, flEnd := st.mergeEnd fl }

/-- What is noted about a lock of another type that overlaps the request. -/
def note : Scan ω :=
  { st with
    added := st.added || st.request.flType = .unlck
    left := if fl.flStart < st.request.flStart then some fl else st.left }

/-- A lock of another type that the request covers. -/
def replace : Scan ω :=
  if st.added then st.wake fl
  else (st.wake fl).become { fl with
    flStart := st.request.flStart, flEnd := st.request.flEnd, flType := st.request.flType }

end Scan

/-- The loop, from the first lock of the requester on. Returned is also the list from the
position where it stops. -/
def scan (st : Scan ω) : List (FileLock ω) → Scan ω × List (FileLock ω)
  | [] => (st, [])
  | fl :: rest =>
    if !posixSameOwner st.request fl then (st, fl :: rest)
    else if st.request.flType = fl.flType then
      if fl.flEnd < st.request.flStart - 1 then scan (st.next fl) rest
      else if fl.flStart - 1 > st.request.flEnd then (st, fl :: rest)
      else scan (st.merge fl) rest
    else if fl.flEnd < st.request.flStart then scan (st.next fl) rest
    else if fl.flStart > st.request.flEnd then (st, fl :: rest)
    else
      let st := st.note fl
      if fl.flEnd > st.request.flEnd then ({ st with right := some fl }, fl :: rest)
      else if fl.flStart ≥ st.request.flStart then scan (st.replace fl) rest
      else scan (st.next fl) rest

end Scan

section Finish

def setStart (id : ℕ) (v : ℤ) (l : List (FileLock ω)) : List (FileLock ω) :=
  l.map fun fl => if fl.id = id then { fl with flStart := v } else fl

def setEnd (id : ℕ) (v : ℤ) (l : List (FileLock ω)) : List (FileLock ω) :=
  l.map fun fl => if fl.id = id then { fl with flEnd := v } else fl

/-- The end of the lock before the request. -/
def trimLeft (request : FileLock ω) (left : Option (FileLock ω)) (l : List (FileLock ω)) :
    List (FileLock ω) :=
  match left with
  | none => l
  | some fl => setEnd fl.id (request.flStart - 1) l

/-- The last part, for the list `before ++ tail`: if the request is inside of one lock, that
one is split in two with the help of `newFl2`. -/
def splitLocks (st : Scan ω) (before tail : List (FileLock ω)) (newFl2 : ℕ) :
    List (FileLock ω) :=
  match st.right with
  | none => trimLeft st.request st.left (before ++ tail)
  | some fl =>
    if st.left.map (·.id) = some fl.id then
      let new := { fl with id := newFl2 }
      let l := setStart fl.id (st.request.flEnd + 1) (before ++ new :: tail)
      trimLeft st.request (some new) l
    else
      trimLeft st.request st.left (setStart fl.id (st.request.flEnd + 1) (before ++ tail))

/-- The locks whose waiters the last part wakes. -/
def Scan.allWoken (st : Scan ω) : List ℕ :=
  (st.left.toList ++ st.right.toList).map (·.id) ++ st.woken

/-- All that follows the loop. `skipped` are the locks before those of the requester. Returned
are the list and the locks whose waiters are woken. -/
def finish (skipped : List (FileLock ω)) (st : Scan ω) (rest : List (FileLock ω))
    (newFl newFl2 : Option ℕ) : Reply × List (FileLock ω) × List ℕ :=
  let before := skipped ++ st.done
  if st.right.isSome ∧ st.left.map (·.id) = st.right.map (·.id) ∧ newFl2 = none then
    (.error .enolck, before ++ rest, st.woken)
  else if !st.added then
    if st.request.flType = .unlck then
      (if st.request.flExists then .error .enoent else .ok, before ++ rest, st.woken)
    else match newFl with
      | none => (.error .enolck, before ++ rest, st.woken)
      | some id =>
        (.ok, splitLocks st before ({ st.request with id := id } :: rest) (newFl2.getD 0),
          st.allWoken)
  else (.ok, splitLocks st before rest (newFl2.getD 0), st.allWoken)

/-- The locks that are skipped before the first one of the requester. -/
def others (request fl : FileLock ω) : Bool := !fl.flPosix || !posixSameOwner request fl

/-- The part of `__posix_lock_file` after the search for a conflict. -/
def editLocks (l : List (FileLock ω)) (request : FileLock ω) (newFl newFl2 : Option ℕ) :
    Reply × List (FileLock ω) × List ℕ :=
  let (st, rest) := scan ⟨[], request, false, [], false, none, none, []⟩
    (l.dropWhile (others request))
  finish (l.takeWhile (others request)) st rest newFl newFl2

end Finish

/-- Are new locks allocated in advance? -/
def needsNew (request : FileLock ω) : Bool :=
  !request.flAccess && (request.flType ≠ .unlck || request.flStart ≠ 0 ||
    request.flEnd ≠ offsetMax)

/-- The first lock that a request conflicts with. -/
def findConflict (l : List (FileLock ω)) (request : FileLock ω) : Option (FileLock ω) :=
  if request.flType ≠ .unlck then l.find? fun fl => fl.flPosix && posixLocksConflict request fl
  else none

/-- `posix_test_lock`, which overwrites the request. -/
def posixTestLock (l : List (FileLock ω)) (fl : FileLock ω) : FileLock ω :=
  match l.find? fun cfl => cfl.flPosix && posixLocksConflict fl cfl with
  | some cfl => { cfl with id := fl.id }
  | none => { fl with flType := .unlck }

/-- `newFl` and `newFl2` are what the two calls of `locks_alloc_lock` return, if they are made.
The lock that is returned is the one copied to `conflock`. -/
def posixLockFile (s : State ω) (inode : ℕ) (request : FileLock ω) (newFl newFl2 : Option ℕ) :
    Reply × Option (FileLock ω) × State ω :=
  let newFl := if needsNew request then newFl else none
  let newFl2 := if needsNew request then newFl2 else none
  match findConflict (s.iFlock inode) request with
  | some fl =>
    if !request.flSleep then (.error .eagain, some fl, s)
    else if posixLocksDeadlock s request fl then (.error .edeadlk, some fl, s)
    else (.deferred, some fl, locksInsertBlock s inode fl request)
  | none =>
    if request.flAccess then (.ok, none, s)
    else
      let (reply, l, woken) := editLocks (s.iFlock inode) request newFl newFl2
      (reply, none,
        locksWakeUpBlocks { s with iFlock := Function.update s.iFlock inode l } woken)

end LinuxKernel.Locks
