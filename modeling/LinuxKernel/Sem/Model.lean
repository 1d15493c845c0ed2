import Mathlib.Algebra.Order.Ring.Int
import LinuxKernel.Base.Errno

/-! # System V semaphores

A semaphore array with the queue of its sleeping operations. An operation that
changes the array lets `do_smart_update` complete the sleeping operations that have
become possible, with as little scanning as it can get away with.
-/

namespace LinuxKernel.Sem

open Function

def semvmx : ℤ := 32767
def semaem : ℤ := semvmx

/-- The value of a C `short` after an assignment. -/
def toShort (x : ℤ) : ℤ := x.bmod (2 ^ 16)

/-- A `struct sembuf`, with the two flags that are looked at. -/
structure SemBuf where
  semNum : ℕ
  semOp : ℤ
  semUndo : Bool
  ipcNowait : Bool
  deriving DecidableEq, Repr

/-- A sleeping operation. `undo` names the `sem_undo` of its task, which only the
operations with `SEM_UNDO` use. -/
structure SemQueue where
  sleeper : ℕ
  undo : ℕ
  pid : ℤ
  sops : List SemBuf
  alter : Bool
  deriving DecidableEq, Repr

/-- A `struct sem_array`. `semval`, `sempid` and `semSimple` are the fields of
`sem_base[i]`, and `semadj` holds the adjustments of every `sem_undo`. -/
structure SemArray where
  nsems : ℕ
  semval : ℕ → ℤ
  sempid : ℕ → ℤ
  semSimple : ℕ → List SemQueue
  semPending : List SemQueue
  complexCount : ℤ
  semadj : ℕ → ℕ → ℤ
  semOtime : ℕ

/-- What `try_atomic_semop` returns: 0, 1 or an error. -/
inductive Result where
  | done
  | sleep
  | error (e : Errno)
  deriving DecidableEq, Repr

namespace SemArray

def setVal (sma : SemArray) (i : ℕ) (v : ℤ) : SemArray :=
  { sma with semval := update sma.semval i v }

def setAdj (sma : SemArray) (un i : ℕ) (v : ℤ) : SemArray :=
  { sma with semadj := update sma.semadj un (update (sma.semadj un) i v) }

end SemArray

section TryAtomicSemop

variable (un : ℕ) (pid : ℤ)

/-- The loop that undoes the operations done so far, the last one first. -/
def revert (sma : SemArray) (done : List SemBuf) : SemArray :=
  done.foldl (fun sma sop => sma.setVal sop.semNum (sma.semval sop.semNum - sop.semOp)) sma

def commitOne (sma : SemArray) (sop : SemBuf) : SemArray :=
  let sma := { sma with sempid := update sma.sempid sop.semNum pid }
  if sop.semUndo then
    sma.setAdj un sop.semNum (toShort (sma.semadj un sop.semNum - sop.semOp))
  else sma

/-- The loop that does this for all operations, the last one first. -/
def commit (sma : SemArray) (done : List SemBuf) : SemArray :=
  done.foldl (commitOne un pid) sma

/-- The loop over the operations; `done` are those before, the last one first. -/
def tryLoop (sma : SemArray) (done : List SemBuf) : List SemBuf → Result × SemArray
  | [] => (.done, commit un pid sma done)
  | sop :: rest =>
    let result := sma.semval sop.semNum + sop.semOp
    if sop.semOp = 0 ∧ sma.semval sop.semNum ≠ 0 ∨ result < 0 then
      (if sop.ipcNowait then .error .eagain else .sleep, revert sma done)
    else if result > semvmx then (.error .erange, revert sma done)
    else
      let undo := sma.semadj un sop.semNum - sop.semOp
      if sop.semUndo ∧ (undo < -semaem - 1 ∨ undo > semaem) then
        (.error .erange, revert sma done)
      else tryLoop (sma.setVal sop.semNum result) (sop :: done) rest

def tryAtomicSemop (sma : SemArray) (sops : List SemBuf) : Result × SemArray :=
  tryLoop un pid sma [] sops

end TryAtomicSemop

def unlinkQueue (sma : SemArray) (q : SemQueue) : SemArray :=
  let sma := { sma with semPending := sma.semPending.filter (·.sleeper ≠ q.sleeper) }
  if q.sops.length = 1 then
    { sma with semSimple := fun i => (sma.semSimple i).filter (·.sleeper ≠ q.sleeper) }
  else { sma with complexCount := sma.complexCount - 1 }

/-- Is it necessary to scan the queue again after `q` has completed? The result is `none`
when one of the assertions fails. -/
def checkRestart (sma : SemArray) (q : SemQueue) : Option Bool :=
  if q.alter = false then some false
  else if sma.complexCount ≠ 0 then some true
  else if q.sops.length > 1 then some true
  else
    match q.sops with
    | [] => none
    | sop :: _ =>
      match sma.semSimple sop.semNum with
      | [] => some false
      | h :: _ =>
        if sma.semval sop.semNum ≠ 0 then
          if sop.semOp ≥ 0 then none else some false
        else
          match h.sops with
          | [hsop] => if hsop.semNum ≠ sop.semNum then none else some (hsop.semOp = 0)
          | _ => none

/-- The variables of `update_queue`: the array, the tasks to wake up with their results,
and `semop_completed`. -/
structure Update where
  sma : SemArray
  tasks : List (SemQueue × Result)
  completed : Bool

/-- One walk along the queue. It says whether to start again. -/
def walk (semnum : Option ℕ) : List SemQueue → Update → Option (Bool × Update)
  | [], u => some (false, u)
  | q :: rest, u =>
    -- in the list of a semaphore with value zero no decrement needs to be looked at
    if semnum.any (fun i => u.sma.semval i = 0) ∧ q.alter then some (false, u)
    else
      match tryAtomicSemop q.undo q.pid u.sma q.sops with
      | (.sleep, sma) => walk semnum rest { u with sma := sma }
      | (.error e, sma) =>
        walk semnum rest
          { u with sma := unlinkQueue sma q, tasks := u.tasks ++ [(q, .error e)] }
      | (.done, sma) =>
        let sma := unlinkQueue sma q
        let u := { sma := sma, tasks := u.tasks ++ [(q, .done)], completed := true }
        match checkRestart sma q with
        | none => none
        | some true => some (true, u)
        | some false => walk semnum rest u

/-- The list that is scanned: all operations, or the simple ones on one semaphore. -/
def pendingList (sma : SemArray) : Option ℕ → List SemQueue
  | none => sma.semPending
  | some i => sma.semSimple i

/-- The walks of `update_queue`, at most `fuel` of them. -/
def walks (semnum : Option ℕ) : ℕ → Update → Option Update
  | 0, _ => none
  | fuel + 1, u =>
    match walk semnum (pendingList u.sma semnum) u with
    | none => none
    | some (true, u) => walks semnum fuel u
    | some (false, u) => some u

/-- `update_queue`, where `none` stands for -1. Each walk but the last completes an
operation, so that there are not more walks than operations plus one. -/
def updateQueue (u : Update) (semnum : Option ℕ) : Option Update :=
  let semnum := if u.sma.complexCount ≠ 0 then none else semnum
  walks semnum (u.sma.semPending.length + 1) { u with completed := false }

/-- The loop of `do_smart_update` over the operations that were performed. -/
def smartLoop : List SemBuf → Bool → Update → Option (Bool × Update)
  | [], otime, u => some (otime, u)
  | sop :: rest, otime, u =>
    if sop.semOp > 0 ∨ sop.semOp < 0 ∧ u.sma.semval sop.semNum = 0 then
      match updateQueue u (some sop.semNum) with
      | none => none
      | some u => smartLoop rest (otime || u.completed) u
    else smartLoop rest otime u

/-- The end of `do_smart_update`. -/
def setOtime (otime : Bool) (seconds : ℕ) (u : Update) : Update :=
  if otime then { u with sma := { u.sma with semOtime := seconds } } else u

def doSmartUpdate (sma : SemArray) (sops : Option (List SemBuf)) (otime : Bool) (seconds : ℕ) :
    Option Update :=
  let u : Update := ⟨sma, [], false⟩
  match sops with
  | none => (updateQueue u none).map fun u => setOtime (otime || u.completed) seconds u
  | some sops =>
    if sma.complexCount ≠ 0 then
      (updateQueue u none).map fun u => setOtime (otime || u.completed) seconds u
    else (smartLoop sops otime u).map fun r => setOtime r.1 seconds r.2

/-- The end of `semtimedop` for an operation that has to sleep. -/
def enqueue (sma : SemArray) (q : SemQueue) : SemArray :=
  let add := fun l : List SemQueue => if q.alter then l ++ [q] else q :: l
  let sma := { sma with semPending := add sma.semPending }
  match q.sops with
  | [sop] => { sma with
      semSimple := update sma.semSimple sop.semNum (add (sma.semSimple sop.semNum)) }
  | _ => { sma with complexCount := sma.complexCount + 1 }

/-- `semtimedop` up to the point where it returns or goes to sleep: the result, the array
and the tasks that are woken up. -/
def semtimedop (sma : SemArray) (sleeper un : ℕ) (pid : ℤ) (sops : List SemBuf) (seconds : ℕ) :
    Option (Result × SemArray × List (SemQueue × Result)) :=
  if sops = [] then some (.error .einval, sma, [])
  else if sops.any fun sop => sop.semNum ≥ sma.nsems then some (.error .efbig, sma, [])
  else
    let alter := sops.any fun sop => sop.semOp ≠ 0
    match tryAtomicSemop un pid sma sops with
    | (.done, sma) =>
      if alter then
        (doSmartUpdate sma (some sops) true seconds).map fun u => (.done, u.sma, u.tasks)
      else some (.done, sma, [])
    | (.error e, sma) => some (.error e, sma, [])
    | (.sleep, sma) => some (.sleep, enqueue sma ⟨sleeper, un, pid, sops, alter⟩, [])

/-- The loop of `exit_sem` that performs the adjustments. -/
def adjust (sma : SemArray) (un : ℕ) (pid : ℤ) : SemArray :=
  let adj := sma.semadj un
  { sma with
    semval := fun i =>
      if i < sma.nsems ∧ adj i ≠ 0 then min (max (sma.semval i + adj i) 0) semvmx
      else sma.semval i
    sempid := fun i => if i < sma.nsems ∧ adj i ≠ 0 then pid else sma.sempid i
    semadj := update sma.semadj un fun _ => 0 }

/-- What `exit_sem` does to an array for the `sem_undo` that it removes. -/
def exitSem (sma : SemArray) (un : ℕ) (pid : ℤ) (seconds : ℕ) : Option Update :=
  doSmartUpdate (adjust sma un pid) none true seconds

/-- The new value of one semaphore, for which the adjustments are forgotten. -/
def putVal (sma : SemArray) (semnum : ℕ) (val pid : ℤ) : SemArray :=
  { sma.setVal semnum val with
    semadj := fun un => update (sma.semadj un) semnum 0
    sempid := update sma.sempid semnum pid }

/-- `semctl` with `SETVAL`: the result and the array. -/
def semctlSetval (sma : SemArray) (semnum : ℕ) (val pid : ℤ) (seconds : ℕ) :
    Option (Result × SemArray) :=
  if semnum ≥ sma.nsems then some (.error .einval, sma)
  else if val > semvmx ∨ val < 0 then some (.error .erange, sma)
  else (doSmartUpdate (putVal sma semnum val pid) none false seconds).map fun u => (.done, u.sma)

def putAll (sma : SemArray) (semIo : ℕ → ℕ) : SemArray :=
  { sma with
    semval := fun i => if i < sma.nsems then semIo i else sma.semval i
    semadj := fun un i => if i < sma.nsems then 0 else sma.semadj un i }

/-- `semctl` with `SETALL`: the result and the array. -/
def semctlSetall (sma : SemArray) (semIo : ℕ → ℕ) (seconds : ℕ) : Option (Result × SemArray) :=
  if ∃ i < sma.nsems, (semIo i : ℤ) > semvmx then some (.error .erange, sma)
  else (doSmartUpdate (putAll sma semIo) none false seconds).map fun u => (.done, u.sma)

/-- What can happen to a semaphore array: a call of `semtimedop`, a sleeper that gives up
after a timeout or a signal, the exit of the last task that uses a `sem_undo`, and the
two ways to set values. -/
inductive Act where
  | semop (sleeper un : ℕ) (pid : ℤ) (sops : List SemBuf) (seconds : ℕ)
  | unlink (q : SemQueue)
  | exit (un : ℕ) (pid : ℤ) (seconds : ℕ)
  | setval (semnum : ℕ) (val pid : ℤ) (seconds : ℕ)
  | setall (semIo : ℕ → ℕ) (seconds : ℕ)

/-- When a call can happen: a task that sleeps calls nothing, only a sleeper can give up,
and a `sem_undo` goes when no task, awake or asleep, uses it any more. -/
def Act.enabled (sma : SemArray) : Act → Prop
  | .semop sleeper .. => ∀ q ∈ sma.semPending, q.sleeper ≠ sleeper
  | .unlink q => q ∈ sma.semPending
  | .exit un .. => ∀ q ∈ sma.semPending, q.undo ≠ un
  | .setval .. => True
  | .setall .. => True

/-- The array after a call; `none` when an assertion fails or a loop does not end. -/
def exec (sma : SemArray) : Act → Option SemArray
  | .semop sleeper un pid sops seconds =>
    (semtimedop sma sleeper un pid sops seconds).map fun r => r.2.1
  | .unlink q => some (unlinkQueue sma q)
  | .exit un pid seconds => (exitSem sma un pid seconds).map fun u => u.sma
  | .setval semnum val pid seconds => (semctlSetval sma semnum val pid seconds).map fun r => r.2
  | .setall semIo seconds => (semctlSetall sma semIo seconds).map fun r => r.2

def Step (sma : SemArray) (a : Act) (sma' : SemArray) : Prop :=
  a.enabled sma ∧ exec sma a = some sma'

structure Initial (sma : SemArray) : Prop where
  semval : ∀ i, sma.semval i = 0
  semSimple : ∀ i, sma.semSimple i = []
  semPending : sma.semPending = []
  complexCount : sma.complexCount = 0
  semadj : ∀ un i, sma.semadj un i = 0

end LinuxKernel.Sem
