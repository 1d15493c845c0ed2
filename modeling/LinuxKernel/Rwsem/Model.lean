import Mathlib.Algebra.Group.Nat.Defs
import Mathlib.Algebra.Group.Int.Defs
import LinuxKernel.Base.Run

/-! # Read/write semaphores with a spinlock

Each call holds the spinlock of the semaphore while it looks at the count and the queue, so it is
one step. A call that has to wait puts its waiter at the end of the queue, and the task sleeps until
another one takes the waiter out and so hands the lock over.
-/

namespace LinuxKernel.Rwsem

variable {T : Type*}

inductive Flags where
  | waitingForRead
  | waitingForWrite
  deriving DecidableEq

/-- A `struct rwsem_waiter`. It is on the stack of one call, so it is known by the number of the
call. -/
structure Waiter (T : Type*) where
  task : T
  flags : Flags
  ticket : ℕ
  deriving DecidableEq

/-- `activity` is an `__s32`: what is stored in it goes through `s32`. -/
structure RwSemaphore (T : Type*) where
  activity : ℤ
  waitList : List (Waiter T)
  deriving DecidableEq

/-- The value of an integer in 32 signed bits. -/
def s32 (x : ℤ) : ℤ := (BitVec.ofInt 32 x).toInt

section Wake

/-- The loop that takes the readers at the front out of the queue. -/
def takeReaders : List (Waiter T) → List (Waiter T) × List (Waiter T)
  | [] => ([], [])
  | waiter :: rest =>
    match waiter.flags with
    | .waitingForRead => (waiter :: (takeReaders rest).1, (takeReaders rest).2)
    | .waitingForWrite => ([], waiter :: rest)

def wakeReaders (sem : RwSemaphore T) : RwSemaphore T × List (Waiter T) :=
  let woken := (takeReaders sem.waitList).1
  (⟨s32 (sem.activity + woken.length), (takeReaders sem.waitList).2⟩, woken)

/-- `__rwsem_do_wake` with the waiters it wakes. It is not called when the queue is empty. -/
def rwsemDoWake (sem : RwSemaphore T) (wakewrite : Bool) : RwSemaphore T × List (Waiter T) :=
  match sem.waitList with
  | [] => (sem, [])
  | waiter :: rest =>
    match wakewrite, waiter.flags with
    | false, .waitingForWrite => (sem, [])
    | true, .waitingForWrite => (⟨-1, rest⟩, [waiter])
    | _, .waitingForRead => wakeReaders sem

/-- The first waiter is woken whatever it waits for. -/
def rwsemWakeOneWriter (sem : RwSemaphore T) : RwSemaphore T × List (Waiter T) :=
  match sem.waitList with
  | [] => (sem, [])
  | waiter :: rest => (⟨-1, rest⟩, [waiter])

end Wake

section Calls

/-- The calls, with the waiters that the lock is given to. -/
def downRead (sem : RwSemaphore T) (waiter : Waiter T) : RwSemaphore T × List (Waiter T) :=
  if 0 ≤ sem.activity ∧ sem.waitList = [] then
    ({ sem with activity := s32 (sem.activity + 1) }, [waiter])
  else ({ sem with waitList := sem.waitList ++ [waiter] }, [])

def downReadTrylock (sem : RwSemaphore T) (waiter : Waiter T) : RwSemaphore T × List (Waiter T) :=
  if 0 ≤ sem.activity ∧ sem.waitList = [] then
    ({ sem with activity := s32 (sem.activity + 1) }, [waiter])
  else (sem, [])

def downWriteNested (sem : RwSemaphore T) (waiter : Waiter T) : RwSemaphore T × List (Waiter T) :=
  if sem.activity = 0 ∧ sem.waitList = [] then ({ sem with activity := -1 }, [waiter])
  else ({ sem with waitList := sem.waitList ++ [waiter] }, [])

def downWriteTrylock (sem : RwSemaphore T) (waiter : Waiter T) : RwSemaphore T × List (Waiter T) :=
  if sem.activity = 0 ∧ sem.waitList = [] then ({ sem with activity := -1 }, [waiter])
  else (sem, [])

def upRead (sem : RwSemaphore T) : RwSemaphore T × List (Waiter T) :=
  let sem := { sem with activity := s32 (sem.activity - 1) }
  if sem.activity = 0 ∧ sem.waitList ≠ [] then rwsemWakeOneWriter sem else (sem, [])

def upWrite (sem : RwSemaphore T) : RwSemaphore T × List (Waiter T) :=
  let sem := { sem with activity := 0 }
  if sem.waitList ≠ [] then rwsemDoWake sem true else (sem, [])

def downgradeWrite (sem : RwSemaphore T) : RwSemaphore T × List (Waiter T) :=
  let sem := { sem with activity := 1 }
  if sem.waitList ≠ [] then rwsemDoWake sem false else (sem, [])

end Calls

section Tasks

inductive Op (T : Type*) where
  | downRead (t : T)
  | downWrite (t : T)
  | downReadTrylock (t : T)
  | downWriteTrylock (t : T)
  | upRead (t : T)
  | upWrite (t : T)
  | downgradeWrite (t : T)

def Op.task : Op T → T
  | downRead t | downWrite t | downReadTrylock t | downWriteTrylock t | upRead t | upWrite t
  | downgradeWrite t => t

/-- The semaphore with what its tasks hold, each as often as it holds it. A task that is given the
lock holds what it asked for, and the requests are numbered as they come. -/
structure System (T : Type*) where
  sem : RwSemaphore T
  readers : List T
  writers : List T
  requests : ℕ
  deriving DecidableEq

def init : System T := ⟨⟨0, []⟩, [], [], 0⟩

def tasksWith (flags : Flags) (granted : List (Waiter T)) : List T :=
  (granted.filter (·.flags = flags)).map (·.task)

/-- The tasks that are given the lock hold it from now on. -/
def System.give (s : System T) (r : RwSemaphore T × List (Waiter T)) : System T × List (Waiter T) :=
  ({ s with sem := r.1, readers := s.readers ++ tasksWith .waitingForRead r.2,
            writers := s.writers ++ tasksWith .waitingForWrite r.2 }, r.2)

variable [DecidableEq T]

/-- A call, with the requests that it grants. -/
def exec (s : System T) : Op T → System T × List (Waiter T)
  | .downRead t =>
    System.give { s with requests := s.requests + 1 }
      (downRead s.sem ⟨t, .waitingForRead, s.requests⟩)
  | .downReadTrylock t =>
    System.give { s with requests := s.requests + 1 }
      (downReadTrylock s.sem ⟨t, .waitingForRead, s.requests⟩)
  | .downWrite t =>
    System.give { s with requests := s.requests + 1 }
      (downWriteNested s.sem ⟨t, .waitingForWrite, s.requests⟩)
  | .downWriteTrylock t =>
    System.give { s with requests := s.requests + 1 }
      (downWriteTrylock s.sem ⟨t, .waitingForWrite, s.requests⟩)
  | .upRead t => System.give { s with readers := s.readers.erase t } (upRead s.sem)
  | .upWrite t => System.give { s with writers := s.writers.erase t } (upWrite s.sem)
  | .downgradeWrite t =>
    System.give { s with writers := s.writers.erase t, readers := t :: s.readers }
      (downgradeWrite s.sem)

/-- A task that waits makes no call, and a task releases only what it holds. -/
def Allowed (s : System T) (op : Op T) : Prop :=
  op.task ∉ s.sem.waitList.map (·.task) ∧
    match op with
    | .upRead t => t ∈ s.readers
    | .upWrite t | .downgradeWrite t => t ∈ s.writers
    | _ => True

def Step (s : System T) (op : Op T) (s' : System T) : Prop := Allowed s op ∧ (exec s op).1 = s'

end Tasks

end LinuxKernel.Rwsem
