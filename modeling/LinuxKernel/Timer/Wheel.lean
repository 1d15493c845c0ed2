import LinuxKernel.Base.Jiffies

/-! # The timer wheel

A timer base holds its pending timers in the buckets of five vectors. The first
has one bucket for each of the next ticks, the others have coarser ones, whose
timers are moved down a vector when the tick count reaches their bucket.
-/

namespace LinuxKernel.Timer

/-- The sizes of the vectors depend on `CONFIG_BASE_SMALL`. -/
structure Config where
  baseSmall : Bool

namespace Config

variable (c : Config)

def tvnBits : ℕ := if c.baseSmall then 4 else 6
def tvrBits : ℕ := if c.baseSmall then 6 else 8
def tvnSize : ℕ := 1 <<< c.tvnBits
def tvrSize : ℕ := 1 <<< c.tvrBits
def tvnMask : ℕ := c.tvnSize - 1
def tvrMask : ℕ := c.tvrSize - 1

/-- The shift of the vector `tv2`, `tv3`, `tv4` or `tv5`, for `n` from 0 to 3. -/
def shift (n : ℕ) : ℕ := c.tvrBits + n * c.tvnBits

def rootIndex (t : Jiffies) : ℕ := t.toNat &&& c.tvrMask

/-- The bucket of a time in the vector with number `n`; `INDEX(n)` for the current time. -/
def index (n : ℕ) (t : Jiffies) : ℕ := (t.toNat >>> c.shift n) &&& c.tvnMask

end Config

/-- The buckets: `tv1.vec + i`, and `vec + i` of `tv2` to `tv5` for `n` from 0 to 3. -/
inductive Vec where
  | tv1 (i : ℕ)
  | tvn (n i : ℕ)
  deriving DecidableEq, Repr

structure TimerList where
  expires : Jiffies
  deferrable : Bool
  pending : Bool

/-- A `struct tvec_base` with the timers that belong to it. `workList` is the
list of expired timers that `__run_timers` is working on. -/
structure Base where
  timerJiffies : Jiffies
  nextTimer : Jiffies
  timer : ℕ → TimerList
  vec : Vec → List ℕ
  workList : List ℕ

/-- The bucket that `internal_add_timer` chooses for an expiry time. -/
def bucket (c : Config) (timerJiffies expires : Jiffies) : Vec :=
  let idx := expires - timerJiffies
  if idx.toNat < c.tvrSize then .tv1 (c.rootIndex expires)
  else if idx.toNat < 1 <<< c.shift 1 then .tvn 0 (c.index 0 expires)
  else if idx.toNat < 1 <<< c.shift 2 then .tvn 1 (c.index 1 expires)
  else if idx.toNat < 1 <<< c.shift 3 then .tvn 2 (c.index 2 expires)
  else if idx.toInt < 0 then .tv1 (c.rootIndex timerJiffies)
  else if 0xffffffff < idx.toNat then .tvn 3 (c.index 3 (0xffffffff + timerJiffies))
  else .tvn 3 (c.index 3 expires)

namespace Base

def setVec (b : Base) (v : Vec) (l : List ℕ) : Base := { b with vec := Function.update b.vec v l }

def setTimer (b : Base) (i : ℕ) (t : TimerList) : Base :=
  { b with timer := Function.update b.timer i t }

def unlink (b : Base) (i : ℕ) : Base :=
  { b with
    vec := fun v => (b.vec v).filter (· ≠ i)
    workList := b.workList.filter (· ≠ i) }

end Base

def internalAddTimer (c : Config) (b : Base) (i : ℕ) : Base :=
  let v := bucket c b.timerJiffies (b.timer i).expires
  b.setVec v (b.vec v ++ [i])

def cascade (c : Config) (b : Base) (n index : ℕ) : Base :=
  (b.vec (.tvn n index)).foldl (internalAddTimer c) (b.setVec (.tvn n index) [])

/-- The cascades at the start of an iteration. Each vector is cascaded when the
bucket of the one below it wraps around to zero. -/
def cascades (c : Config) (b : Base) : Base :=
  let tj := b.timerJiffies
  if c.rootIndex tj ≠ 0 then b
  else
    let b := cascade c b 0 (c.index 0 tj)
    if c.index 0 tj ≠ 0 then b
    else
      let b := cascade c b 1 (c.index 1 tj)
      if c.index 1 tj ≠ 0 then b
      else
        let b := cascade c b 2 (c.index 2 tj)
        if c.index 2 tj ≠ 0 then b else cascade c b 3 (c.index 3 tj)

/-- The start of one iteration of `__run_timers`, up to the loop over the work list. -/
def startIteration (c : Config) (b : Base) : Base :=
  let index := c.rootIndex b.timerJiffies
  let b := cascades c b
  { b.setVec (.tv1 index) [] with
    timerJiffies := b.timerJiffies + 1
    workList := b.vec (.tv1 index) }

/-- Detach the first timer of the work list, whose function is then called. -/
def runFirst (b : Base) : Base :=
  match b.workList with
  | [] => b
  | i :: rest => { b.setTimer i { b.timer i with pending := false } with workList := rest }

/-- What `__mod_timer` and `del_timer` do to a pending timer's list and to the cached
next expiry. -/
def detachPending (b : Base) (i : ℕ) : Base :=
  let b := b.unlink i
  if (b.timer i).expires = b.nextTimer ∧ (b.timer i).deferrable = false then
    { b with nextTimer := b.timerJiffies }
  else b

/-- The end of `__mod_timer`: store the expiry, lower the cached next expiry and enqueue. -/
def enqueue (c : Config) (b : Base) (i : ℕ) (expires : Jiffies) : Base :=
  let b := b.setTimer i { b.timer i with expires := expires, pending := true }
  let b := if timeBefore expires b.nextTimer ∧ (b.timer i).deferrable = false then
    { b with nextTimer := expires } else b
  internalAddTimer c b i

/-- `__mod_timer` for a timer that stays on its base. -/
def modTimer (c : Config) (b : Base) (i : ℕ) (expires : Jiffies) (pendingOnly : Bool) : Base :=
  if (b.timer i).pending then enqueue c (detachPending b i) i expires
  else if pendingOnly then b
  else enqueue c b i expires

def delTimer (b : Base) (i : ℕ) : Base :=
  if (b.timer i).pending then
    let b := detachPending b i
    b.setTimer i { b.timer i with pending := false }
  else b

def nextTimerMaxDelta : ℕ := (1 <<< 30) - 1

/-- The slots of a vector in the order in which a search that starts at `index` visits
them, until it is back at `index`. -/
def slots (mask index : ℕ) : List ℕ := (List.range (mask + 1)).map fun k => (index + k) &&& mask

/-- The first timer that is not deferrable in the slots of `tv1`, with its slot. -/
def searchRoot (c : Config) (b : Base) (index : ℕ) : Option (ℕ × Jiffies) :=
  (slots c.tvrMask index).findSome? fun slot =>
    ((b.vec (.tv1 slot)).find? fun i => !(b.timer i).deferrable).map fun i =>
      (slot, (b.timer i).expires)

/-- The loop over a bucket of `tv2` to `tv5`: `found` and `expires` after it. -/
def searchBucket (b : Base) : List ℕ → Bool × Jiffies → Bool × Jiffies
  | [], s => s
  | i :: l, (found, expires) =>
    if (b.timer i).deferrable then searchBucket b l (found, expires)
    else if timeBefore (b.timer i).expires expires then
      searchBucket b l (true, (b.timer i).expires)
    else searchBucket b l (true, expires)

/-- The search through the slots of one of `tv2` to `tv5`. It stops at the first slot
after which a timer is found, and says which one that is. -/
def searchSlots (b : Base) (n : ℕ) : List ℕ → Bool × Jiffies → Option ℕ × Bool × Jiffies
  | [], s => (none, s)
  | slot :: rest, s =>
    let s := searchBucket b (b.vec (.tvn n slot)) s
    if s.1 then (some slot, s) else searchSlots b n rest s

/-- The next cascade event in units of the vector above. -/
def nextCascade (timerJiffies : Jiffies) (index size bits : ℕ) : Jiffies :=
  (if index ≠ 0 then timerJiffies + BitVec.ofNat 64 (size - index) else timerJiffies) >>> bits

/-- The search through the last `k` of the vectors `tv2` to `tv5`. A slot that was found
before the index wrapped around ends it, otherwise the cascade buckets are looked at. -/
def searchVectors (c : Config) (b : Base) : ℕ → Jiffies → Bool × Jiffies → Jiffies
  | 0, _, s => s.2
  | k + 1, timerJiffies, s =>
    let index := timerJiffies.toNat &&& c.tvnMask
    let next := nextCascade timerJiffies index c.tvnSize c.tvnBits
    match searchSlots b (3 - k) (slots c.tvnMask index) s with
    | (none, s) => searchVectors c b k next s
    | (some slot, s) =>
      if index = 0 ∨ slot < index then searchVectors c b k next s else s.2

def nextTimerInterrupt (c : Config) (b : Base) : Jiffies :=
  let index := c.rootIndex b.timerJiffies
  let next := nextCascade b.timerJiffies index c.tvrSize c.tvrBits
  match searchRoot c b index with
  | none =>
    searchVectors c b 4 next (false, b.timerJiffies + BitVec.ofNat 64 nextTimerMaxDelta)
  | some (slot, expires) =>
    if index = 0 ∨ slot < index then searchVectors c b 4 next (true, expires) else expires

/-- What `get_next_timer_interrupt` does to the base of a CPU that is online. It goes on
with the `next_timer` that this leaves. -/
def getNextTimerInterrupt (c : Config) (b : Base) : Base :=
  if timeBeforeEq b.nextTimer b.timerJiffies then
    { b with nextTimer := nextTimerInterrupt c b }
  else b

/-- What can happen to a timer base. The calls of a timer function are the
steps between `run` and the next `run` or `tick`. -/
inductive Act where
  | mod (i : ℕ) (expires : Jiffies) (pendingOnly : Bool)
  | del (i : ℕ)
  | tick
  | run (i : ℕ)
  | query
  deriving DecidableEq

/-- One step of a timer base. An iteration starts when the work list of the last
one is empty. -/
inductive Step (c : Config) : Base → Act → Base → Prop where
  | mod (b : Base) (i : ℕ) (expires : Jiffies) (pendingOnly : Bool) :
      Step c b (.mod i expires pendingOnly) (modTimer c b i expires pendingOnly)
  | del (b : Base) (i : ℕ) : Step c b (.del i) (delTimer b i)
  | tick (b : Base) : b.workList = [] → Step c b .tick (startIteration c b)
  | run (b : Base) (i : ℕ) (rest : List ℕ) : b.workList = i :: rest →
      Step c b (.run i) (runFirst b)
  | query (b : Base) : Step c b .query (getNextTimerInterrupt c b)

structure Initial (b : Base) : Prop where
  vec : ∀ v, b.vec v = []
  workList : b.workList = []
  pending : ∀ i, (b.timer i).pending = false
  nextTimer : b.nextTimer = b.timerJiffies

end LinuxKernel.Timer
