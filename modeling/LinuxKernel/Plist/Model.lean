import Mathlib.Data.Set.Insert
import LinuxKernel.Base.Ring
import LinuxKernel.Base.Run

/-! # Priority lists

The lists of `lib/plist.c`. All nodes are in the circular list `node_list`, together with the head
of the list. The first node of every priority is also in the circular list `prio_list`, which has no
head.
-/

namespace LinuxKernel.Plist

open Function

/-- The nodes by their addresses. The `node_list` of the head is at `none`. -/
structure Lists where
  prio : ℕ → ℤ
  prioList : Links ℕ
  nodeList : Links (Option ℕ)

section Code

variable (s : Lists) (node : ℕ)

def plistNodeInit (prio : ℤ) : Lists where
  prio := update s.prio node prio
  prioList := s.prioList.init node
  nodeList := s.nodeList.init (some node)

/-- `plist_first`, if the list is not empty. -/
def plistFirst : Option ℕ := s.nodeList.next none

/-- The loop of `plist_add`, with the values of `prev`, `iter` and `node_next` at its end. -/
def findPlace (prio : ℤ) (first : ℕ) : ℕ → ℕ → Option ℕ → Option (Option ℕ × ℕ × Option ℕ)
  | 0, _, _ => none
  | fuel + 1, iter, prev =>
    if prio < s.prio iter then some (prev, iter, some iter)
    else
      let next := s.prioList.next iter
      if next ≠ first then findPlace prio first fuel next (some iter)
      else some (some iter, next, none)

/-- `plist_add`, where the loop ends after `fuel` rounds. -/
def plistAdd (fuel : ℕ) : Option Lists :=
  match plistFirst s with
  | none => some { s with nodeList := s.nodeList.addTail (some node) none }
  | some first => do
    let (prev, iter, nodeNext) ← findPlace s (s.prio node) first fuel first none
    let prioList := if prev.all fun p => s.prio p ≠ s.prio node then s.prioList.addTail node iter
      else s.prioList
    return { s with prioList, nodeList := s.nodeList.addTail (some node) nodeNext }

/-- The next node is put behind a node in `prio_list`, if it is not in it. -/
def addNext : Links ℕ :=
  match s.nodeList.next (some node) with
  | none => s.prioList
  | some next => if s.prioList.isEmpty next then s.prioList.add next node else s.prioList

/-- The next member of its group takes the place of a node in `prio_list`. -/
def unlinkPrio : Links ℕ :=
  if s.prioList.isEmpty node then s.prioList else (addNext s node).delInit node

def plistDel : Lists :=
  { s with prioList := unlinkPrio s node, nodeList := s.nodeList.delInit (some node) }

end Code

section Runs

/-- A list with what its callers did: the nodes that are in it, and when each was added. -/
structure Traced where
  list : Lists
  live : Set ℕ
  stamp : ℕ → ℕ
  clock : ℕ

inductive Action where
  | add (node : ℕ) (prio : ℤ)
  | del (node : ℕ)

/-- A node is initialised and added while it is in no list, and deleted while it is in the list. -/
inductive Step : Traced → Action → Traced → Prop
  | add {s : Traced} {node : ℕ} {prio : ℤ} {fuel : ℕ} {list : Lists} : node ∉ s.live →
      plistAdd (plistNodeInit s.list node prio) node fuel = some list →
      Step s (.add node prio)
        ⟨list, insert node s.live, update s.stamp node s.clock, s.clock + 1⟩
  | del {s : Traced} {node : ℕ} : node ∈ s.live →
      Step s (.del node) { s with list := plistDel s.list node, live := s.live \ {node} }

/-- `PLIST_HEAD_INIT`, with the nodes in no list. -/
def initial (prio : ℕ → ℤ) : Traced where
  list := { prio, prioList := ⟨id, id⟩, nodeList := ⟨id, id⟩ }
  live := ∅
  stamp _ := 0
  clock := 0

end Runs

end LinuxKernel.Plist
