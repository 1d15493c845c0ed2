import Mathlib.Algebra.Group.Nat.Defs
import LinuxKernel.Base.Errno
import LinuxKernel.Base.Word

/-! # Ids and their pointers

An idr keeps pointers under small integers, in a radix tree of layers with 64 slots each (`IDR_BITS`
is 6, on machines with words of 64 bits). A bit in the bitmap of a layer says that there is no space
below the slot. The tree has at most five layers. New ones come from a list that is filled in
advance, and an allocation fails when it needs one more than there are.

Ids are machine integers without their sign: one that is not below `2 ^ 31` is negative. A loop has
fuel, and gives `none` if that is not enough or if the code would stop at a `BUG_ON`.
-/

namespace LinuxKernel.Idr

open Function

/-- `struct idr_layer`. The slots hold layers, or the pointers of the user at the bottom. -/
structure Layer where
  bitmap : BitVec 64
  ary : ℕ → Option ℕ
  count : ℤ
  layer : ℕ

def Layer.zero : Layer := ⟨0, fun _ => none, 0, 0⟩

/-- `struct idr`, with the memory of the layers. The list of free layers is linked through their
first slots, which are empty once they are taken from it. -/
structure Idr where
  top : Option ℕ
  layers : ℕ
  idFree : List ℕ
  mem : ℕ → Layer

namespace Idr

def modify (s : Idr) (p : ℕ) (f : Layer → Layer) : Idr :=
  { s with mem := update s.mem p (f (s.mem p)) }

def setBit (s : Idr) (p n : ℕ) : Idr := s.modify p fun y => { y with bitmap := Word.set y.bitmap n }

def clearBit (s : Idr) (p n : ℕ) : Idr :=
  s.modify p fun y => { y with bitmap := Word.clear y.bitmap n }

def setAry (s : Idr) (p n : ℕ) (v : Option ℕ) : Idr :=
  s.modify p fun y => { y with ary := update y.ary n v }

def addCount (s : Idr) (p : ℕ) (d : ℤ) : Idr := s.modify p fun y => { y with count := y.count + d }

def setTop (s : Idr) (p layers : ℕ) : Idr := { s with top := some p, layers := layers }

end Idr

def idrInit (mem : ℕ → Layer) : Idr := ⟨none, 0, [], mem⟩

section FreeList

def getFromFreeList (s : Idr) : Option (ℕ × Idr) :=
  match s.idFree with
  | [] => none
  | p :: rest => some (p, { s with idFree := rest })

def moveToFreeList (s : Idr) (p : ℕ) : Idr := { s with idFree := p :: s.idFree }

/-- The list has the layers that `kmem_cache_zalloc` returns until it fails. -/
def idrPreGet : List ℕ → Idr → Bool × Idr
  | [], s => (decide (12 ≤ s.idFree.length), s)
  | new :: rest, s =>
    if s.idFree.length < 12 then
      idrPreGet rest (moveToFreeList { s with mem := update s.mem new .zero } new)
    else (true, s)

end FreeList

section Alloc

/-- The layers on the way to a slot, as they are kept on the stack. -/
abbrev Path := ℕ → Option ℕ

def idrMarkFull (pa : Path) : ℕ → ℕ → ℕ → ℕ → Idr → Option Idr
  | 0, _, _, _, _ => none
  | fuel + 1, p, l, id, s =>
    let s := s.setBit p (id &&& 63)
    if (s.mem p).bitmap = .allOnes 64 then
      match pa (l + 1) with
      | none => some s
      | some p => idrMarkFull pa fuel p (l + 1) (id >>> 6) s
    else some s

/-- The return values of `sub_alloc`: an id, -1, `IDR_NEED_TO_GROW` or `IDR_NOMORE_SPACE`. -/
inductive Found where
  | id (id : ℕ)
  | noMemory
  | needToGrow (id : ℕ)
  | noMoreSpace
deriving DecidableEq

/-- A new layer of level `l` is put into a slot. -/
def Idr.addLayer (s : Idr) (p m new l : ℕ) : Idr :=
  ((s.modify new fun y => { y with layer := l }).setAry p m (some new)).addCount p 1

/-- The loop of `sub_alloc`, at the layer `p` of level `l`. -/
def subAllocLoop : ℕ → ℕ → ℕ → ℕ → Path → Idr → Option (Found × Path × Idr)
  | 0, _, _, _, _, _ => none
  | fuel + 1, p, l, id, pa, s =>
    let n := id >>> (6 * l) &&& 63
    let m := Word.findNextBit (~~~(s.mem p).bitmap) n
    if m = 64 then
      -- no space available, go back to the layer above
      let l := l + 1
      let oid := id
      let id := (id ||| (1 <<< (6 * l) - 1)) + 1
      if id < 2 ^ 31 ∧ 1 <<< (6 * s.layers) ≤ id then some (.needToGrow id, pa, s)
      else do
        let p ← pa l
        if oid >>> (6 * (l + 1)) = id >>> (6 * (l + 1)) then subAllocLoop fuel p l id pa s
        else
          let top ← s.top
          subAllocLoop fuel top (s.layers - 1) id (update pa s.layers none) s
    else
      let id := if m ≠ n then ((id >>> (6 * l)) ^^^ n ^^^ m) <<< (6 * l) else id
      if 2 ^ 31 ≤ id then some (.noMoreSpace, pa, s)
      else
        match l with
        | 0 => some (.id id, update pa 0 (some p), s)
        | l + 1 =>
          match (s.mem p).ary m with
          | some c => subAllocLoop fuel c l id (update pa (l + 1) (some p)) s
          | none =>
            match getFromFreeList s with
            | none => some (.noMemory, pa, s)
            | some (new, s) =>
              subAllocLoop fuel new l id (update pa (l + 1) (some p)) (s.addLayer p m new l)

def subAlloc (fuel id : ℕ) (pa : Path) (s : Idr) : Option (Found × Path × Idr) :=
  s.top.bind fun top => subAllocLoop fuel top (s.layers - 1) id (update pa s.layers none) s

/-- A layer that is over the tree goes back to the list. -/
def takeDown (s : Idr) (p : ℕ) : Idr :=
  moveToFreeList
    (s.modify p fun y => { y with ary := update y.ary 0 none, bitmap := 0, count := 0 }) p

/-- The loop that gives back the layers that were put over the tree. -/
def tearDown : ℕ → Option ℕ → Idr → Option Idr
  | _, none, s => some s
  | 0, some _, _ => none
  | fuel + 1, some p, s =>
    if s.top = some p then some s else tearDown fuel ((s.mem p).ary 0) (takeDown s p)

/-- A new layer is put over the tree. -/
def Idr.addTop (s : Idr) (p new layers : ℕ) : Idr :=
  let s := s.modify new fun y =>
    { y with ary := update y.ary 0 (some p), count := 1, layer := layers }
  if (s.mem p).bitmap = .allOnes 64 then s.setBit new 0 else s

/-- The loop that adds layers at the top. The result is the new top and the number of layers. -/
def growLoop (id : ℕ) : ℕ → ℕ → ℕ → Idr → Option (Option (ℕ × ℕ) × Idr)
  | 0, _, _, _ => none
  | fuel + 1, p, layers, s =>
    if layers < 5 ∧ 1 <<< (6 * layers) ≤ id then
      if (s.mem p).count = 0 then
        -- an empty tree grows by moving its top upwards
        growLoop id fuel p (layers + 1) (s.modify p fun y => { y with layer := y.layer + 1 })
      else
        match getFromFreeList s with
        | none => (tearDown fuel (some p) s).map fun s => (none, s)
        | some (new, s) => growLoop id fuel new (layers + 1) (s.addTop p new layers)
    else some (some (p, layers), s)

/-- The top to start from, which is a new one if there is none. -/
def firstTop (s : Idr) : Option (ℕ × ℕ × Idr) :=
  match s.top with
  | some p => some (p, s.layers, s)
  | none => (getFromFreeList s).map fun (p, s) => (p, 1, s.modify p fun y => { y with layer := 0 })

def emptySlotLoop (fuel : ℕ) : ℕ → ℕ → Path → Idr → Option (Found × Path × Idr)
  | 0, _, _, _ => none
  | n + 1, id, pa, s =>
    match firstTop s with
    | none => some (.noMemory, pa, s)
    | some (p, layers, s) =>
      (growLoop id fuel p layers s).bind fun
      | (none, s) => some (.noMemory, pa, s)
      | (some (p, layers), s) =>
        (subAlloc fuel id pa (s.setTop p layers)).bind fun
        | (.needToGrow id, pa, s) => emptySlotLoop fuel n id pa s
        | res => some res

def idrGetEmptySlot (fuel : ℕ) (s : Idr) (startingId : ℕ) : Option (Found × Path × Idr) :=
  emptySlotLoop fuel fuel startingId (fun _ => none) s

def idrGetNewAboveInt (fuel : ℕ) (s : Idr) (ptr : Option ℕ) (startingId : ℕ) :
    Option (Found × Idr) :=
  (idrGetEmptySlot fuel s startingId).bind fun
  | (.id id, pa, s) => (pa 0).bind fun p =>
    (idrMarkFull pa fuel p 0 id ((s.setAry p (id &&& 63) ptr).addCount p 1)).map
      fun s => (.id id, s)
  | (rv, _, s) => some (rv, s)

def idrRcToErrno : Found → Except Errno ℕ
  | .id id => .ok id
  | .noMemory => .error .eagain
  | .needToGrow _ | .noMoreSpace => .error .enospc

def idrGetNewAbove (fuel : ℕ) (s : Idr) (ptr : Option ℕ) (startingId : ℕ) :
    Option (Except Errno ℕ × Idr) :=
  (idrGetNewAboveInt fuel s ptr startingId).map fun (rv, s) => (idrRcToErrno rv, s)

end Alloc

section Remove

inductive Link where
  | top
  | ary (p n : ℕ)

def Idr.read (s : Idr) : Link → Option ℕ
  | .top => s.top
  | .ary p n => (s.mem p).ary n

def Idr.write (s : Idr) (v : Option ℕ) : Link → Idr
  | .top => { s with top := v }
  | .ary p n => s.setAry p n v

/-- The loop that clears the bits on the way to the leaf of an id. -/
def clearPath (id : ℕ) : ℕ → Option ℕ → List Link → Idr → Option ℕ × List Link × Idr
  | 0, p, paa, s => (p, paa, s)
  | _ + 1, none, paa, s => (none, paa, s)
  | l + 1, some p, paa, s =>
    let n := id >>> (6 * (l + 1)) &&& 63
    clearPath id l ((s.mem p).ary n) (.ary p n :: paa) (s.clearBit p n)

/-- The loop that frees the layers that have become empty, from the leaf upwards. -/
def freeLayers : List Link → Idr → Option Idr
  | [], s => some { s with layers := 0 }
  | link :: paa, s => (s.read link).bind fun p =>
    let s := s.addCount p (-1)
    if (s.mem p).count = 0 then freeLayers paa (s.write none link) else some s

def subRemove (s : Idr) (l id : ℕ) : Option Idr :=
  match clearPath id l s.top [.top] s with
  | (none, _, s) => some s
  | (some p, paa, s) =>
    let n := id &&& 63
    if (s.mem p).bitmap.getLsbD n then freeLayers paa ((s.clearBit p n).setAry p n none)
    else some s

/-- A tree whose top has nothing but its first slot loses it. -/
def shrink (s : Idr) : Idr :=
  match s.top with
  | none => s
  | some p =>
    if (s.mem p).count = 1 ∧ 1 < s.layers ∧ ((s.mem p).ary 0).isSome then
      { s with top := (s.mem p).ary 0, layers := s.layers - 1 }.modify p
        fun y => { y with bitmap := 0, count := 0 }
    else s

/-- The loop that frees layers of the list while it has too many. -/
def trimFreeList : List ℕ → List ℕ
  | [] => []
  | p :: rest => if 12 ≤ rest.length + 1 then trimFreeList rest else p :: rest

def idrRemove (s : Idr) (id : ℕ) : Option Idr :=
  (subRemove s (s.layers - 1) (id &&& (2 ^ 31 - 1))).map fun s =>
    let s := shrink s
    { s with idFree := trimFreeList s.idFree }

end Remove

section Find

/-- The loop of `idr_find`, which checks the levels of the layers. -/
def findLoop (s : Idr) (id : ℕ) : ℕ → Option ℕ → Option (Option ℕ)
  | 0, p => some p
  | _ + 1, none => some none
  | n + 1, some p =>
    if n ≠ (s.mem p).layer then none else findLoop s id n ((s.mem p).ary (id >>> (6 * n) &&& 63))

def idrFind (s : Idr) (id : ℕ) : Option (Option ℕ) :=
  match s.top with
  | none => some none
  | some p =>
    let n := (s.mem p).layer + 1
    let id := id &&& (2 ^ 31 - 1)
    if 1 <<< (6 * n) ≤ id then some none else findLoop s id n (some p)

/-- The loop of `idr_replace`. -/
def leafLoop (s : Idr) (id : ℕ) : ℕ → Option ℕ → Option ℕ
  | 0, p => p
  | _ + 1, none => none
  | n + 1, some p => leafLoop s id n ((s.mem p).ary (id >>> (6 * (n + 1)) &&& 63))

def idrReplace (s : Idr) (ptr : Option ℕ) (id : ℕ) : Except Errno (Option ℕ) × Idr :=
  match s.top with
  | none => (.error .einval, s)
  | some p =>
    let n := (s.mem p).layer + 1
    let id := id &&& (2 ^ 31 - 1)
    if 1 <<< (6 * n) ≤ id then (.error .einval, s)
    else
      match leafLoop s id (n - 1) (some p) with
      | none => (.error .enoent, s)
      | some p =>
        if (s.mem p).bitmap.getLsbD (id &&& 63) then
          (.ok ((s.mem p).ary (id &&& 63)), s.setAry p (id &&& 63) ptr)
        else (.error .enoent, s)

end Find

end LinuxKernel.Idr
