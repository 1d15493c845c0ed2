import Mathlib.Algebra.Group.Nat.Defs
import Mathlib.Data.Set.Insert
import LinuxKernel.Base.Bitmap
import LinuxKernel.Base.Errno
import LinuxKernel.Base.Run

/-! # Extensible bitmaps

The sets of `security/selinux/ss/ebitmap.c`. A bitmap is a list of nodes, and a node has a fixed
number of words. `BUG_ON` and the use of a null pointer end in `none`.
-/

namespace LinuxKernel.Selinux

open Function Bitmap List

inductive Arch where
  | bits32
  | bits64
  deriving DecidableEq

namespace Arch

variable (a : Arch)

def unitSize : ℕ :=
  match a with
  | bits32 => 32
  | bits64 => 64

def unitNums : ℕ := (32 - a.unitSize / 8 - 4) / (a.unitSize / 8)

def size : ℕ := a.unitNums * a.unitSize

end Arch

structure Node (a : Arch) where
  startbit : ℕ
  maps : List (BitVec a.unitSize)
  length_maps : maps.length = a.unitNums

structure Ebitmap (a : Arch) where
  nodes : List (Node a)
  highbit : ℕ

variable {a : Arch}

def ebitmapInit : Ebitmap a := ⟨[], 0⟩

section Nodes

variable (n : Node a) (i bit startbit : ℕ)

theorem length_maps_setBit : (setBit n.maps i).length = a.unitNums :=
  (length_setBit ..).trans n.length_maps

theorem length_maps_clearBit : (clearBit n.maps i).length = a.unitNums :=
  (length_clearBit ..).trans n.length_maps

theorem length_maps_zero (a : Arch) :
    (replicate a.unitNums (0 : BitVec a.unitSize)).length = a.unitNums :=
  length_replicate

def Node.set : Node a := ⟨n.startbit, setBit n.maps i, length_maps_setBit n i⟩

def Node.clear : Node a := ⟨n.startbit, clearBit n.maps i, length_maps_clearBit n i⟩

/-- A node from `kzalloc`. -/
def Node.zero (a : Arch) : Node a := ⟨startbit, replicate a.unitNums 0, length_maps_zero a⟩

def ebitmapNodeGetBit : Option Bool :=
  if a.unitNums ≤ (bit - n.startbit) / a.unitSize then none
  else some (testBit n.maps (bit - n.startbit))

def ebitmapNodeSetBit : Option (Node a) :=
  if a.unitNums ≤ (bit - n.startbit) / a.unitSize then none
  else some (n.set (bit - n.startbit))

def ebitmapNodeClrBit : Option (Node a) :=
  if a.unitNums ≤ (bit - n.startbit) / a.unitSize then none
  else some (n.clear (bit - n.startbit))

end Nodes

section Bits

def getBitLoop (bit : ℕ) : List (Node a) → Option Bool
  | [] => some false
  | n :: ns =>
    if n.startbit ≤ bit then
      if bit < n.startbit + a.size then ebitmapNodeGetBit n bit else getBitLoop bit ns
    else some false

def ebitmapGetBit (e : Ebitmap a) (bit : ℕ) : Option Bool :=
  if e.highbit < bit then some false else getBitLoop bit e.nodes

/-- The nodes before `n` and those from `n` on, at the end of the loop of `ebitmap_set_bit`. -/
def seek (bit : ℕ) : List (Node a) → List (Node a) × List (Node a)
  | [] => ([], [])
  | n :: ns =>
    if n.startbit ≤ bit ∧ n.startbit + a.size ≤ bit then ((n :: (seek bit ns).1), (seek bit ns).2)
    else ([], n :: ns)

/-- `ebitmap_set_bit`, where `kzalloc` gives memory if `alloc` holds. -/
def ebitmapSetBit (e : Ebitmap a) (bit : ℕ) (value alloc : Bool) :
    Option (Option Errno × Ebitmap a) :=
  let (prev, rest) := seek bit e.nodes
  match rest.head?.filter fun n => n.startbit ≤ bit with
  | some n =>
    if value then do
      let n ← ebitmapNodeSetBit n bit
      return (none, { e with nodes := prev ++ n :: rest.tail })
    else do
      let n ← ebitmapNodeClrBit n bit
      if findNextBit n.maps a.size 0 < a.size then
        return (none, { e with nodes := prev ++ n :: rest.tail })
      else
        -- drop this node from the bitmap
        let highbit := if rest.tail.isEmpty then prev.getLast?.elim 0 fun p => p.startbit + a.size
          else e.highbit
        return (none, ⟨prev ++ rest.tail, highbit⟩)
  | none =>
    if !value then some (none, e)
    else if !alloc then some (some .enomem, e)
    else do
      let new ← ebitmapNodeSetBit (.zero (bit - bit % a.size) a) bit
      let highbit := if rest.isEmpty then new.startbit + a.size else e.highbit
      return (none, ⟨prev ++ new :: rest, highbit⟩)

def ebitmapCmp (e₁ e₂ : Ebitmap a) : Bool :=
  if e₁.highbit ≠ e₂.highbit then false else loop e₁.nodes e₂.nodes
where
  loop : List (Node a) → List (Node a) → Bool
    | [], [] => true
    | n₁ :: ns₁, n₂ :: ns₂ =>
      if n₁.startbit = n₂.startbit ∧ n₁.maps = n₂.maps then loop ns₁ ns₂ else false
    | _, _ => false

def ebitmapContains (e₁ e₂ : Ebitmap a) : Bool :=
  if e₁.highbit < e₂.highbit then false else loop e₁.nodes e₂.nodes
where
  loop : List (Node a) → List (Node a) → Bool
    | _, [] => true
    | [], _ :: _ => false
    | n₁ :: ns₁, n₂ :: ns₂ =>
      if n₁.startbit < n₂.startbit then loop ns₁ (n₂ :: ns₂)
      else if n₁.startbit = n₂.startbit then
        if (List.range a.unitNums).all fun i =>
            n₁.maps.getD i 0 &&& n₂.maps.getD i 0 == n₂.maps.getD i 0 then loop ns₁ ns₂
        else false
      else false

/-- The loop of `ebitmap_cpy`, where the `i`-th `kzalloc` gives memory if `alloc i` holds. -/
def cpyLoop (alloc : ℕ → Bool) : List (Node a) → ℕ → Option (List (Node a))
  | [], _ => some []
  | n :: ns, i => if alloc i then (cpyLoop alloc ns (i + 1)).map (n :: ·) else none

/-- `ebitmap_cpy` among bitmaps at addresses. The destination is cleared before the source is
read. -/
def ebitmapCpy {ι : Type} [DecidableEq ι] (store : ι → Ebitmap a) (dst src : ι)
    (alloc : ℕ → Bool) : Option Errno × Ebitmap a :=
  let store := update store dst ebitmapInit
  match cpyLoop alloc (store src).nodes 0 with
  | none => (some .enomem, ebitmapInit)
  | some nodes => (none, ⟨nodes, (store src).highbit⟩)

end Bits

section Iterate

/-- The loop over the nodes in `ebitmap_start_positive` and `ebitmap_next_positive`. -/
def scan (length : ℕ) : List (Node a) → ℕ × List (Node a)
  | [] => (length, [])
  | n :: ns =>
    let ofs := findNextBit n.maps a.size 0
    if ofs < a.size then (n.startbit + ofs, n :: ns) else scan length ns

def ebitmapStartPositive (e : Ebitmap a) : ℕ × List (Node a) := scan e.highbit e.nodes

def ebitmapNextPositive (e : Ebitmap a) (bit : ℕ) : List (Node a) → Option (ℕ × List (Node a))
  | [] => none
  | n :: ns =>
    let ofs := findNextBit n.maps a.size (bit - n.startbit + 1)
    some (if ofs < a.size then (ofs + n.startbit, n :: ns) else scan e.highbit ns)

/-- The bits that `ebitmap_for_each_positive_bit` visits from a position on. -/
def visit (e : Ebitmap a) : ℕ → ℕ × List (Node a) → Option (List ℕ)
  | 0, _ => none
  | fuel + 1, (bit, n) =>
    if bit < e.highbit then do
      let next ← ebitmapNextPositive e bit n
      let bits ← visit e fuel next
      return bit :: bits
    else some []

def ebitmapForEachPositiveBit (e : Ebitmap a) (fuel : ℕ) : Option (List ℕ) :=
  visit e fuel (ebitmapStartPositive e)

end Iterate

section Runs

variable {ι : Type} [DecidableEq ι]

structure Traced (a : Arch) (ι : Type) where
  store : ι → Ebitmap a
  sets : ι → Set ℕ

inductive Action (ι : Type) where
  | setBit (i : ι) (bit : ℕ) (value alloc : Bool)
  | cpy (dst src : ι) (alloc : ℕ → Bool)

/-- A call that has no memory leaves the set or, for a copy, makes it empty. A copy of a bitmap onto
itself is empty as well: `ebitmap_cpy` initialises `dst` before it reads `src`. -/
inductive Step : Traced a ι → Action ι → Traced a ι → Prop
  | setBit {s : Traced a ι} {i : ι} {bit : ℕ} {value alloc : Bool} {err : Option Errno}
      {e : Ebitmap a} : bit < 2 ^ 32 - a.size →
      ebitmapSetBit (s.store i) bit value alloc = some (err, e) →
      Step s (.setBit i bit value alloc)
        ⟨update s.store i e, update s.sets i (if err.isSome then s.sets i
          else if value then insert bit (s.sets i) else s.sets i \ {bit})⟩
  | cpy {s : Traced a ι} {dst src : ι} {alloc : ℕ → Bool} {err : Option Errno} {e : Ebitmap a} :
      ebitmapCpy s.store dst src alloc = (err, e) →
      Step s (.cpy dst src alloc)
        ⟨update s.store dst e,
          update s.sets dst (if err.isSome ∨ dst = src then ∅ else s.sets src)⟩

def initial (a : Arch) (ι : Type) : Traced a ι := ⟨fun _ => ebitmapInit, fun _ => ∅⟩

end Runs

end LinuxKernel.Selinux
