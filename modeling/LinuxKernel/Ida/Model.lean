import LinuxKernel.Idr.Model

/-! # Ids without pointers

An ida gives out ids that have no pointer. Its idr has a bitmap for each chunk of `IDA_BITMAP_BITS`
ids, which is 960 on machines with words of 64 bits, and the bit of a chunk in the idr says that all
of its ids are taken.
-/

namespace LinuxKernel.Ida

open Function Idr

structure Bitmap where
  nrBusy : ℤ
  bitmap : BitVec 960

structure Ida where
  idr : Idr.Idr
  freeBitmap : Option ℕ
  bmem : ℕ → Bitmap

def idaInit (mem : ℕ → Layer) (bmem : ℕ → Bitmap) : Ida := ⟨idrInit mem, none, bmem⟩

def freeBitmap (s : Ida) (b : ℕ) : Ida :=
  if s.freeBitmap.isNone then { s with freeBitmap := some b } else s

/-- The layers and the bitmap are what the allocator returns. -/
def idaPreGet (s : Ida) (layers : List ℕ) (bitmap : Option ℕ) : Bool × Ida :=
  match idrPreGet layers s.idr with
  | (false, idr) => (false, { s with idr := idr })
  | (true, idr) =>
    let s := { s with idr := idr }
    if s.freeBitmap.isNone then
      match bitmap with
      | none => (false, s)
      | some b => (true, freeBitmap s b)
    else (true, s)

/-- The bitmap of a slot of the leaf `p`, which gets the free bitmap if it has none. -/
def chunkBitmap (s : Ida) (p n : ℕ) : Option (ℕ × Ida) :=
  match (s.idr.mem p).ary n with
  | some b => some (b, s)
  | none => s.freeBitmap.map fun b => (b,
    { idr := (s.idr.setAry p n (some b)).addCount p 1, freeBitmap := none,
      bmem := update s.bmem b ⟨0, 0⟩ })

/-- Each allocation throws away one of the layers that are left. -/
def dropLayer (s : Ida) : Ida :=
  if s.idr.idFree ≠ [] ∨ s.freeBitmap.isSome then
    match getFromFreeList s.idr with
    | none => s
    | some (_, idr) => { s with idr := idr }
  else s

/-- A bit of the bitmap `b` of the chunk `idrId` is taken. -/
def takeBit (fuel : ℕ) (s : Ida) (pa : Path) (p idrId b t : ℕ) : Option Ida :=
  let s := { s with
    bmem := update s.bmem b ⟨(s.bmem b).nrBusy + 1, Word.set (s.bmem b).bitmap t⟩ }
  if (s.bmem b).nrBusy = 960 then
    (idrMarkFull pa fuel p 0 idrId s.idr).map fun idr => dropLayer { s with idr := idr }
  else some (dropLayer s)

/-- The body of `ida_get_new_above`, which is run again when a chunk has no free id from the offset
on. -/
def getLoop (fuel : ℕ) : ℕ → ℕ → ℕ → Ida → Option (Except Errno ℕ × Ida)
  | 0, _, _, _ => none
  | n + 1, idrId, offset, s =>
    (idrGetEmptySlot fuel s.idr idrId).bind fun
    | (.id t, pa, idr) =>
      let s := { s with idr := idr }
      if 2 ^ 31 ≤ t * 960 then some (.error .enospc, s)
      else
        let offset := if t ≠ idrId then 0 else offset
        (pa 0).bind fun p =>
        match chunkBitmap s p (t &&& 63) with
        | none => some (.error .eagain, s)
        | some (b, s) =>
          let m := Word.findNextBit (~~~(s.bmem b).bitmap) offset
          if m = 960 then getLoop fuel n (t + 1) 0 s
          else if 2 ^ 31 ≤ t * 960 + m then some (.error .enospc, s)
          else (takeBit fuel s pa p t b m).map fun s => (.ok (t * 960 + m), s)
    | (rv, _, idr) => some (idrRcToErrno rv, { s with idr := idr })

def idaGetNewAbove (fuel : ℕ) (s : Ida) (startingId : ℕ) : Option (Except Errno ℕ × Ida) :=
  getLoop fuel fuel (startingId / 960) (startingId % 960) s

/-- The way down is that of `sub_remove`, whose links are not needed. -/
def idaRemove (s : Ida) (id : ℕ) : Option Ida :=
  let idrId := id / 960
  let offset := id % 960
  match clearPath idrId (s.idr.layers - 1) s.idr.top [.top] s.idr with
  | (none, _, idr) => some { s with idr := idr }
  | (some p, _, idr) =>
    let n := idrId &&& 63
    let idr := idr.clearBit p n
    ((idr.mem p).ary n).bind fun b =>
    if (s.bmem b).bitmap.getLsbD offset then
      let s : Ida := { s with
        idr := idr
        bmem := update s.bmem b ⟨(s.bmem b).nrBusy - 1, Word.clear (s.bmem b).bitmap offset⟩ }
      if (s.bmem b).nrBusy = 0 then
        -- the bit is set again for `idr_remove`, which wants an id that is in use
        (idrRemove (s.idr.setBit p n) idrId).map fun idr => freeBitmap { s with idr := idr } b
      else some s
    else some { s with idr := idr }

/-- The list has what the allocator returns each time that it is asked. -/
def simpleGetLoop (fuel start max : ℕ) : List (List ℕ × Option ℕ) → Ida →
    Option (Except Errno ℕ × Ida)
  | [], _ => none
  | (layers, bitmap) :: rest, s =>
    match idaPreGet s layers bitmap with
    | (false, s) => some (.error .enomem, s)
    | (true, s) => (idaGetNewAbove fuel s start).bind fun
      | (.ok id, s) =>
        if max < id then (idaRemove s id).map fun s => (.error .enospc, s) else some (.ok id, s)
      | (.error .eagain, s) => simpleGetLoop fuel start max rest s
      | (.error e, s) => some (.error e, s)

/-- `none` is a `BUG_ON`. -/
def idaSimpleGet (fuel : ℕ) (s : Ida) (start stop : ℕ) (allocs : List (List ℕ × Option ℕ)) :
    Option (Except Errno ℕ × Ida) :=
  if 2 ^ 31 ≤ start ∨ 2 ^ 31 ≤ stop then none
  else if stop = 0 then simpleGetLoop fuel start (2 ^ 31) allocs s
  else if stop < start then none
  else simpleGetLoop fuel start (stop - 1) allocs s

def idaSimpleRemove (s : Ida) (id : ℕ) : Option Ida :=
  if 2 ^ 31 ≤ id then none else idaRemove s id

end LinuxKernel.Ida
