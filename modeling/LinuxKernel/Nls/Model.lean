import Mathlib.Algebra.Group.Nat.Defs

/-! # Conversion between UTF-8 and UTF-16

The functions of `fs/nls/nls_base.c`. A string is given by its units up to its length, and a pointer
into it by the units that follow. A `long` has `w` bits.
-/

namespace LinuxKernel.Nls

structure Utf8Table where
  cmask : ℕ
  cval : ℕ
  shift : ℕ
  lmask : ℕ
  lval : ℕ

def utf8Table : List Utf8Table :=
  [⟨0x80, 0x00, 0 * 6, 0x7F, 0⟩,
    ⟨0xE0, 0xC0, 1 * 6, 0x7FF, 0x80⟩,
    ⟨0xF0, 0xE0, 2 * 6, 0xFFFF, 0x800⟩,
    ⟨0xF8, 0xF0, 3 * 6, 0x1FFFFF, 0x10000⟩,
    ⟨0xFC, 0xF8, 4 * 6, 0x3FFFFFF, 0x200000⟩,
    ⟨0xFE, 0xFC, 5 * 6, 0x7FFFFFFF, 0x4000000⟩]

def unicodeMax : ℕ := 0x0010ffff
def planeSize : ℕ := 0x00010000
def surrogateMask : ℕ := 0xfffff800
def surrogatePair : ℕ := 0x0000d800
def surrogateLow : ℕ := 0x00000400
def surrogateBits : ℕ := 0x000003ff

section Characters

/-- The loop of `utf8_to_utf32`: `s` has the bytes behind those that are in `l`. -/
def utf8ToUtf32Loop (w c0 : ℕ) : List Utf8Table → ℕ → ℕ → List UInt8 → Option (ℕ × ℕ)
  | [], _, _, _ => none
  | t :: ts, nc, l, s =>
    let nc := nc + 1
    if c0 &&& t.cmask = t.cval then
      let l := l &&& t.lmask
      if l < t.lval ∨ unicodeMax < l ∨ l &&& surrogateMask = surrogatePair then none
      else some (l, nc)
    else
      match s with
      | [] => none
      | x :: s =>
        let c := (x.toNat ^^^ 0x80) &&& 0xFF
        if c &&& 0xC0 ≠ 0 then none
        else utf8ToUtf32Loop w c0 ts nc ((l <<< 6 ||| c) % 2 ^ w) s

/-- `utf8_to_utf32` gives the character at the start of a string and its length in bytes. -/
def utf8ToUtf32 (w : ℕ) : List UInt8 → Option (ℕ × ℕ)
  | [] => none
  | x :: s => utf8ToUtf32Loop w x.toNat utf8Table 0 x.toNat s

/-- The bytes behind the first one, for `c = 6 * k`. -/
def tailBytes (l : ℕ) : ℕ → List UInt8
  | 0 => []
  | k + 1 => UInt8.ofNat (0x80 ||| (l >>> (6 * k) &&& 0x3F)) :: tailBytes l k

def utf32ToUtf8Loop (l : ℕ) : List Utf8Table → ℕ → Option (List UInt8)
  | [], _ => none
  | _, 0 => none
  | t :: ts, maxlen + 1 =>
    if l ≤ t.lmask then some (UInt8.ofNat (t.cval ||| l >>> t.shift) :: tailBytes l (t.shift / 6))
    else utf32ToUtf8Loop l ts maxlen

def utf32ToUtf8 (u maxlen : ℕ) : Option (List UInt8) :=
  if unicodeMax < u ∨ u &&& surrogateMask = surrogatePair then none
  else utf32ToUtf8Loop u utf8Table maxlen

end Characters

section Strings

/-- The loop of `utf8s_to_utf16s`, which has at most as many rounds as the string has bytes. -/
def utf8sToUtf16sLoop (w : ℕ) : ℕ → List UInt8 → Option (List UInt16)
  | 0, _ => some []
  | _ + 1, [] => some []
  | fuel + 1, x :: s =>
    if x = 0 then some []
    else if x &&& 0x80 ≠ 0 then do
      let (u, size) ← utf8ToUtf32 w (x :: s)
      let rest ← utf8sToUtf16sLoop w fuel ((x :: s).drop size)
      if planeSize ≤ u then
        let u := u - planeSize
        return UInt16.ofNat (surrogatePair ||| (u >>> 10 &&& surrogateBits)) ::
          UInt16.ofNat (surrogatePair ||| surrogateLow ||| (u &&& surrogateBits)) :: rest
      else return UInt16.ofNat u :: rest
    else do
      let rest ← utf8sToUtf16sLoop w fuel s
      return x.toUInt16 :: rest

def utf8sToUtf16s (w : ℕ) (s : List UInt8) : Option (List UInt16) := utf8sToUtf16sLoop w s.length s

inductive Utf16Endian where
  | host
  | little
  | big
  deriving DecidableEq

def swab16 (c : ℕ) : ℕ := c % 256 * 256 + c / 256

/-- `get_utf16` on a machine of either byte order. -/
def getUtf16 (bigEndian : Bool) (endian : Utf16Endian) (c : UInt16) : ℕ :=
  match endian with
  | .host => c.toNat
  | .little => if bigEndian then swab16 c.toNat else c.toNat
  | .big => if bigEndian then c.toNat else swab16 c.toNat

/-- The loop of `utf16s_to_utf8s` on the values of the units. -/
def utf16sToUtf8sLoop : List ℕ → ℕ → List UInt8
  | [], _ => []
  | _, 0 => []
  | u :: pwcs, maxlen + 1 =>
    if u = 0 then []
    else if 0x7f < u then
      if u &&& surrogateMask = surrogatePair then
        if u &&& surrogateLow ≠ 0 then utf16sToUtf8sLoop pwcs (maxlen + 1)
        else
          match pwcs with
          | [] => []
          | v :: pwcs' =>
            if v &&& surrogateMask ≠ surrogatePair ∨ v &&& surrogateLow = 0 then
              utf16sToUtf8sLoop (v :: pwcs') (maxlen + 1)
            else
              let u := planeSize + (u &&& surrogateBits) <<< 10 + (v &&& surrogateBits)
              match utf32ToUtf8 u (maxlen + 1) with
              | none => utf16sToUtf8sLoop pwcs' (maxlen + 1)
              | some bytes => bytes ++ utf16sToUtf8sLoop pwcs' (maxlen + 1 - bytes.length)
      else
        match utf32ToUtf8 u (maxlen + 1) with
        | none => utf16sToUtf8sLoop pwcs (maxlen + 1)
        | some bytes => bytes ++ utf16sToUtf8sLoop pwcs (maxlen + 1 - bytes.length)
    else UInt8.ofNat u :: utf16sToUtf8sLoop pwcs maxlen

/-- `utf16s_to_utf8s`, which does nothing if `maxlen` is not positive. -/
def utf16sToUtf8s (bigEndian : Bool) (endian : Utf16Endian) (pwcs : List UInt16) (maxlen : ℤ) :
    List UInt8 :=
  utf16sToUtf8sLoop (pwcs.map (getUtf16 bigEndian endian)) maxlen.toNat

end Strings

end LinuxKernel.Nls
