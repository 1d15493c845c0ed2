import Mathlib.Data.Nat.Bitwise
import LinuxKernel.Nls.Model

/-! # One character

`utf32_to_utf8` writes the encoding of a character, and `utf8_to_utf32` accepts exactly the
encodings.
-/

namespace LinuxKernel.Nls

open Nat String

section Masks

variable {l u c x : ℕ}

theorem and_surrogateMask (h : l < 2 ^ 32) : l &&& surrogateMask = l / 2048 * 2048 := by
  have hmask : surrogateMask = (2 ^ 21 - 1) <<< 11 := by decide
  have hdiv : l / 2048 * 2048 = (l >>> 11) <<< 11 := by
    rw [shiftLeft_eq, shiftRight_eq_div_pow]
  rw [hmask, hdiv]
  refine eq_of_testBit_eq fun i => ?_
  rw [testBit_and, testBit_shiftLeft, testBit_shiftLeft,
    testBit_two_pow_sub_one]
  by_cases hi : 11 ≤ i
  · have hadd : 11 + (i - 11) = i := by omega
    by_cases hlt : i < 32
    · simp [hi, show i - 11 < 21 by omega]
    · have hfalse : l.testBit i = false :=
        testBit_lt_two_pow (lt_of_lt_of_le h (Nat.pow_le_pow_right (by decide) (by omega)))
      simp [hadd, hfalse]
  · simp [hi]

theorem isSurrogate_iff (h : l < 2 ^ 32) :
    l &&& surrogateMask = surrogatePair ↔ 0xD800 ≤ l ∧ l < 0xE000 := by
  rw [and_surrogateMask h]
  simp only [surrogatePair]
  omega

theorem and_surrogateLow : u &&& surrogateLow = 0 ↔ u / 1024 % 2 = 0 := by
  have hlow : surrogateLow = 2 ^ 10 := by decide
  rw [hlow, and_two_pow, testBit_eq_decide_div_mod_eq]
  by_cases h : u / 2 ^ 10 % 2 = 1
  · simp only [h, decide_true, Bool.toNat_true]
    omega
  · simp only [h, decide_false, Bool.toNat_false]
    omega

theorem and_surrogateBits : u &&& surrogateBits = u % 1024 := and_two_pow_sub_one_eq_mod u 10

theorem shiftLeft_or (h : c < 64) : l <<< 6 ||| c = l * 64 + c := by
  rw [← shiftLeft_add_eq_or_of_lt h, shiftLeft_eq]

theorem tail_iff : ∀ x < 256, ((x ^^^ 0x80) &&& 0xFF) &&& 0xC0 = 0 ↔ 0x80 ≤ x ∧ x < 0xC0 := by
  decide +kernel

theorem tail_eq : ∀ x < 256, 0x80 ≤ x → x < 0xC0 → (x ^^^ 0x80) &&& 0xFF = x - 0x80 := by
  decide +kernel

theorem first_iff : ∀ x < 256, (x &&& 0x80 = 0x00 ↔ x < 0x80) ∧
    (x &&& 0xE0 = 0xC0 ↔ 0xC0 ≤ x ∧ x < 0xE0) ∧ (x &&& 0xF0 = 0xE0 ↔ 0xE0 ≤ x ∧ x < 0xF0) ∧
    (x &&& 0xF8 = 0xF0 ↔ 0xF0 ≤ x ∧ x < 0xF8) := by
  decide +kernel

end Masks

section Encode

variable {c : Char} {u maxlen : ℕ}

theorem toNat_le (c : Char) : c.toNat ≤ unicodeMax ∧ ¬ (0xD800 ≤ c.toNat ∧ c.toNat < 0xE000) := by
  have h : c.toNat < 0xd800 ∨ 0xdfff < c.toNat ∧ c.toNat < 0x110000 := c.valid
  simp only [unicodeMax]
  omega

theorem toNat_lt (c : Char) : c.toNat < 0x110000 := lt_succ_of_le (toNat_le c).1

theorem exists_char (h : u ≤ unicodeMax) (hs : ¬ (0xD800 ≤ u ∧ u < 0xE000)) :
    ∃ c : Char, c.toNat = u := by
  simp only [unicodeMax] at h
  have hu : u.isValidChar := by
    omega
  exact ⟨Char.ofNatAux u hu, rfl⟩

theorem encode_one (h : c.toNat < 0x80) : utf8EncodeChar c = [UInt8.ofNat c.toNat] :=
  if_pos (le_of_lt_succ h)

theorem encode_two (h : 0x80 ≤ c.toNat) (h' : c.toNat < 0x800) : utf8EncodeChar c =
    [UInt8.ofNat (0xC0 + c.toNat / 64), UInt8.ofNat (0x80 + c.toNat % 64)] := by
  have hval : c.val.toNat = c.toNat := rfl
  simp only [utf8EncodeChar, hval]
  rw [if_neg (by omega), if_pos (by omega), mod_eq_of_lt (by omega),
    add_comm 192, add_comm 128]

theorem encode_three (h : 0x800 ≤ c.toNat) (h' : c.toNat < 0x10000) : utf8EncodeChar c =
    [UInt8.ofNat (0xE0 + c.toNat / 4096), UInt8.ofNat (0x80 + c.toNat / 64 % 64),
      UInt8.ofNat (0x80 + c.toNat % 64)] := by
  have hval : c.val.toNat = c.toNat := rfl
  simp only [utf8EncodeChar, hval]
  rw [if_neg (by omega), if_neg (by omega), if_pos (by omega),
    mod_eq_of_lt (by omega), add_comm 224, add_comm 128,
    add_comm 128]

theorem encode_four (h : 0x10000 ≤ c.toNat) : utf8EncodeChar c =
    [UInt8.ofNat (0xF0 + c.toNat / 262144), UInt8.ofNat (0x80 + c.toNat / 4096 % 64),
      UInt8.ofNat (0x80 + c.toNat / 64 % 64), UInt8.ofNat (0x80 + c.toNat % 64)] := by
  have hval : c.val.toNat = c.toNat := rfl
  have hmax := toNat_lt c
  simp only [utf8EncodeChar, hval]
  rw [if_neg (by omega), if_neg (by omega), if_neg (by omega),
    mod_eq_of_lt (by omega), add_comm 240, add_comm 128,
    add_comm 128, add_comm 128]

theorem tailByte_eq (l k : ℕ) : 0x80 ||| (l >>> k &&& 0x3F) = 0x80 + l / 2 ^ k % 64 := by
  have hand : l >>> k &&& 0x3F = l / 2 ^ k % 64 := by
    rw [shiftRight_eq_div_pow]
    exact and_two_pow_sub_one_eq_mod _ 6
  rw [hand]
  exact (shiftLeft_add_eq_or_of_lt (i := 6) (mod_lt _ (by decide)) 2).symm

theorem firstByte_eq {l k i : ℕ} (a : ℕ) (h : l / 2 ^ k < 2 ^ i) :
    a <<< i ||| l >>> k = a <<< i + l / 2 ^ k := by
  rw [← shiftRight_eq_div_pow] at h ⊢
  exact (shiftLeft_add_eq_or_of_lt h a).symm

/-- The loop stops at the first entry of the table that has room for the character. -/
theorem utf32ToUtf8Loop_append {l : ℕ} {t : Utf8Table} (ts : List Utf8Table) {ts' : List Utf8Table}
    (hskip : ∀ t ∈ ts, t.lmask < l) (h : l ≤ t.lmask) {bytes : List UInt8}
    (hbytes : UInt8.ofNat (t.cval ||| l >>> t.shift) :: tailBytes l (t.shift / 6) = bytes)
    (maxlen : ℕ) : utf32ToUtf8Loop l (ts ++ t :: ts') maxlen =
      if ts.length + 1 ≤ maxlen then some bytes else none := by
  induction ts generalizing maxlen with
  | nil =>
    cases maxlen with
    | zero => rfl
    | succ maxlen =>
      rw [List.nil_append, utf32ToUtf8Loop, if_pos h, hbytes]
      exact (if_pos (by simp)).symm
  | cons t' ts ih =>
    obtain ⟨hlt, hskip⟩ := List.forall_mem_cons.mp hskip
    cases maxlen with
    | zero => rfl
    | succ maxlen => simp [utf32ToUtf8Loop, Nat.not_le_of_lt hlt, ih hskip]

/-- `utf32_to_utf8` writes the encoding if it fits. -/
theorem utf32ToUtf8_eq (c : Char) (maxlen : ℕ) : utf32ToUtf8 c.toNat maxlen =
    if (utf8EncodeChar c).length ≤ maxlen then some (utf8EncodeChar c) else none := by
  obtain ⟨hmax, hs⟩ := toNat_le c
  have hlt : c.toNat < 2 ^ 32 := lt_of_le_of_lt hmax (by decide)
  have hok : ¬ (unicodeMax < c.toNat ∨ c.toNat &&& surrogateMask = surrogatePair) := by
    rw [isSurrogate_iff hlt]
    omega
  rw [utf32ToUtf8, if_neg hok]
  simp only [unicodeMax] at hmax
  have htail : 0x80 ||| (c.toNat >>> 0 &&& 0x3F) = 0x80 + c.toNat % 64 := by
    rw [tailByte_eq, pow_zero, Nat.div_one]
  have htail6 : 0x80 ||| (c.toNat >>> 6 &&& 0x3F) = 0x80 + c.toNat / 64 % 64 := tailByte_eq ..
  have htail12 : 0x80 ||| (c.toNat >>> 12 &&& 0x3F) = 0x80 + c.toNat / 4096 % 64 := tailByte_eq ..
  rcases lt_or_ge c.toNat 0x80 with h1 | h1
  · rw [encode_one h1]
    refine utf32ToUtf8Loop_append [] (by simp) (by dsimp only; omega) ?_ maxlen
    simp [tailBytes]
  rcases lt_or_ge c.toNat 0x800 with h2 | h2
  · rw [encode_two h1 h2]
    refine utf32ToUtf8Loop_append (utf8Table.take 1) (by simp [utf8Table]; omega)
      (by dsimp only; omega) ?_ maxlen
    have hfirst : 0xC0 ||| c.toNat >>> 6 = 0xC0 + c.toNat / 64 :=
      firstByte_eq (i := 5) 6 (by omega)
    rw [← hfirst, ← htail]
    rfl
  rcases lt_or_ge c.toNat 0x10000 with h3 | h3
  · rw [encode_three h2 h3]
    refine utf32ToUtf8Loop_append (utf8Table.take 2) (by simp [utf8Table]; omega)
      (by dsimp only; omega) ?_ maxlen
    have hfirst : 0xE0 ||| c.toNat >>> 12 = 0xE0 + c.toNat / 4096 :=
      firstByte_eq (i := 4) 14 (by omega)
    rw [← hfirst, ← htail, ← htail6]
    rfl
  · rw [encode_four h3]
    refine utf32ToUtf8Loop_append (utf8Table.take 3) (by simp [utf8Table]; omega)
      (by dsimp only; omega) ?_ maxlen
    have hfirst : 0xF0 ||| c.toNat >>> 18 = 0xF0 + c.toNat / 262144 :=
      firstByte_eq (i := 3) 30 (by omega)
    rw [← hfirst, ← htail, ← htail6, ← htail12]
    rfl

end Encode

section Decode

variable {w c0 l nc : ℕ} {t : Utf8Table} {ts : List Utf8Table} {s : List UInt8} {x : UInt8}

abbrev IsTail (x : UInt8) : Prop := 0x80 ≤ x.toNat ∧ x.toNat < 0xC0

theorem utf8ToUtf32Loop_next (hfirst : c0 &&& t.cmask ≠ t.cval)
    (hx : IsTail x) (hw : 32 ≤ w) (hl : l < 2 ^ 26) :
    utf8ToUtf32Loop w c0 (t :: ts) nc l (x :: s) =
      utf8ToUtf32Loop w c0 ts (nc + 1) (l * 64 + (x.toNat - 0x80)) s := by
  have hxlt := x.toNat_lt
  have hval := tail_eq x.toNat hxlt hx.1 hx.2
  have htail := (tail_iff x.toNat hxlt).mpr hx
  rw [hval] at htail
  have hpow : 2 ^ 32 ≤ 2 ^ w := Nat.pow_le_pow_right (by decide) hw
  rw [utf8ToUtf32Loop]
  simp only [hfirst, if_false, hval, htail, ne_eq, not_true_eq_false]
  rw [shiftLeft_or (by omega), mod_eq_of_lt (by omega)]

theorem utf8ToUtf32Loop_next_cases {r : ℕ × ℕ} (hfirst : c0 &&& t.cmask ≠ t.cval)
    (h : utf8ToUtf32Loop w c0 (t :: ts) nc l s = some r) :
    ∃ x s', s = x :: s' ∧ IsTail x := by
  cases s with
  | nil =>
    rw [utf8ToUtf32Loop] at h
    simp [hfirst] at h
  | cons x s' =>
    refine ⟨x, s', rfl, (tail_iff x.toNat x.toNat_lt).mp ?_⟩
    by_contra hne
    rw [utf8ToUtf32Loop] at h
    simp [hfirst, hne] at h

theorem utf8ToUtf32Loop_found {u : ℕ} {r : ℕ × ℕ} (hfirst : c0 &&& t.cmask = t.cval)
    (hu : l &&& t.lmask = u) (hlt : u < 2 ^ 32) :
    utf8ToUtf32Loop w c0 (t :: ts) nc l s = some r ↔
      r = (u, nc + 1) ∧ t.lval ≤ u ∧ u ≤ unicodeMax ∧ ¬ (0xD800 ≤ u ∧ u < 0xE000) := by
  rw [utf8ToUtf32Loop.eq_def]
  simp only [hfirst, if_true, hu, isSurrogate_iff hlt]
  split
  · simp only [reduceCtorEq, false_iff]
    omega
  · rw [Option.some_inj]
    refine ⟨fun h => ⟨h.symm, by omega, by omega, by omega⟩, fun h => h.1.symm⟩

/-- No character has an encoding of five or six bytes. -/
theorem utf8ToUtf32Loop_eq_none : ∀ {ts : List Utf8Table} {nc l : ℕ} {s : List UInt8},
    (∀ t ∈ ts, unicodeMax < t.lval) → utf8ToUtf32Loop w c0 ts nc l s = none
  | [], _, _, _, _ => rfl
  | t :: ts, nc, l, s, h => by
    obtain ⟨ht, hts⟩ := List.forall_mem_cons.mp h
    rw [utf8ToUtf32Loop.eq_def]
    dsimp only
    split
    · exact if_pos (by omega)
    · cases s with
      | nil => rfl
      | cons x s =>
        dsimp only
        split
        · rfl
        · exact utf8ToUtf32Loop_eq_none hts

variable {y z v : UInt8} {r : ℕ × ℕ} {u : ℕ}

theorem utf8ToUtf32_one (hx : x.toNat < 0x80) : utf8ToUtf32 w (x :: s) = some r ↔
    r = (x.toNat, 1) := by
  have hl : x.toNat &&& 0x7F = x.toNat := (and_two_pow_sub_one_eq_mod _ 7).trans (mod_eq_of_lt hx)
  rw [utf8ToUtf32, utf8Table,
    utf8ToUtf32Loop_found ((first_iff _ x.toNat_lt).1.mpr hx) hl (by omega)]
  simp only [unicodeMax]
  exact ⟨fun h => h.1, fun h => ⟨h, by omega, by omega, by omega⟩⟩

theorem utf8ToUtf32_two (hu : (x.toNat - 0xC0) * 64 + (y.toNat - 0x80) = u)
    (hx : 0xC0 ≤ x.toNat ∧ x.toNat < 0xE0) (hy : IsTail y) (hw : 32 ≤ w) :
    utf8ToUtf32 w (x :: y :: s) = some r ↔ r = (u, 2) ∧ 0x80 ≤ u := by
  obtain ⟨h1, h2, -⟩ := first_iff _ x.toNat_lt
  have hl : (x.toNat * 64 + (y.toNat - 0x80)) &&& 0x7FF = u := by
    refine (and_two_pow_sub_one_eq_mod _ 11).trans ?_
    omega
  rw [utf8ToUtf32, utf8Table, utf8ToUtf32Loop_next (by dsimp only; omega) hy hw (by omega),
    utf8ToUtf32Loop_found (h2.mpr hx) hl (by omega)]
  refine and_congr_right fun _ => ?_
  simp only [unicodeMax]
  omega

theorem utf8ToUtf32_three
    (hu : (x.toNat - 0xE0) * 4096 + (y.toNat - 0x80) * 64 + (z.toNat - 0x80) = u)
    (hx : 0xE0 ≤ x.toNat ∧ x.toNat < 0xF0) (hy : IsTail y)
    (hz : IsTail z) (hw : 32 ≤ w) :
    utf8ToUtf32 w (x :: y :: z :: s) = some r ↔
      r = (u, 3) ∧ 0x800 ≤ u ∧ ¬ (0xD800 ≤ u ∧ u < 0xE000) := by
  obtain ⟨h1, h2, h3, -⟩ := first_iff _ x.toNat_lt
  have hl : ((x.toNat * 64 + (y.toNat - 0x80)) * 64 + (z.toNat - 0x80)) &&& 0xFFFF = u := by
    refine (and_two_pow_sub_one_eq_mod _ 16).trans ?_
    omega
  rw [utf8ToUtf32, utf8Table, utf8ToUtf32Loop_next (by dsimp only; omega) hy hw (by omega),
    utf8ToUtf32Loop_next (by dsimp only; omega) hz hw (by omega),
    utf8ToUtf32Loop_found (h3.mpr hx) hl (by omega)]
  refine and_congr_right fun _ => ?_
  simp only [unicodeMax]
  omega

theorem utf8ToUtf32_four (hu : (x.toNat - 0xF0) * 262144 + (y.toNat - 0x80) * 4096 +
      (z.toNat - 0x80) * 64 + (v.toNat - 0x80) = u)
    (hx : 0xF0 ≤ x.toNat ∧ x.toNat < 0xF8) (hy : IsTail y)
    (hz : IsTail z) (hv : IsTail v) (hw : 32 ≤ w) :
    utf8ToUtf32 w (x :: y :: z :: v :: s) = some r ↔ r = (u, 4) ∧ 0x10000 ≤ u ∧ u ≤ unicodeMax := by
  obtain ⟨h1, h2, h3, h4⟩ := first_iff _ x.toNat_lt
  have hl : (((x.toNat * 64 + (y.toNat - 0x80)) * 64 + (z.toNat - 0x80)) * 64 + (v.toNat - 0x80))
      &&& 0x1FFFFF = u := by
    refine (and_two_pow_sub_one_eq_mod _ 21).trans ?_
    omega
  rw [utf8ToUtf32, utf8Table, utf8ToUtf32Loop_next (by dsimp only; omega) hy hw (by omega),
    utf8ToUtf32Loop_next (by dsimp only; omega) hz hw (by omega),
    utf8ToUtf32Loop_next (by dsimp only; omega) hv hw (by omega),
    utf8ToUtf32Loop_found (h4.mpr hx) hl (by omega)]
  refine and_congr_right fun _ => ?_
  simp only [unicodeMax]
  omega

theorem eq_ofNat {n : ℕ} (h : n = x.toNat) : UInt8.ofNat n = x := by
  rw [h, UInt8.ofNat_toNat]

theorem utf8ToUtf32_sound (hw : 32 ≤ w) {u n : ℕ} (h : utf8ToUtf32 w s = some (u, n)) :
    ∃ c rest, s = utf8EncodeChar c ++ rest ∧ u = c.toNat ∧ n = (utf8EncodeChar c).length := by
  cases s with
  | nil => exact absurd h (by simp [utf8ToUtf32])
  | cons x s =>
  obtain ⟨h1, h2, h3, h4⟩ := first_iff _ x.toNat_lt
  have hxlt := x.toNat_lt
  by_cases hx1 : x.toNat < 0x80
  · obtain ⟨rfl, rfl⟩ := Prod.mk.inj ((utf8ToUtf32_one hx1).mp h)
    obtain ⟨c, hc⟩ := exists_char (u := x.toNat) (by simp only [unicodeMax]; omega) (by omega)
    refine ⟨c, s, ?_⟩
    rw [encode_one (by omega), eq_ofNat hc]
    exact ⟨rfl, hc.symm, rfl⟩
  obtain ⟨y, s, rfl, hy⟩ := utf8ToUtf32Loop_next_cases (by dsimp only; omega) h
  by_cases hx2 : 0xC0 ≤ x.toNat ∧ x.toNat < 0xE0
  · obtain ⟨heq, hmin⟩ := (utf8ToUtf32_two rfl hx2 hy hw).mp h
    obtain ⟨hu, hn⟩ := Prod.mk.inj heq
    obtain ⟨c, hc⟩ := exists_char (u := u) (by simp only [unicodeMax]; omega) (by omega)
    refine ⟨c, s, ?_⟩
    rw [encode_two (by omega) (by omega), eq_ofNat (x := x) (by omega),
      eq_ofNat (x := y) (by omega)]
    exact ⟨rfl, hc.symm, hn⟩
  have hnext := h
  rw [utf8ToUtf32, utf8Table, utf8ToUtf32Loop_next (by dsimp only; omega) hy hw (by omega)] at hnext
  obtain ⟨z, s, rfl, hz⟩ := utf8ToUtf32Loop_next_cases (by dsimp only; omega) hnext
  by_cases hx3 : 0xE0 ≤ x.toNat ∧ x.toNat < 0xF0
  · obtain ⟨heq, hmin, hs⟩ := (utf8ToUtf32_three rfl hx3 hy hz hw).mp h
    obtain ⟨hu, hn⟩ := Prod.mk.inj heq
    obtain ⟨c, hc⟩ := exists_char (u := u) (by simp only [unicodeMax]; omega) (by omega)
    refine ⟨c, s, ?_⟩
    rw [encode_three (by omega) (by omega), eq_ofNat (x := x) (by omega),
      eq_ofNat (x := y) (by omega), eq_ofNat (x := z) (by omega)]
    exact ⟨rfl, hc.symm, hn⟩
  rw [utf8ToUtf32Loop_next (by dsimp only; omega) hz hw (by omega)] at hnext
  obtain ⟨v, s, rfl, hv⟩ := utf8ToUtf32Loop_next_cases (by dsimp only; omega) hnext
  by_cases hx4 : 0xF0 ≤ x.toNat ∧ x.toNat < 0xF8
  · obtain ⟨heq, hmin, hmax⟩ := (utf8ToUtf32_four rfl hx4 hy hz hv hw).mp h
    obtain ⟨hu, hn⟩ := Prod.mk.inj heq
    obtain ⟨c, hc⟩ := exists_char (u := u) (by omega) (by omega)
    refine ⟨c, s, ?_⟩
    rw [encode_four (by omega), eq_ofNat (x := x) (by omega), eq_ofNat (x := y) (by omega),
      eq_ofNat (x := z) (by omega), eq_ofNat (x := v) (by omega)]
    exact ⟨rfl, hc.symm, hn⟩
  · -- the other two entries of the table are beyond the characters
    rw [utf8ToUtf32Loop_next (by dsimp only; omega) hv hw (by omega)] at hnext
    obtain ⟨v', s, rfl, hv'⟩ := utf8ToUtf32Loop_next_cases (by dsimp only; omega) hnext
    rw [utf8ToUtf32Loop_next (by dsimp only; omega) hv' hw (by omega),
      utf8ToUtf32Loop_eq_none (by decide)] at hnext
    exact absurd hnext (by simp)

theorem utf8ToUtf32_encode (hw : 32 ≤ w) (c : Char) (rest : List UInt8) :
    utf8ToUtf32 w (utf8EncodeChar c ++ rest) = some (c.toNat, (utf8EncodeChar c).length) := by
  obtain ⟨hmax, hs⟩ := toNat_le c
  have hmax' := toNat_lt c
  have hbyte : ∀ n < 256, (UInt8.ofNat n).toNat = n := fun n hn => UInt8.toNat_ofNat_of_lt' hn
  rcases lt_or_ge c.toNat 0x80 with h1 | h1
  · have hx := hbyte c.toNat (by omega)
    rw [encode_one h1]
    refine (utf8ToUtf32_one (by omega)).mpr ?_
    rw [hx]
    rfl
  rcases lt_or_ge c.toNat 0x800 with h2 | h2
  · have hx := hbyte (0xC0 + c.toNat / 64) (by omega)
    have hy := hbyte (0x80 + c.toNat % 64) (by omega)
    rw [encode_two h1 h2]
    exact (utf8ToUtf32_two (by omega) (by omega) (by omega) hw).mpr ⟨rfl, h1⟩
  rcases lt_or_ge c.toNat 0x10000 with h3 | h3
  · have hx := hbyte (0xE0 + c.toNat / 4096) (by omega)
    have hy := hbyte (0x80 + c.toNat / 64 % 64) (by omega)
    have hz := hbyte (0x80 + c.toNat % 64) (by omega)
    rw [encode_three h2 h3]
    exact (utf8ToUtf32_three (by omega) (by omega) (by omega) (by omega) hw).mpr ⟨rfl, h2, hs⟩
  · have hx := hbyte (0xF0 + c.toNat / 262144) (by omega)
    have hy := hbyte (0x80 + c.toNat / 4096 % 64) (by omega)
    have hz := hbyte (0x80 + c.toNat / 64 % 64) (by omega)
    have hv := hbyte (0x80 + c.toNat % 64) (by omega)
    rw [encode_four h3]
    exact (utf8ToUtf32_four (by omega) (by omega) (by omega) (by omega) (by omega) hw).mpr
      ⟨rfl, h3, hmax⟩

end Decode

end LinuxKernel.Nls
