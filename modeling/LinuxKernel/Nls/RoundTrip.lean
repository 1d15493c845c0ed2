import LinuxKernel.Nls.Char

/-! # Strings

The characters are those of `Char`, with `String.utf8EncodeChar` as their encoding. A string is well
formed if it is made of encodings.
-/

namespace LinuxKernel.Nls

open List Option Nat
open String (utf8EncodeChar)

section Spec

def WellFormed (s : List UInt8) : Prop := ∃ cs : List Char, s = cs.flatMap utf8EncodeChar

/-- The units of a character in UTF-16. -/
def utf16Units (c : Char) : List ℕ :=
  if c.toNat < 0x10000 then [c.toNat]
  else [0xD800 + (c.toNat - 0x10000) / 1024, 0xDC00 + (c.toNat - 0x10000) % 1024]

/-- The characters of a sequence of units. A surrogate without its other half is none. -/
def utf16Chars : List ℕ → List Char
  | [] => []
  | u :: us =>
    if u < 0xD800 ∨ 0xE000 ≤ u then Char.ofNat u :: utf16Chars us
    else
      match us with
      | [] => []
      | v :: us' =>
        if u < 0xDC00 ∧ 0xDC00 ≤ v ∧ v < 0xE000 then
          Char.ofNat (0x10000 + (u - 0xD800) * 1024 + (v - 0xDC00)) :: utf16Chars us'
        else utf16Chars (v :: us')

end Spec

section Write

variable {all : List Char} {c : Char} {maxlen : ℕ} {out : List UInt8}

structure Written (all : List Char) (maxlen : ℕ) (out : List UInt8) : Prop where
  length_le : out.length ≤ maxlen
  chars : ∃ cs : List Char, cs.Sublist all ∧ out = cs.flatMap utf8EncodeChar ∧
    ((all.flatMap utf8EncodeChar).length ≤ maxlen → cs = all)

theorem encode_length_pos (c : Char) : 0 < (utf8EncodeChar c).length := by
  rw [String.length_utf8EncodeChar]
  exact c.utf8Size_pos

theorem written_nil (maxlen : ℕ) : Written [] maxlen [] :=
  ⟨zero_le _, [], .slnil, rfl, fun _ => rfl⟩

theorem written_zero (all : List Char) : Written all 0 [] := by
  refine ⟨le_rfl, [], nil_sublist _, rfl, fun h => ?_⟩
  cases all with
  | nil => rfl
  | cons c all =>
    have := encode_length_pos c
    rw [flatMap_cons, length_append] at h
    omega

theorem Written.cons (h : Written all (maxlen - (utf8EncodeChar c).length) out)
    (hc : (utf8EncodeChar c).length ≤ maxlen) :
    Written (c :: all) maxlen (utf8EncodeChar c ++ out) := by
  obtain ⟨hle, cs, hsub, rfl, hall⟩ := h
  refine ⟨?_, c :: cs, hsub.cons_cons c, rfl, fun hlen => ?_⟩
  · rw [length_append]
    omega
  · rw [flatMap_cons, length_append] at hlen
    rw [hall (by omega)]

theorem Written.skip (h : Written all maxlen out) (hc : maxlen < (utf8EncodeChar c).length) :
    Written (c :: all) maxlen out := by
  obtain ⟨hle, cs, hsub, rfl, hall⟩ := h
  refine ⟨hle, cs, hsub.cons c, rfl, fun hlen => ?_⟩
  rw [flatMap_cons, length_append] at hlen
  omega

theorem charOfNat_toNat {u : ℕ} (h : u < 0xD800 ∨ 0xE000 ≤ u ∧ u ≤ unicodeMax) :
    (Char.ofNat u).toNat = u := by
  have hu : u.isValidChar := by
    simp only [unicodeMax] at h
    simp only [Nat.isValidChar]
    omega
  rw [Char.ofNat, dif_pos hu]
  rfl

end Write

section Units

variable {u v maxlen : ℕ} {us : List ℕ}

def charsOf (us : List ℕ) : List Char := utf16Chars (us.takeWhile (· ≠ 0))

theorem charsOf_plain (h0 : u ≠ 0) (h : u < 0xD800 ∨ 0xE000 ≤ u) :
    charsOf (u :: us) = Char.ofNat u :: charsOf us := by
  rw [charsOf, takeWhile_cons_of_pos (by simpa using h0), utf16Chars.eq_def]
  exact if_pos h

theorem charsOf_pair (hu : 0xD800 ≤ u ∧ u < 0xDC00) (hv : 0xDC00 ≤ v ∧ v < 0xE000) :
    charsOf (u :: v :: us) =
      Char.ofNat (0x10000 + (u - 0xD800) * 1024 + (v - 0xDC00)) :: charsOf us := by
  rw [charsOf, takeWhile_cons_of_pos (by simp; omega),
    takeWhile_cons_of_pos (by simp; omega), utf16Chars.eq_def]
  dsimp only
  rw [if_neg (by omega), if_pos ⟨hu.2, hv⟩]
  rfl

theorem charsOf_surrogate (h : ¬ (u < 0xD800 ∨ 0xE000 ≤ u))
    (hv : ∀ v ∈ us.head?, ¬ (u < 0xDC00 ∧ 0xDC00 ≤ v ∧ v < 0xE000)) :
    charsOf (u :: us) = charsOf us := by
  rw [charsOf, takeWhile_cons_of_pos (by simp; omega), utf16Chars.eq_def]
  dsimp only
  rw [if_neg h]
  cases us with
  | nil => rfl
  | cons v us =>
    by_cases hv0 : v = 0
    · subst hv0
      rfl
    · rw [charsOf, takeWhile_cons_of_pos (by simpa using hv0)]
      exact if_neg (hv v rfl)

theorem utf32ToUtf8_eq_none {c : Char} (h : utf32ToUtf8 c.toNat maxlen = none) :
    maxlen < (utf8EncodeChar c).length := by
  by_contra hle
  rw [utf32ToUtf8_eq, if_pos (not_lt.mp hle)] at h
  exact absurd h (by simp)

theorem utf32ToUtf8_eq_some {c : Char} {bytes : List UInt8}
    (h : utf32ToUtf8 c.toNat maxlen = some bytes) :
    bytes = utf8EncodeChar c ∧ (utf8EncodeChar c).length ≤ maxlen := by
  rw [utf32ToUtf8_eq] at h
  split at h
  · rename_i hle
    exact ⟨(some.inj h).symm, hle⟩
  · exact absurd h (by simp)

theorem surrogate_iff (hu : u < 65536) :
    u &&& surrogateMask = surrogatePair ↔ ¬ (u < 0xD800 ∨ 0xE000 ≤ u) := by
  rw [isSurrogate_iff (by omega)]
  omega

theorem pair_eq (hu : 0xD800 ≤ u ∧ u < 0xDC00) (hv : 0xDC00 ≤ v ∧ v < 0xE000) :
    planeSize + (u &&& surrogateBits) <<< 10 + (v &&& surrogateBits) =
      (Char.ofNat (0x10000 + (u - 0xD800) * 1024 + (v - 0xDC00))).toNat := by
  rw [charOfNat_toNat (by simp only [unicodeMax]; omega), and_surrogateBits, and_surrogateBits,
    planeSize]
  omega

theorem pair_of_masks (hu : u < 65536) (hv : v < 65536)
    (hs : u &&& surrogateMask = surrogatePair) (hlow : ¬ u &&& surrogateLow ≠ 0)
    (hpair : ¬ (v &&& surrogateMask ≠ surrogatePair ∨ v &&& surrogateLow = 0)) :
    (0xD800 ≤ u ∧ u < 0xDC00) ∧ 0xDC00 ≤ v ∧ v < 0xE000 := by
  rw [surrogate_iff hu] at hs
  rw [not_not, and_surrogateLow] at hlow
  rw [ne_eq, surrogate_iff hv, and_surrogateLow] at hpair
  omega

theorem utf16sToUtf8sLoop_spec (us : List ℕ) (maxlen : ℕ) (hus : ∀ u ∈ us, u < 65536) :
    Written (charsOf us) maxlen (utf16sToUtf8sLoop us maxlen) := by
  fun_induction utf16sToUtf8sLoop us maxlen with
  | case1 maxlen => exact written_nil maxlen
  | case2 us hne => exact written_zero _
  | case3 us maxlen => exact written_nil _
  | case4 u us maxlen h0 hu hs hlow ih =>
    obtain ⟨hult, hus⟩ := forall_mem_cons.mp hus
    have hs' := (surrogate_iff hult).mp hs
    rw [ne_eq, and_surrogateLow] at hlow
    rw [charsOf_surrogate hs' fun v _ => by omega]
    exact ih hus
  | case5 u maxlen h0 hu hs hlow =>
    have hult := hus u (by simp)
    rw [charsOf_surrogate ((surrogate_iff hult).mp hs) (by simp)]
    exact written_nil _
  | case6 u maxlen h0 hu hs hlow v us hv ih =>
    obtain ⟨hult, hus⟩ := forall_mem_cons.mp hus
    have hvlt := hus v (by simp)
    rw [ne_eq, surrogate_iff hvlt, and_surrogateLow] at hv
    rw [charsOf_surrogate ((surrogate_iff hult).mp hs) fun v' hv' => by
      obtain rfl : v = v' := by simpa using hv'
      omega]
    exact ih hus
  | case7 u maxlen h0 hu hs hlow v us hv ch hch ih =>
    obtain ⟨hult, hvlt, hus⟩ := forall_mem_cons.mp hus |>.imp_right forall_mem_cons.mp
    obtain ⟨hu', hv'⟩ := pair_of_masks hult hvlt hs hlow hv
    rw [show ch = _ from pair_eq hu' hv'] at hch
    rw [charsOf_pair hu' hv']
    exact (ih hus).skip (utf32ToUtf8_eq_none hch)
  | case8 u maxlen h0 hu hs hlow v us hv ch bytes hch ih =>
    obtain ⟨hult, hvlt, hus⟩ := forall_mem_cons.mp hus |>.imp_right forall_mem_cons.mp
    obtain ⟨hu', hv'⟩ := pair_of_masks hult hvlt hs hlow hv
    rw [show ch = _ from pair_eq hu' hv'] at hch
    obtain ⟨hbytes, hle⟩ := utf32ToUtf8_eq_some hch
    rw [hbytes] at ih ⊢
    rw [charsOf_pair hu' hv']
    exact (ih hus).cons hle
  | case9 u us maxlen h0 hu hs hch ih =>
    obtain ⟨hult, hus⟩ := forall_mem_cons.mp hus
    rw [surrogate_iff hult, not_not] at hs
    rw [← charOfNat_toNat (u := u) (by simp only [unicodeMax]; omega)] at hch
    rw [charsOf_plain h0 hs]
    exact (ih hus).skip (utf32ToUtf8_eq_none hch)
  | case10 u us maxlen h0 hu hs bytes hch ih =>
    obtain ⟨hult, hus⟩ := forall_mem_cons.mp hus
    rw [surrogate_iff hult, not_not] at hs
    rw [← charOfNat_toNat (u := u) (by simp only [unicodeMax]; omega)] at hch
    obtain ⟨rfl, hle⟩ := utf32ToUtf8_eq_some hch
    rw [charsOf_plain h0 hs]
    exact (ih hus).cons hle
  | case11 u us maxlen h0 hu ih =>
    obtain ⟨hult, hus⟩ := forall_mem_cons.mp hus
    have htoNat := charOfNat_toNat (u := u) (.inl (by omega))
    have hencode : utf8EncodeChar (Char.ofNat u) = [UInt8.ofNat u] := by
      rw [encode_one (by omega), htoNat]
    have hcons := @Written.cons (charsOf us) (Char.ofNat u) (maxlen + 1)
      (utf16sToUtf8sLoop us maxlen)
    rw [hencode] at hcons
    rw [charsOf_plain h0 (by omega)]
    exact hcons (ih hus) (by simp)

theorem charsOf_utf16Units : ∀ {cs : List Char}, (∀ c ∈ cs, c.toNat ≠ 0) →
    charsOf (cs.flatMap utf16Units) = cs
  | [], _ => rfl
  | c :: cs, h => by
    obtain ⟨hc, hcs⟩ := forall_mem_cons.mp h
    obtain ⟨hmax, hs⟩ := toNat_le c
    simp only [unicodeMax] at hmax
    have ih := charsOf_utf16Units hcs
    rw [flatMap_cons, utf16Units]
    split
    · rw [singleton_append, charsOf_plain hc (by omega), ih, Char.ofNat_toNat]
    · have hsum : 0x10000 + (0xD800 + (c.toNat - 0x10000) / 1024 - 0xD800) * 1024 +
          (0xDC00 + (c.toNat - 0x10000) % 1024 - 0xDC00) = c.toNat := by omega
      rw [cons_append, singleton_append, charsOf_pair (by omega) (by omega), ih, hsum,
        Char.ofNat_toNat]

end Units

section Read

variable {w : ℕ} {s : List UInt8} {c : Char}

theorem and_high_iff (x : UInt8) : x &&& 0x80 ≠ 0 ↔ 0x80 ≤ x.toNat := by
  have h := (first_iff x.toNat x.toNat_lt).1
  rw [ne_eq, ← UInt8.toNat_inj]
  change ¬ x.toNat &&& 0x80 = 0x00 ↔ _
  rw [h]
  omega

theorem encode_head (h : 0x80 ≤ c.toNat) :
    ∃ x tail, utf8EncodeChar c = x :: tail ∧ 0x80 ≤ x.toNat := by
  have hmax := toNat_lt c
  have hbyte : ∀ n < 256, (UInt8.ofNat n).toNat = n := fun n hn => UInt8.toNat_ofNat_of_lt' hn
  rcases lt_or_ge c.toNat 0x800 with h2 | h2
  · exact ⟨_, _, encode_two h h2, by rw [hbyte _ (by omega)]; omega⟩
  rcases lt_or_ge c.toNat 0x10000 with h3 | h3
  · exact ⟨_, _, encode_three h2 h3, by rw [hbyte _ (by omega)]; omega⟩
  · exact ⟨_, _, encode_four h3, by rw [hbyte _ (by omega)]; omega⟩

theorem toNat_ne_zero (h : ∀ x ∈ utf8EncodeChar c, x ≠ 0) : c.toNat ≠ 0 := by
  intro hc
  refine h 0 ?_ rfl
  rw [encode_one (by omega), hc]
  exact mem_singleton.mpr rfl

/-- The units of a character as `utf8s_to_utf16s` writes them. -/
def units (u : ℕ) : List UInt16 :=
  if planeSize ≤ u then
    [UInt16.ofNat (surrogatePair ||| ((u - planeSize) >>> 10 &&& surrogateBits)),
      UInt16.ofNat (surrogatePair ||| surrogateLow ||| ((u - planeSize) &&& surrogateBits))]
  else [UInt16.ofNat u]

theorem or_surrogate {y : ℕ} (h : y < 1024) : surrogatePair ||| y = 0xD800 + y ∧
    surrogatePair ||| surrogateLow ||| y = 0xDC00 + y :=
  ⟨(shiftLeft_add_eq_or_of_lt (i := 10) h 54).symm, (shiftLeft_add_eq_or_of_lt (i := 10) h 55).symm⟩

theorem map_units (c : Char) : (units c.toNat).map UInt16.toNat = utf16Units c := by
  have hmax := toNat_lt c
  rw [units, utf16Units, planeSize]
  by_cases hc : 0x10000 ≤ c.toNat
  · rw [if_pos hc, if_neg (by omega), and_surrogateBits, and_surrogateBits,
      (or_surrogate (mod_lt _ (by decide))).1, (or_surrogate (mod_lt _ (by decide))).2,
      shiftRight_eq_div_pow, mod_eq_of_lt (by omega : (c.toNat - 65536) / 2 ^ 10 < 1024)]
    simp only [map_cons]
    rw [UInt16.toNat_ofNat_of_lt' (by simp only [UInt16.size]; omega),
      UInt16.toNat_ofNat_of_lt' (by simp only [UInt16.size]; omega)]
    rfl
  · rw [if_neg hc, if_pos (by omega), map_cons, map_nil,
      UInt16.toNat_ofNat_of_lt' (by simp only [UInt16.size]; omega)]

theorem utf8sToUtf16sLoop_cons (hw : 32 ≤ w) (hc : c.toNat ≠ 0) (rest : List UInt8) (fuel : ℕ) :
    utf8sToUtf16sLoop w (fuel + 1) (utf8EncodeChar c ++ rest) =
      (utf8sToUtf16sLoop w fuel rest).map (units c.toNat ++ ·) := by
  rcases lt_or_ge c.toNat 0x80 with h1 | h1
  · have hx : (UInt8.ofNat c.toNat).toNat = c.toNat :=
      UInt8.toNat_ofNat_of_lt' (by simp only [UInt8.size]; omega)
    have hne : UInt8.ofNat c.toNat ≠ 0 := fun heq => hc (by rw [← hx, heq]; rfl)
    have hlow : ¬ UInt8.ofNat c.toNat &&& 0x80 ≠ 0 := by
      rw [and_high_iff]
      omega
    have hunits : units c.toNat = [(UInt8.ofNat c.toNat).toUInt16] := by
      rw [units, planeSize, if_neg (by omega), cons.injEq, ← UInt16.toNat_inj,
        UInt8.toNat_toUInt16, hx, UInt16.toNat_ofNat_of_lt' (by simp only [UInt16.size]; omega)]
      exact ⟨rfl, rfl⟩
    rw [encode_one h1, singleton_append, utf8sToUtf16sLoop, if_neg hne, if_neg hlow, hunits]
    cases utf8sToUtf16sLoop w fuel rest <;> rfl
  · obtain ⟨x, tail, hencode, hx⟩ := encode_head h1
    have hne : x ≠ 0 := by
      rintro rfl
      exact absurd hx (by decide)
    have hread := utf8ToUtf32_encode hw c rest
    have hdrop : (utf8EncodeChar c ++ rest).drop (utf8EncodeChar c).length = rest := drop_left
    rw [hencode, cons_append] at hread hdrop ⊢
    rw [utf8sToUtf16sLoop, if_neg hne, if_pos ((and_high_iff x).mpr hx), hread]
    simp only [bind_eq_bind, bind_some, hdrop]
    cases utf8sToUtf16sLoop w fuel rest with
    | none => rfl
    | some us =>
      simp only [units]
      split <;> rfl

theorem utf8sToUtf16sLoop_encode (hw : 32 ≤ w) : ∀ {cs : List Char} {fuel : ℕ},
    (∀ c ∈ cs, c.toNat ≠ 0) → (cs.flatMap utf8EncodeChar).length ≤ fuel →
    utf8sToUtf16sLoop w fuel (cs.flatMap utf8EncodeChar) = some (cs.flatMap fun c => units c.toNat)
  | [], fuel, _, _ => by cases fuel <;> rfl
  | c :: cs, fuel, h, hfuel => by
    obtain ⟨hc, hcs⟩ := forall_mem_cons.mp h
    have hpos := encode_length_pos c
    rw [flatMap_cons, length_append] at hfuel
    obtain ⟨fuel, rfl⟩ := exists_eq_succ_of_ne_zero (by omega : fuel ≠ 0)
    rw [flatMap_cons, utf8sToUtf16sLoop_cons hw hc, utf8sToUtf16sLoop_encode hw hcs (by omega)]
    rfl

theorem utf8sToUtf16sLoop_sound (hw : 32 ≤ w) : ∀ {fuel : ℕ} {s : List UInt8} {us : List UInt16},
    (∀ x ∈ s, x ≠ 0) → s.length ≤ fuel → utf8sToUtf16sLoop w fuel s = some us → WellFormed s
  | _, [], _, _, _, _ => ⟨[], rfl⟩
  | fuel + 1, x :: s, us, h0, hfuel, h => by
    obtain ⟨c, rest, hs⟩ : ∃ c rest, x :: s = utf8EncodeChar c ++ rest := by
      by_cases hx : 0x80 ≤ x.toNat
      · rw [utf8sToUtf16sLoop, if_neg (h0 x mem_cons_self), if_pos ((and_high_iff x).mpr hx)] at h
        obtain ⟨⟨u, n⟩, hread, -⟩ := bind_eq_some_iff.mp h
        obtain ⟨c, rest, hs, -⟩ := utf8ToUtf32_sound hw hread
        exact ⟨c, rest, hs⟩
      · obtain ⟨c, hc⟩ := exists_char (u := x.toNat) (by simp only [unicodeMax]; omega) (by omega)
        refine ⟨c, s, ?_⟩
        rw [encode_one (by omega), eq_ofNat hc]
        rfl
    have hpos := encode_length_pos c
    rw [hs] at h0 hfuel h ⊢
    rw [length_append] at hfuel
    have hc := toNat_ne_zero fun x hx => h0 x (mem_append_left _ hx)
    rw [utf8sToUtf16sLoop_cons hw hc] at h
    obtain ⟨us', hus', -⟩ := map_eq_some_iff.mp h
    obtain ⟨cs, rfl⟩ := utf8sToUtf16sLoop_sound hw
      (fun x hx => h0 x (mem_append_right _ hx)) (by omega) hus'
    exact ⟨c :: cs, rfl⟩

end Read

section RoundTrip

variable {w : ℕ}

theorem getUtf16_lt (bigEndian : Bool) (endian : Utf16Endian) (c : UInt16) :
    getUtf16 bigEndian endian c < 65536 := by
  have hc : c.toNat < 65536 := c.toNat_lt
  have hswab : swab16 c.toNat < 65536 := by
    rw [swab16]
    omega
  cases endian with
  | host => exact hc
  | little => cases bigEndian <;> assumption
  | big => cases bigEndian <;> assumption

theorem utf16sToUtf8s_spec (bigEndian : Bool) (endian : Utf16Endian) (pwcs : List UInt16)
    (maxlen : ℤ) : Written (charsOf (pwcs.map (getUtf16 bigEndian endian))) maxlen.toNat
      (utf16sToUtf8s bigEndian endian pwcs maxlen) := by
  refine utf16sToUtf8sLoop_spec _ _ fun u hu => ?_
  obtain ⟨c, -, rfl⟩ := mem_map.mp hu
  exact getUtf16_lt bigEndian endian c

/-- `utf8s_to_utf16s` accepts exactly the well formed strings, `utf16s_to_utf8s` takes its result
back, and whatever `utf16s_to_utf8s` writes is well formed and made of characters of its input. -/
theorem utf8_utf16_round_trip (hw : 32 ≤ w) :
    (∀ s : List UInt8, (∀ x ∈ s, x ≠ 0) →
      ((utf8sToUtf16s w s).isSome ↔ WellFormed s) ∧
      ∀ us, utf8sToUtf16s w s = some us → ∀ (bigEndian : Bool) (maxlen : ℤ), s.length ≤ maxlen →
        utf16sToUtf8s bigEndian .host us maxlen = s) ∧
    ∀ (bigEndian : Bool) (endian : Utf16Endian) (pwcs : List UInt16) (maxlen : ℤ),
      ((utf16sToUtf8s bigEndian endian pwcs maxlen).length : ℤ) ≤ max maxlen 0 ∧
      ∃ cs : List Char, cs.Sublist (charsOf (pwcs.map (getUtf16 bigEndian endian))) ∧
        utf16sToUtf8s bigEndian endian pwcs maxlen = cs.flatMap utf8EncodeChar ∧
        (((charsOf (pwcs.map (getUtf16 bigEndian endian))).flatMap utf8EncodeChar).length ≤
          maxlen → cs = charsOf (pwcs.map (getUtf16 bigEndian endian))) := by
  refine ⟨fun s h0 => ?_, fun bigEndian endian pwcs maxlen => ?_⟩
  · have hread : ∀ cs : List Char, s = cs.flatMap utf8EncodeChar →
        (∀ c ∈ cs, c.toNat ≠ 0) ∧ utf8sToUtf16s w s = some (cs.flatMap fun c => units c.toNat) := by
      rintro cs rfl
      have hcs : ∀ c ∈ cs, c.toNat ≠ 0 := fun c hc => toNat_ne_zero fun x hx =>
        h0 x (mem_flatMap.mpr ⟨c, hc, hx⟩)
      exact ⟨hcs, utf8sToUtf16sLoop_encode hw hcs le_rfl⟩
    constructor
    · refine ⟨fun h => ?_, fun ⟨cs, hcs⟩ => ?_⟩
      · obtain ⟨us, hus⟩ := isSome_iff_exists.mp h
        exact utf8sToUtf16sLoop_sound hw h0 le_rfl hus
      · rw [(hread cs hcs).2]
        rfl
    · intro us hus bigEndian maxlen hmax
      obtain ⟨cs, hcs⟩ := utf8sToUtf16sLoop_sound hw h0 le_rfl hus
      obtain ⟨hne, hread⟩ := hread cs hcs
      obtain rfl := some.inj (hus.symm.trans hread)
      have hchars : charsOf ((cs.flatMap fun c => units c.toNat).map (getUtf16 bigEndian .host)) =
          cs := by
        rw [map_flatMap]
        exact (congrArg charsOf (congrArg (cs.flatMap ·) (funext map_units))).trans
          (charsOf_utf16Units hne)
      obtain ⟨-, cs', -, hout, hall⟩ := utf16sToUtf8s_spec bigEndian .host
        (cs.flatMap fun c => units c.toNat) maxlen
      rw [hchars, ← hcs] at hall
      rw [hout, hall (by omega), hcs]
  · obtain ⟨hle, cs, hsub, hout, hall⟩ := utf16sToUtf8s_spec bigEndian endian pwcs maxlen
    exact ⟨by omega, cs, hsub, hout, fun h => hall (by omega)⟩

/-- Characters of one and of four bytes. -/
theorem utf8_utf16_round_trip_aFace :
    utf8sToUtf16s 32 [0x61, 0xf0, 0x9f, 0x98, 0x80] = some [0x61, 0xd83d, 0xde00] ∧
      utf16sToUtf8s false .host [0x61, 0xd83d, 0xde00] 5 = [0x61, 0xf0, 0x9f, 0x98, 0x80] ∧
      WellFormed [0x61, 0xf0, 0x9f, 0x98, 0x80] := by
  have hread : utf8sToUtf16s 32 [0x61, 0xf0, 0x9f, 0x98, 0x80] = some [0x61, 0xd83d, 0xde00] := by
    decide
  obtain ⟨hiff, hback⟩ := (utf8_utf16_round_trip le_rfl).1
    [0x61, 0xf0, 0x9f, 0x98, 0x80] (by decide +kernel)
  exact ⟨hread, hback _ hread false 5 (by decide), hiff.mp (by rw [hread]; rfl)⟩

/-- The units of characters come back in the byte order of the machine. -/
theorem utf16_utf8_round_trip (hw : 32 ≤ w) (cs : List Char) (hcs : ∀ c ∈ cs, c.toNat ≠ 0)
    {bigEndian : Bool} {endian : Utf16Endian} {pwcs : List UInt16} {maxlen : ℤ}
    (hp : pwcs.map (getUtf16 bigEndian endian) = cs.flatMap utf16Units)
    (hmax : (cs.flatMap utf8EncodeChar).length ≤ maxlen) :
    ∃ us, utf8sToUtf16s w (utf16sToUtf8s bigEndian endian pwcs maxlen) = some us ∧
      us.map UInt16.toNat = cs.flatMap utf16Units := by
  obtain ⟨-, cs', -, hout, hall⟩ := utf16sToUtf8s_spec bigEndian endian pwcs maxlen
  rw [hp, charsOf_utf16Units hcs] at hall
  obtain rfl := hall (by omega)
  rw [hout]
  refine ⟨_, utf8sToUtf16sLoop_encode hw hcs le_rfl, ?_⟩
  rw [map_flatMap]
  exact congrArg (cs'.flatMap ·) (funext map_units)

theorem utf16_utf8_round_trip_swapped :
    ∃ us, utf8sToUtf16s 64 (utf16sToUtf8s false .big [0x4100, 0x3DD8, 0x00DE] 5) = some us ∧
      us.map UInt16.toNat = [0x41, 0xD83D, 0xDE00] :=
  utf16_utf8_round_trip (by decide) ['A', '😀'] (by simp) (by decide) (by decide)

end RoundTrip

end LinuxKernel.Nls
