import LinuxKernel.Percpu.Areas

/-! # What an allocation does

`Alloc` says once what an allocation from a well-formed chunk can do to its map: nothing, or to cut
one free block into what is left in front of it, the area and what is left behind it.
-/

namespace LinuxKernel.Percpu

open List

variable {chunk chunk' : Chunk} {l pre pre' rest : List ℤ} {e x p maxContig freeSize : ℤ}
  {off o size al k h : ℕ}

/-- What an allocation does to the entries before the block that it takes `h` bytes of. -/
inductive Lead : List ℤ → ℕ → List ℤ → Prop
  | split (pre : List ℤ) (h : ℕ) : Lead pre h (pre ++ part h)
  | glue (l : List ℤ) {p : ℤ} {h : ℕ} : p < 0 → Lead (l ++ [p]) h (l ++ [p - h])

namespace Lead

section

variable (hl : Lead pre h pre')
include hl

theorem total_eq : total pre' = total pre + h := by
  cases hl with
  | split =>
    have := total_part (x := h) (by omega)
    rw [total_append]
    omega
  | glue l hp =>
    simp only [total_append, total_cons]
    omega

theorem ne_zero (hpre : ∀ e ∈ pre, e ≠ 0) : ∀ e ∈ pre', e ≠ 0 := by
  cases hl with
  | split =>
    intro e he
    rcases mem_append.mp he with he | he
    · exact hpre e he
    · obtain ⟨hne, rfl⟩ := mem_part.mp he
      exact hne
  | glue l hp =>
    intro e he
    rcases mem_append.mp he with he | he
    · exact hpre e (mem_append_left _ he)
    · rw [mem_singleton.mp he]
      omega

theorem allocated (he : (o, e) ∈ entries off pre) :
    ∃ e' ≤ e, (o, e') ∈ entries off pre' := by
  cases hl with
  | split =>
    exact ⟨e, le_rfl, by rw [entries_append]; exact mem_append_left _ he⟩
  | @glue l p h hp =>
    rw [entries_append] at he ⊢
    rcases mem_append.mp he with he | he
    · exact ⟨e, le_rfl, mem_append_left _ he⟩
    · obtain ⟨rfl, rfl⟩ := Prod.mk.inj (mem_singleton.mp he)
      exact ⟨e - h, by omega, mem_append_right _ (mem_singleton.mpr rfl)⟩

theorem coalesced (hpre : Coalesced pre) (hlast : ∀ p ∈ pre.getLast?, p < 0) : Coalesced pre' := by
  cases hl with
  | split =>
    refine isChain_append.mpr ⟨hpre, ?_, ?_⟩
    · unfold part
      split_ifs <;> simp
    · intro a ha b hb
      have := hlast a ha
      omega
  | glue l hp =>
    obtain ⟨hl, -, hlt⟩ := isChain_append.mp hpre
    refine isChain_append.mpr ⟨hl, by simp, ?_⟩
    intro a ha b hb
    obtain rfl : _ = b := by simpa using hb
    omega

end

end Lead

inductive Alloc (chunk : Chunk) (size al : ℕ) : Option ℕ → Chunk → Prop
  | fail (hint : ℤ) : (∀ e ∈ chunk.map, 0 < e → e ≤ hint) →
      (∀ o e, (o, e) ∈ entries 0 chunk.map → 0 < e → e < headSize o al + size) →
      Alloc chunk size al none { chunk with contigHint := hint }
  | take {pre pre' rest : List ℤ} {e len tail freeSize hint : ℤ} {h : ℕ} :
      chunk.map = pre ++ e :: rest → headSize (total pre) al = h → Lead pre h pre' → 0 ≤ tail →
      size ≤ len → h + len + tail = e →
      freeSize + e + freeBytes pre = chunk.freeSize + freeBytes pre' + tail →
      (∀ x ∈ pre' ++ (part tail ++ rest), 0 < x → x ≤ hint) →
      Alloc chunk size al (some (total pre + h)) { chunk with
        map := pre' ++ -len :: (part tail ++ rest)
        freeSize := freeSize
        contigHint := hint }

section Loop

theorem toInt_of_lt (h₀ : 0 ≤ x) (h : x < 2 ^ 31) : toInt x = x :=
  Int.bmod_eq_of_le (by omega) (by omega)

/-- A block that does not start where the chunk does comes behind an allocated one. -/
theorem mergeHead_spec (freeSize e : ℤ) (rest : List ℤ) (h : ℕ)
    (hlast : ∀ p ∈ pre.getLast?, p < 0) :
    ∃ (pre' : List ℤ) (h' : ℕ), mergeHead freeSize ⟨pre, e, rest⟩ h =
        (↑h', freeSize - (h - h'), ⟨pre', e - (h - h'), rest⟩) ∧
      Lead pre h (pre' ++ part h') ∧ freeBytes pre' = freeBytes pre ∧
      pre'.length = pre.length ∧ h' ≤ h ∧ ∀ x ∈ pre', 0 < x → x ∈ pre := by
  rw [mergeHead]
  cases hp : pre.getLast? with
  | none => exact ⟨pre, h, by simp, .split pre h, rfl, rfl, le_rfl, fun x hx _ => hx⟩
  | some p =>
    have hneg := hlast p hp
    have hsplit := dropLast_append_getLast? p hp
    dsimp only
    split_ifs with hmerge hpos
    · omega
    · refine ⟨pre.dropLast ++ [p - h], 0, by simp, ?_, ?_, ?_, Nat.zero_le h, ?_⟩
      · rw [part, if_neg (by simp), append_nil]
        nth_rewrite 1 [← hsplit]
        exact .glue _ hneg
      · nth_rewrite 2 [← hsplit]
        simp only [freeBytes_append, freeBytes_cons]
        omega
      · nth_rewrite 2 [← hsplit]
        simp
      · intro x hx hpos
        rcases mem_append.mp hx with hx | hx
        · exact mem_of_mem_dropLast hx
        · rw [mem_singleton.mp hx] at hpos
          omega
    · exact ⟨pre, h, by simp, .split pre h, rfl, rfl, le_rfl, fun x hx _ => hx⟩

theorem split_spec {tail : ℤ} (hroom : pre.length + 1 + rest.length + 2 ≤ chunk.mapAlloc) :
    split chunk.mapAlloc ⟨pre, e, rest⟩ h tail =
      some ⟨pre ++ part h, e - h - tail, part tail ++ rest⟩ := by
  have hpart (x : ℤ) : (part x).length ≤ 1 := by
    unfold part
    split_ifs <;> simp
  rw [split]
  split_ifs with hcond
  · have := hpart h
    have := hpart tail
    rw [pcpuSplitBlock, if_neg]
    rw [Cursor.map, length_append, length_cons]
    dsimp only
    omega
  · obtain ⟨h₀, t₀⟩ := not_or.mp hcond
    simp [part, not_not.mp h₀, not_not.mp t₀]

theorem carve_spec (pre : List ℤ) (e : ℤ) (h : ℕ) (chunk : Chunk) (size : ℕ)
    (freeSize maxContig : ℤ) (rest : List ℤ)
    (hfit : (h : ℤ) + size ≤ e) (he : e < 2 ^ 31)
    (hroom : pre.length + 1 + rest.length + 2 ≤ chunk.mapAlloc) :
    ∃ len tail hint : ℤ, carve chunk size freeSize ⟨pre, e, rest⟩ h maxContig = some { chunk with
        map := pre ++ part h ++ -len :: (part tail ++ rest)
        freeSize := freeSize - len
        contigHint := if rest.isEmpty then hint else max chunk.contigHint hint } ∧
      0 ≤ tail ∧ size ≤ len ∧ h + len + tail = e ∧
      maxContig ≤ hint ∧ (h ≠ 0 → h ≤ hint) ∧ (tail ≠ 0 → tail ≤ hint) := by
  have htail : toInt (e - h - size) = e - h - size := toInt_of_lt (by omega) (by omega)
  rw [carve]
  simp only [htail]
  generalize ht : (if small (e - h - size) then 0 else e - h - size) = tail
  have hbounds : 0 ≤ tail ∧ h + size + tail ≤ e := by
    split_ifs at ht with hs
    · omega
    · omega
  rw [split_spec hroom]
  refine ⟨e - h - tail, tail, _, rfl, hbounds.1, by omega, by omega, ?_, ?_, ?_⟩
  · split_ifs <;> omega
  · split_ifs <;> omega
  · omega

/-- The loop, with what is known about the blocks that it has passed. -/
theorem scan_spec (hm : chunk.map = pre ++ rest) (hk : k < 31) (hsize : 0 < size)
    (hsum : size + 2 ^ k ≤ 2 ^ 31) (htotal : total chunk.map < 2 ^ 31)
    (hchain : Coalesced chunk.map) (hne : ∀ e ∈ chunk.map, e ≠ 0)
    (hroom : chunk.mapUsed + 2 ≤ chunk.mapAlloc)
    (hhint : ∀ e ∈ chunk.map, 0 < e → e ≤ chunk.contigHint)
    (hcontig : ∀ e ∈ pre, 0 < e → e ≤ maxContig)
    (hfit : ∀ o e, (o, e) ∈ entries 0 pre → 0 < e → e < headSize o (2 ^ k) + size) :
    ∃ r chunk', scan chunk size (2 ^ k) pre (total pre) maxContig rest = some (r, chunk') ∧
      Alloc chunk size (2 ^ k) r chunk' := by
  induction rest generalizing pre maxContig with
  | nil =>
    rw [append_nil] at hm
    exact ⟨_, _, rfl, .fail maxContig (by rwa [hm]) (by rwa [hm])⟩
  | cons e rest ih =>
    have hm' : chunk.map = (pre ++ [e]) ++ rest := by simpa using hm
    have htot : total pre + e.natAbs = total (pre ++ [e]) := by simp
    have htotal' := htotal
    rw [hm, total_append, total_cons] at htotal'
    obtain ⟨h, hh, hlt, -, -⟩ := headSize_spec (total pre) hk (by omega)
    have hfirst : ¬ (pre.isEmpty = true ∧ headSize (total pre) (2 ^ k) ≠ 0) := by
      rintro ⟨hpre, hne⟩
      rw [isEmpty_iff.mp hpre] at hne
      obtain ⟨h', hh', -, -, hmin⟩ := headSize_spec 0 hk (by norm_num)
      have := hmin 0 le_rfl (dvd_zero _)
      rw [total_nil] at hne
      omega
    have hnone : e < 0 ∨ e < headSize (total pre) (2 ^ k) + size →
        ∀ o x, (o, x) ∈ entries 0 (pre ++ [e]) → 0 < x → x < headSize o (2 ^ k) + size := by
      intro hcase o x hx hpos
      rw [entries_append, mem_append, zero_add] at hx
      rcases hx with hx | hx
      · exact hfit o x hx hpos
      · obtain ⟨rfl, rfl⟩ := Prod.mk.inj (mem_singleton.mp hx)
        omega
    rw [scan]
    dsimp only
    split_ifs with hneg hshort
    · rw [htot]
      refine ih hm' ?_ (hnone (.inl hneg))
      intro x hx hpos
      rcases mem_append.mp hx with hx | hx
      · exact hcontig x hx hpos
      · rw [mem_singleton.mp hx] at hpos
        omega
    · rw [htot]
      rw [toInt_of_lt (by omega) (by omega)] at hshort
      refine ih hm' ?_ (hnone (.inr hshort))
      intro x hx hpos
      rcases mem_append.mp hx with hx | hx
      · exact (hcontig x hx hpos).trans (le_max_right _ _)
      · rw [mem_singleton.mp hx]
        exact le_max_left _ _
    · rw [toInt_of_lt (by omega) (by omega)] at hshort
      -- the block before this one is not free, since this one is
      have hlast : ∀ p ∈ pre.getLast?, p < 0 := by
        intro p hp
        have hR := (isChain_append.mp (hm ▸ hchain)).2.2 p hp e rfl
        have := hne p (hm ▸ mem_append_left _ (mem_of_getLast? hp))
        omega
      obtain ⟨pre', h', hmerge, hlead, hfree, hlen, hle, hold⟩ :=
        mergeHead_spec chunk.freeSize e rest h hlast
      rw [Chunk.mapUsed, hm, length_append, length_cons] at hroom
      obtain ⟨len, tail, hint, hcarve, htail, hsize, hsum, hmc, hh', ht'⟩ :=
        carve_spec pre' (e - (h - h')) h' chunk size
          (chunk.freeSize - (h - h')) maxContig rest (by omega) (by omega) (by omega)
      rw [hh, hmerge]
      rw [hcarve]
      refine ⟨_, _, rfl, .take hm hh hlead htail hsize (by omega) ?_ ?_⟩
      · rw [freeBytes_append, freeBytes_part (by omega)]
        omega
      · intro x hx hpos
        have hle : hint ≤ if rest.isEmpty then hint else max chunk.contigHint hint := by
          split_ifs <;> omega
        simp only [mem_append, mem_part] at hx
        rcases hx with (hx | ⟨hne, rfl⟩) | ⟨hne, rfl⟩ | hx
        · exact (hcontig x (hold x hx hpos) hpos).trans (hmc.trans hle)
        · exact (hh' (Nat.cast_ne_zero.mp hne)).trans hle
        · exact (ht' hne).trans hle
        · -- the blocks behind this one have not been seen
          rw [if_neg (by simpa using ne_nil_of_mem hx)]
          refine (hhint x ?_ hpos).trans (le_max_left _ _)
          rw [hm]
          exact mem_append_right _ (mem_cons_of_mem _ hx)

end Loop

end LinuxKernel.Percpu
