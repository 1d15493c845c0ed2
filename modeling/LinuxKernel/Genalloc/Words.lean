import LinuxKernel.Base.Word
import LinuxKernel.Genalloc.Model

/-! # The words of a range of bits

The rounds of `bitmap_set_ll` and `bitmap_clear_ll` cut a range of bits at the ends of words. The
search gives either a position where the whole range fits, or one beyond the end.
-/

namespace LinuxKernel.Genalloc

open BitVec

section Masks

variable {w : ℕ} {i j n : ℕ}

theorem getLsbD_firstWordMask (hj : j < w) :
    (bitmapFirstWordMask w i).getLsbD j = decide (i % w ≤ j) := by
  rw [bitmapFirstWordMask]
  by_cases h : i % w ≤ j
  · simp [h, hj]
  · simp [lt_of_not_ge h]

theorem toNat_one_shiftLeft_sub_one (hn : n < w) : (1#w <<< n - 1#w).toNat = 2 ^ n - 1 := by
  have hone : (1#w).toNat = 1 := by
    rw [toNat_ofNat, Nat.mod_eq_of_lt (Nat.one_lt_two_pow (by omega))]
  have hpow : (1#w <<< n).toNat = 2 ^ n := by
    rw [toNat_shiftLeft, hone, Nat.shiftLeft_eq, one_mul,
      Nat.mod_eq_of_lt (Nat.pow_lt_pow_right (by decide) hn)]
  have hle : 1#w ≤ 1#w <<< n := by
    rw [le_def, hone, hpow]
    exact Nat.one_le_two_pow
  rw [toNat_sub_of_le hle, hpow, hone]

theorem getLsbD_lastWordMask (hw : 0 < w) (hi : i % w ≠ 0) :
    (bitmapLastWordMask w i).getLsbD j = decide (j < i % w) := by
  rw [bitmapLastWordMask, if_neg hi, getLsbD, toNat_one_shiftLeft_sub_one (Nat.mod_lt i hw),
    Nat.testBit_two_pow_sub_one]

end Masks

section Splits

variable {w : ℕ}

def Segment.Covers (seg : Segment w) (b : ℕ) : Prop :=
  b / w = seg.word ∧ seg.mask.getLsbD (b % w) = true

/-- The segment has the bits from `pos` to `pos + len` of one word. -/
structure Segment.Spans (seg : Segment w) (pos len : ℕ) : Prop where
  word : seg.word = pos / w
  len_pos : 0 < len
  fits : pos % w + len ≤ w
  mask : ∀ j < w, seg.mask.getLsbD j = decide (pos % w ≤ j ∧ j < pos % w + len)

inductive Splits : ℕ → ℕ → List (Segment w) → Prop
  | nil (pos : ℕ) : Splits pos 0 []
  | cons {pos len nr : ℕ} {seg : Segment w} {segs : List (Segment w)} :
      seg.Spans pos len → seg.nr = len + nr → Splits (pos + len) nr segs →
      Splits pos (len + nr) (seg :: segs)

theorem Segment.Spans.covers_iff {seg : Segment w} {pos len b : ℕ} (h : seg.Spans pos len) :
    seg.Covers b ↔ pos ≤ b ∧ b < pos + len := by
  have hw : 0 < w := by
    have := h.len_pos
    have := h.fits
    omega
  rw [Segment.Covers, h.word, h.mask _ (Nat.mod_lt b hw), decide_eq_true_eq]
  have hpos := Nat.div_add_mod pos w
  have hb := Nat.div_add_mod b w
  have hfits := h.fits
  constructor
  · rintro ⟨hword, hle, hlt⟩
    rw [hword] at hb
    omega
  · rintro ⟨hle, hlt⟩
    have hword : b / w = pos / w := by
      refine le_antisymm (Nat.le_of_lt_succ ((Nat.div_lt_iff_lt_mul hw).mpr ?_))
        (Nat.div_le_div_right hle)
      rw [Nat.succ_mul, mul_comm]
      omega
    rw [hword] at hb
    exact ⟨hword, by omega, by omega⟩

theorem Splits.inv {pos nr : ℕ} {seg : Segment w} {segs : List (Segment w)}
    (h : Splits pos nr (seg :: segs)) :
    ∃ len rest, seg.Spans pos len ∧ nr = len + rest ∧ Splits (pos + len) rest segs := by
  cases h with
  | cons hspans _ hrest => exact ⟨_, _, hspans, rfl, hrest⟩

/-- The loop is at `pos`, from where the rest of its first word and then whole words are taken. -/
theorem splits_segmentLoop (hw : 0 < w) {fuel pos nr : ℕ} (hfuel : nr < fuel) :
    Splits pos nr (segmentLoop (pos + nr) fuel (pos / w) nr (w - pos % w)
      (bitmapFirstWordMask w pos)) := by
  have hmod := Nat.mod_lt pos hw
  induction fuel generalizing pos nr with
  | zero => omega
  | succ fuel ih =>
    rw [segmentLoop]
    split_ifs with hfull hnr
    · -- the round takes the word to its end, and the next one starts there
      have hnext : pos + (w - pos % w) = w * (pos / w + 1) := by
        have := Nat.div_add_mod pos w
        rw [Nat.mul_succ]
        omega
      have hrest : Splits (w * (pos / w + 1)) (nr - (w - pos % w)) _ :=
        ih (by omega) (Nat.mod_lt _ hw)
      rw [Nat.mul_div_cancel_left _ hw, Nat.mul_mod_right, ← hnext,
        show pos + (w - pos % w) + (nr - (w - pos % w)) = pos + nr by omega] at hrest
      have hmask : bitmapFirstWordMask w (pos + (w - pos % w)) = allOnes w := by
        rw [bitmapFirstWordMask, hnext, Nat.mul_mod_right, shiftLeft_zero]
      rw [hmask] at hrest
      have hsum : nr = (w - pos % w) + (nr - (w - pos % w)) := by omega
      rw [show Splits pos nr = Splits pos ((w - pos % w) + (nr - (w - pos % w))) by
        rw [← hsum]]
      refine .cons ⟨rfl, by omega, by omega, fun j hj => ?_⟩ hsum hrest
      rw [getLsbD_firstWordMask hj]
      exact decide_eq_decide.mpr ⟨fun h => ⟨h, by omega⟩, fun h => h.1⟩
    · subst hnr
      exact .nil pos
    · -- the last round ends inside of the word
      have hend : (pos + nr) % w = pos % w + nr := by
        rw [Nat.add_mod, Nat.mod_eq_of_lt (show nr < w by omega), Nat.mod_eq_of_lt (by omega)]
      refine .cons ⟨rfl, by omega, by omega, fun j hj => ?_⟩ rfl (.nil _)
      rw [getLsbD_and, getLsbD_firstWordMask hj, getLsbD_lastWordMask hw (by omega), hend,
        Bool.decide_and]

theorem splits_segments (hw : 0 < w) (start nr : ℕ) : Splits start nr (segments w start nr) :=
  splits_segmentLoop hw (Nat.lt_succ_self nr)

end Splits

section Search

theorem findNextBit_mem (map : ℕ → Bool) (size offset : ℕ) :
    min offset size ≤ findNextBit map size offset ∧ findNextBit map size offset ≤ size := by
  rw [findNextBit]
  rcases Word.find_range_cases (w := size) (n := offset) (p := map) with
    ⟨heq, -⟩ | ⟨m, heq, hm, hm', -⟩ <;> omega

variable {w size : ℕ} {seen : ℕ → ℕ → Bool} {nr k start : ℕ}

theorem bitmapFindNextZeroArea_spec (hsize : size + nr < 2 ^ w) {fuel r : ℕ}
    (h : bitmapFindNextZeroArea w seen size nr fuel k start = some r) :
    r + nr ≤ size ∨ size < r ∧ r ≤ size + nr := by
  induction fuel generalizing k start with
  | zero => cases h
  | succ fuel ih =>
    have hindex : findNextZeroBit (seen k) size start ≤ size := (findNextBit_mem ..).2
    rw [bitmapFindNextZeroArea] at h
    simp only at h
    rw [Nat.mod_eq_of_lt (by omega)] at h
    split_ifs at h with hend hagain
    · cases h
      exact .inr ⟨hend, by omega⟩
    · exact ih h
    · cases h
      exact .inl (by omega)

/-- Each round of the search starts further on. -/
theorem lt_of_again {map map' : ℕ → Bool} {stop : ℕ} (hend : ¬ size < stop)
    (h : findNextBit map' stop (findNextZeroBit map size start) < stop) :
    start ≤ findNextBit map' stop (findNextZeroBit map size start) ∧ start < size := by
  have hindex := findNextBit_mem (fun i => !map i) size start
  have hi := findNextBit_mem map' stop (findNextZeroBit map size start)
  rw [findNextZeroBit] at h hi ⊢
  omega

/-- The search ends whatever it sees. -/
theorem exists_bitmapFindNextZeroArea {fuel : ℕ} (h : size < fuel + start) :
    ∃ r, bitmapFindNextZeroArea w seen size nr (fuel + 1) k start = some r := by
  induction fuel generalizing k start with
  | zero =>
    rw [bitmapFindNextZeroArea]
    simp only
    split_ifs with hend hagain
    · exact ⟨_, rfl⟩
    · have := lt_of_again hend hagain
      omega
    · exact ⟨_, rfl⟩
  | succ fuel ih =>
    rw [bitmapFindNextZeroArea]
    simp only
    split_ifs with hend hagain
    · exact ⟨_, rfl⟩
    · have := lt_of_again hend hagain
      exact ih (by omega)
    · exact ⟨_, rfl⟩

end Search

end LinuxKernel.Genalloc
