import Mathlib.Data.Nat.ModEq
import Mathlib.Order.Bounds.Defs
import LinuxKernel.Base.Fuel
import LinuxKernel.Base.Word

/-! # The search for an area of zero bits

`bitmap_find_next_zero_area` returns the first aligned area that is free. If there is none the
result is too large for an area.
-/

namespace LinuxKernel.Bitmap

open Fuel List

variable {map : List (BitVec 64)} {size nr k start p : ℕ}

section Model

/-- `__ALIGN_MASK`. -/
def alignMask (x mask : BitVec 64) : BitVec 64 := (x + mask) &&& ~~~mask

/-- The first bit from `n` on that is not set, or the size. -/
def findNextZeroBit (map : List (BitVec 64)) (size n : ℕ) : ℕ :=
  ((range' n (size - n)).find? fun i => !testBit map i).getD size

def bitmapFindNextZeroArea (map : List (BitVec 64)) (size nr : ℕ) (mask : BitVec 64) :
    ℕ → ℕ → Option ℕ
  | 0, _ => none
  | fuel + 1, start =>
    let index := findNextZeroBit map size start
    let index := (alignMask (.ofNat 64 index) mask).toNat
    let stop := (index + nr) % 2 ^ 64
    if size < stop then some stop
    else
      let i := findNextBit map stop index
      if i < stop then bitmapFindNextZeroArea map size nr mask fuel (i + 1) else some index

end Model

/-- The area at `p` is aligned, inside of the bitmap, and free. -/
structure Area (map : List (BitVec 64)) (size nr k p : ℕ) : Prop where
  aligned : 2 ^ k ∣ p
  inside : p + nr ≤ size
  free : ∀ i, p ≤ i → i < p + nr → testBit map i = false

theorem toNat_alignMask {x : ℕ} (h : x + (2 ^ k - 1) < 2 ^ 64) :
    (alignMask (.ofNat 64 x) (.ofNat 64 (2 ^ k - 1))).toNat =
      (x + (2 ^ k - 1)) / 2 ^ k * 2 ^ k := by
  rw [alignMask, Word.and_not_mask, BitVec.toNat_shiftLeft, BitVec.toNat_ushiftRight,
    ← BitVec.ofNat_add, BitVec.toNat_ofNat, Nat.mod_eq_of_lt h, Nat.shiftRight_eq_div_pow,
    Nat.shiftLeft_eq]
  exact Nat.mod_eq_of_lt ((Nat.div_mul_le_self ..).trans_lt h)

/-- The result of the alignment is the next multiple. -/
theorem alignMask_spec {x : ℕ} (h : x + (2 ^ k - 1) < 2 ^ 64) :
    ∃ r, (alignMask (.ofNat 64 x) (.ofNat 64 (2 ^ k - 1))).toNat = r ∧ 2 ^ k ∣ r ∧ x ≤ r ∧
      r ≤ x + (2 ^ k - 1) ∧ ∀ p, 2 ^ k ∣ p → x ≤ p → r ≤ p := by
  have hpos := Nat.two_pow_pos k
  have hlt := Nat.lt_div_mul_add (a := x + (2 ^ k - 1)) hpos
  refine ⟨_, toNat_alignMask h, dvd_mul_left .., by omega, Nat.div_mul_le_self .., ?_⟩
  rintro _ ⟨c, rfl⟩ hx
  rw [mul_comm (2 ^ k)] at hx ⊢
  refine Nat.mul_le_mul_right _ (Nat.lt_succ_iff.mp ((Nat.div_lt_iff_lt_mul hpos).mpr ?_))
  rw [Nat.succ_mul]
  omega

theorem findNextZeroBit_mem (map : List (BitVec 64)) (size start : ℕ) :
    min start size ≤ findNextZeroBit map size start ∧ findNextZeroBit map size start ≤ size := by
  rw [findNextZeroBit]
  rcases Word.find_range_cases (w := size) (n := start) (p := fun i => !testBit map i) with
    ⟨heq, -⟩ | ⟨m, heq, hm, hm', -⟩ <;> omega

theorem Area.le (h : Area map size nr k p) (hnr : 1 ≤ nr) (hp : start ≤ p) :
    findNextZeroBit map size start ≤ p := by
  have hin := h.inside
  have hfree := h.free p le_rfl (by omega)
  rcases Word.find_range_cases (w := size) (n := start) (p := fun i => !testBit map i) with
    ⟨-, hall⟩ | ⟨m, heq, -, -, -, hmin⟩
  · simpa [hfree] using hall p hp (by omega)
  · refine heq.trans_le (not_lt.mp fun hlt => ?_)
    simpa [hfree] using hmin p hp hlt

/-- The first area from `start` on is found, in rounds that start further on. -/
theorem bitmapFindNextZeroArea_spec (hnr : 1 ≤ nr) (hover : size + (2 ^ k - 1) + nr < 2 ^ 64) :
    ∃ r, Ends (bitmapFindNextZeroArea map size nr (.ofNat 64 (2 ^ k - 1)) · start) r ∧
      (IsLeast {p | start ≤ p ∧ Area map size nr k p} r ∨
        size < r ∧ ∀ p ≥ start, ¬ Area map size nr k p) := by
  generalize hn : size - start = n
  induction n using Nat.strongRecOn generalizing start with
  | ind n ih =>
    obtain ⟨hmin, hle⟩ := findNextZeroBit_mem map size start
    obtain ⟨index, halign, hdvd, hlo, hhi, hnext⟩ :=
      alignMask_spec (k := k) (x := findNextZeroBit map size start) (by omega)
    have hfirst p (hp : start ≤ p) (h : Area map size nr k p) : index ≤ p :=
      hnext p h.aligned (h.le hnr hp)
    have hstop : (index + nr) % 2 ^ 64 = index + nr := Nat.mod_eq_of_lt (by omega)
    by_cases hend : size < index + nr
    · refine ⟨index + nr, Ends.succ ?_, .inr ⟨hend, fun p hp h => ?_⟩⟩
      · simp only [bitmapFindNextZeroArea, halign, hstop, if_pos hend]
        exact ends_some _
      · have := hfirst p hp h
        have := h.inside
        omega
    · rcases Word.find_range_cases (w := index + nr) (n := index) with
        ⟨heq, hall⟩ | ⟨i, heq, hi, hlt, hbit, -⟩
      · refine ⟨index, Ends.succ ?_, .inl ⟨⟨by omega, hdvd, by omega, hall⟩, fun p hp => ?_⟩⟩
        · simp only [bitmapFindNextZeroArea, halign, hstop, if_neg hend, findNextBit, heq,
            lt_irrefl]
          exact ends_some _
        · exact hfirst p hp.1 hp.2
      · -- an area that is not before `index` and does not have the bit `i` is behind this bit
        have hbehind p : start ≤ p ∧ Area map size nr k p ↔ i + 1 ≤ p ∧ Area map size nr k p := by
          constructor
          · rintro ⟨hp, h⟩
            refine ⟨Nat.lt_of_not_le fun hpi => ?_, h⟩
            have := hfirst p hp h
            rw [h.free i hpi (by omega)] at hbit
            cases hbit
          · exact And.imp_left (by omega)
        obtain ⟨r, hends, hr⟩ := ih (size - (i + 1)) (by omega) rfl
        refine ⟨r, Ends.succ ?_, ?_⟩
        · simpa only [bitmapFindNextZeroArea, halign, hstop, if_neg hend, findNextBit, heq,
            if_pos hlt] using hends
        · simpa only [hbehind, ← not_and] using hr

/-- A result that leaves room for the area is the first one that is aligned and free, and a larger
one says that there is none. -/
theorem bitmap_find_next_zero_area_correct (hnr : 1 ≤ nr)
    (hover : size + (2 ^ k - 1) + nr < 2 ^ 64) :
    ∃ r, Ends (bitmapFindNextZeroArea map size nr (.ofNat 64 (2 ^ k - 1)) · start) r ∧
      (r + nr ≤ size → IsLeast {p | start ≤ p ∧ Area map size nr k p} r) ∧
      (size < r + nr ↔ ∀ p ≥ start, ¬ Area map size nr k p) := by
  obtain ⟨r, hends, hr⟩ := bitmapFindNextZeroArea_spec hnr hover
  refine ⟨r, hends, ?_⟩
  rcases hr with hleast | ⟨hlt, hnone⟩
  · have hin := hleast.1.2.inside
    exact ⟨fun _ => hleast, fun h => absurd hin (by omega),
      fun h => absurd hleast.1.2 (h r hleast.1.1)⟩
  · exact ⟨fun h => by omega, fun _ => hnone, fun _ => by omega⟩

theorem bitmap_find_next_zero_area_correct_small :
    ∃ r, Ends (bitmapFindNextZeroArea [5] 8 2 (.ofNat 64 (2 ^ 1 - 1)) · 1) r ∧
      (r + 2 ≤ 8 → IsLeast {p | 1 ≤ p ∧ Area [5] 8 2 1 p} r) ∧
      (8 < r + 2 ↔ ∀ p ≥ 1, ¬ Area [5] 8 2 1 p) :=
  bitmap_find_next_zero_area_correct (by decide) (by decide)

end LinuxKernel.Bitmap
