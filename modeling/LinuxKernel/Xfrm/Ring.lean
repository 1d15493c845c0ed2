import Mathlib.Tactic.Ring
import LinuxKernel.Base.Window
import LinuxKernel.Xfrm.Model

/-! # The bitmap as a ring

The bitmap is a ring of `replay_window` bits. The place of a number is computed from the low half
of the highest number, which goes around at 2^32. So the places fit together if the window divides
2^32; then the bitmap shows which numbers of the window have been received.
-/

namespace LinuxKernel.Xfrm

open Bitmap Window BitVec List Nat

variable {r : ReplayStateEsn} {top : ℤ} {seen : Set ℤ} {x y d seq : BitVec 32} {w : ℕ}

section Words

theorem toNat_add_modEq (x y : BitVec 32) : (x + y).toNat ≡ x.toNat + y.toNat [ZMOD 2 ^ 32] := by
  rw [toNat_add]
  push_cast
  exact Int.emod_emod _ _

theorem toNat_sub_modEq (x y : BitVec 32) : (x - y).toNat ≡ x.toNat - y.toNat [ZMOD 2 ^ 32] := by
  rw [toNat_sub, Int.ModEq]
  omega

theorem toNat_umod_modEq (x y : BitVec 32) : (x % y).toNat ≡ x.toNat [ZMOD y.toNat] := by
  rw [toNat_umod]
  push_cast
  exact Int.emod_emod _ _

end Words

/-- The bitmap shows which numbers of the window were received. `top` is the highest one, of
which `seq` is the low half. -/
structure Tracks (r : ReplayStateEsn) (top : ℤ) (seen : Set ℤ) : Prop where
  dvd : r.replayWindow.toNat ∣ 2 ^ 32
  len : r.replayWindow.toNat ≤ 32 * r.bmp.length
  seq : top ≡ r.seq.toNat [ZMOD 2 ^ 32]
  shows : Shows r.replayWindow.toNat (testBit r.bmp) top seen

namespace Tracks

variable (h : Tracks r top seen)
include h

theorem pos : 0 < r.replayWindow.toNat := pos_of_dvd_of_pos h.dvd (by decide)

theorem modEq {a b : ℤ} (hab : a ≡ b [ZMOD 2 ^ 32]) : a ≡ b [ZMOD r.replayWindow.toNat] :=
  hab.of_dvd (by exact_mod_cast h.dvd)

theorem topBit_modEq : (topBit r).toNat ≡ top - 1 [ZMOD r.replayWindow.toNat] := by
  refine (toNat_umod_modEq _ _).trans (h.modEq ((toNat_sub_modEq _ _).trans ?_))
  exact h.seq.symm.sub_right _

theorem bitAhead_eq (d : BitVec 32) :
    (bitAhead r d).toNat = slot r.replayWindow.toNat (top + d.toNat) := by
  apply eq_slot
  · exact mod_lt _ h.pos
  · refine (toNat_umod_modEq _ _).trans ((h.modEq (toNat_add_modEq _ _)).trans ?_)
    have := h.topBit_modEq.add_right d.toNat
    rwa [show top - 1 + d.toNat = top + d.toNat - 1 by ring] at this

theorem bitBehind_eq (hd : d.toNat < r.replayWindow.toNat) :
    (bitBehind r d).toNat = slot r.replayWindow.toNat (top - d.toNat) := by
  have hmod := h.topBit_modEq.sub_right d.toNat
  rw [show top - 1 - d.toNat = top - d.toNat - 1 by ring] at hmod
  rw [bitBehind]
  split_ifs with hle
  · apply eq_slot
    · exact mod_lt _ h.pos
    · exact (toNat_umod_modEq _ _).trans ((h.modEq (toNat_sub_modEq _ _)).trans hmod)
  · have hgt : (topBit r).toNat < d.toNat := by simpa [le_def] using hle
    have hval : (r.replayWindow - (d - topBit r)).toNat =
        r.replayWindow.toNat - (d.toNat - (topBit r).toNat) := by
      rw [toNat_sub_of_le, toNat_sub_of_le]
      · exact le_def.mpr hgt.le
      · rw [le_def, toNat_sub_of_le (le_def.mpr hgt.le)]
        omega
    apply eq_slot (by omega)
    refine Int.ModEq.trans ?_ hmod
    rw [Int.modEq_iff_dvd]
    exact ⟨-1, by omega⟩

/-- The bit of a number in the window says if it was received. -/
theorem testBit_bitBehind (hd : d.toNat < r.replayWindow.toNat) :
    testBit r.bmp (bitBehind r d).toNat = true ↔ top - d.toNat ∈ seen := by
  rw [h.bitBehind_eq hd]
  exact h.shows.bit _ (by omega) (by omega)

theorem slot_lt_len (n : ℤ) : slot r.replayWindow.toNat n < 32 * r.bmp.length :=
  lt_of_lt_of_le (slot_lt h.pos n) h.len

theorem advanceBehind (seq : BitVec 32) (hd : (r.seq - seq).toNat < r.replayWindow.toNat) :
    Tracks (Xfrm.advanceBehind r seq) top (insert (top - (r.seq - seq).toNat) seen) where
  dvd := h.dvd
  len := by
    rw [Xfrm.advanceBehind, length_setBit]
    exact h.len
  seq := h.seq
  shows := by
    change Shows r.replayWindow.toNat _ top _
    refine h.shows.mark h.pos (by omega) (by omega) fun j _ => ?_
    rw [Xfrm.advanceBehind, h.bitBehind_eq hd, testBit_setBit _ (h.slot_lt_len _), Bool.or_eq_true,
      decide_eq_true_eq]

theorem testBit_clearAhead (j : ℕ) :
    testBit (clearAhead r d) j = true ↔ testBit r.bmp j = true ∧
      ∀ i : ℤ, 0 < i → i < d.toNat → j ≠ slot r.replayWindow.toNat (top + i) := by
  have hplace : ∀ i ∈ range' 1 (d.toNat - 1), (bitAhead r (.ofNat 32 i)).toNat =
      slot r.replayWindow.toNat (top + i) := by
    intro i hi
    have := (mem_range'_1.mp hi).2
    rw [h.bitAhead_eq, toNat_ofNat, mod_eq_of_lt (by have := d.isLt; omega)]
  rw [clearAhead, testBit_foldl_clearBit fun i hi => hplace i hi ▸ h.slot_lt_len _]
  refine and_congr_right fun _ => ⟨fun hne i h₀ hi => ?_, fun hne i hi => ?_⟩
  · obtain ⟨k, rfl⟩ := Int.eq_ofNat_of_zero_le h₀.le
    have hk : k ∈ range' 1 (d.toNat - 1) := mem_range'_1.mpr (by omega)
    exact hplace k hk ▸ hne k hk
  · have := mem_range'_1.mp hi
    exact hplace i hi ▸ hne i (by omega) (by omega)

theorem testBit_clearAll {j : ℕ} (hj : j < r.replayWindow.toNat) :
    testBit (clearAll r) j = false := by
  have hone : 1 ≤ r.replayWindow := le_def.mpr h.pos
  apply testBit_foldl_set_zero
  rw [toNat_ushiftRight, shiftRight_eq_div_pow, toNat_sub_of_le hone]
  change j / 32 < (r.replayWindow.toNat - 1) / 32 + 1
  omega

theorem advanceTop (d seq : BitVec 32) (hd : 0 < d.toNat)
    (hseq : top + d.toNat ≡ seq.toNat [ZMOD 2 ^ 32]) :
    Tracks (Xfrm.advanceTop r seq d) (top + d.toNat) (insert (top + d.toNat) seen) := by
  have hlen : (if d < r.replayWindow then clearAhead r d else clearAll r).length =
      r.bmp.length := by
    split_ifs
    · exact length_foldl_clearBit
    · exact length_foldl_set_zero
  refine ⟨h.dvd, ?_, hseq, ?_⟩
  · rw [Xfrm.advanceTop, length_setBit, hlen]
    exact h.len
  · change Shows r.replayWindow.toNat _ _ _
    have hbit : ∀ j, testBit (Xfrm.advanceTop r seq d).bmp j = true ↔
        j = slot r.replayWindow.toNat (top + d.toNat) ∨
          testBit (if d < r.replayWindow then clearAhead r d else clearAll r) j = true := by
      intro j
      rw [Xfrm.advanceTop, h.bitAhead_eq, testBit_setBit, Bool.or_eq_true, decide_eq_true_eq]
      rw [hlen]
      exact h.slot_lt_len _
    by_cases hlt : d < r.replayWindow
    · refine h.shows.slide h.pos (by omega) fun j _ => ?_
      rw [hbit, if_pos hlt, h.testBit_clearAhead]
    · have hle : r.replayWindow.toNat ≤ d.toNat := by simpa [lt_def] using hlt
      refine h.shows.jump h.pos (by omega) (by omega) fun j hj => ?_
      rw [hbit, if_neg hlt, h.testBit_clearAll hj]
      simp

end Tracks

end LinuxKernel.Xfrm
