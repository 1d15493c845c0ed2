import Mathlib.Data.Int.ModEq
import Mathlib.Data.Set.Insert

/-! # A window that slides over the integers

The last `w` numbers up to a top are kept on a ring of `w` bits, each at its remainder. When the
top moves, the bits between the old and the new top have to be cleared, and those only.
-/

namespace LinuxKernel.Window

open Int Set

variable {w : ℕ} {top n m d : ℤ} {bit bit' : ℕ → Bool} {seen : Set ℤ}

/-- The place of a number on the ring. -/
def slot (w : ℕ) (n : ℤ) : ℕ := ((n - 1) % w).toNat

theorem slot_cast (hw : 0 < w) (n : ℤ) : (slot w n : ℤ) = (n - 1) % w :=
  toNat_of_nonneg (emod_nonneg _ (by omega))

theorem slot_lt (hw : 0 < w) (n : ℤ) : slot w n < w := by
  have := emod_lt_of_pos (n - 1) (show (0 : ℤ) < w by omega)
  rw [← slot_cast hw] at this
  omega

theorem eq_slot {k : ℕ} (hk : k < w) (h : k ≡ n - 1 [ZMOD w]) : k = slot w n := by
  have hcast := slot_cast (Nat.zero_lt_of_lt hk) n
  rw [← h.eq, emod_eq_of_lt (by omega) (by omega)] at hcast
  omega

theorem slot_inj (hw : 0 < w) (h : slot w n = slot w m) (h₁ : n - m < w) (h₂ : m - n < w) :
    n = m := by
  have hmod : m - 1 ≡ n - 1 [ZMOD w] := by
    rw [ModEq, ← slot_cast hw, ← slot_cast hw, h]
  have hdvd := hmod.dvd
  have hzero := eq_zero_of_abs_lt_dvd hdvd (abs_lt.mpr ⟨by omega, by omega⟩)
  omega

/-- The ring says which numbers of the window have been seen, and none above the top has. -/
structure Shows (w : ℕ) (bit : ℕ → Bool) (top : ℤ) (seen : Set ℤ) : Prop where
  le : ∀ n ∈ seen, n ≤ top
  bit : ∀ n, top - w < n → n ≤ top → (bit (slot w n) = true ↔ n ∈ seen)

namespace Shows

variable (hw : 0 < w) (h : Shows w bit top seen)
include h

include hw

theorem mark (h₁ : top - w < n) (h₂ : n ≤ top)
    (hbit : ∀ j < w, bit' j = true ↔ j = slot w n ∨ bit j = true) :
    Shows w bit' top (insert n seen) where
  le m hm := by
    rcases mem_insert_iff.mp hm with rfl | hm
    · exact h₂
    · exact h.le m hm
  bit m h₃ h₄ := by
    rw [hbit _ (slot_lt hw m), h.bit m h₃ h₄]
    refine or_congr_left ⟨fun hs => slot_inj hw hs (by omega) (by omega), ?_⟩
    rintro rfl
    rfl

omit hw in
theorem le_of_advance (h₁ : 0 < d) : ∀ m ∈ insert (top + d) seen, m ≤ top + d := by
  intro m hm
  rcases mem_insert_iff.mp hm with rfl | hm
  · exact le_rfl
  · have := h.le m hm
    omega

theorem slide (h₁ : 0 < d) (hbit : ∀ j < w, bit' j = true ↔
      j = slot w (top + d) ∨ bit j = true ∧ ∀ i, 0 < i → i < d → j ≠ slot w (top + i)) :
    Shows w bit' (top + d) (insert (top + d) seen) where
  le := h.le_of_advance h₁
  bit m h₃ h₄ := by
    rw [hbit _ (slot_lt hw m)]
    rcases eq_or_lt_of_le h₄ with rfl | hlt
    · simp
    constructor
    · rintro (hs | ⟨hb, hclear⟩)
      · exact .inl (slot_inj hw hs (by omega) (by omega))
      · have hle : m ≤ top := by
          by_contra hgt
          exact hclear (m - top) (by omega) (by omega) (by congr 1; omega)
        exact .inr ((h.bit m (by omega) hle).mp hb)
    · rintro (rfl | hm)
      · exact .inl rfl
      · have hle := h.le m hm
        refine .inr ⟨(h.bit m (by omega) hle).mpr hm, fun i hi hid hs => ?_⟩
        have := slot_inj hw hs (by omega)
        omega

theorem jump (h₁ : 0 < d) (h₂ : w ≤ d) (hbit : ∀ j < w, bit' j = true ↔ j = slot w (top + d)) :
    Shows w bit' (top + d) (insert (top + d) seen) where
  le := h.le_of_advance h₁
  bit m h₃ h₄ := by
    rw [hbit _ (slot_lt hw m)]
    constructor
    · exact fun hs => .inl (slot_inj hw hs (by omega) (by omega))
    · rintro (rfl | hm)
      · rfl
      · exact absurd (h.le m hm) (by omega)

end Shows

end LinuxKernel.Window
