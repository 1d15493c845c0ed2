import Mathlib.Data.Nat.Digits.Defs

/-! # Carries in positional numbers

Adding one to a positional number clears its leading full digits and adds one to
the digit after them.
-/

namespace LinuxKernel

open List Nat

theorem ofDigits_carry (b k d : ℕ) (ds : List ℕ) (hb : 0 < b) :
    ofDigits b (replicate k 0 ++ (d + 1) :: ds) =
      ofDigits b (replicate k (b - 1) ++ d :: ds) + 1 := by
  induction k with
  | zero =>
    simp only [replicate_zero, nil_append, ofDigits_cons]
    ring
  | succ k ih =>
    obtain ⟨c, rfl⟩ := exists_eq_succ_of_ne_zero hb.ne'
    simp only [replicate_succ, cons_append, ofDigits_cons, ih]
    simp only [succ_eq_add_one, Nat.add_sub_cancel]
    ring

end LinuxKernel
