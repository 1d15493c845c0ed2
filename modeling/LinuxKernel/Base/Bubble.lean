import Mathlib.Data.List.Perm.Basic
import Mathlib.Data.List.Chain

/-! # Bubble sort

Passes over a list that swap neighbours in the wrong order, until a pass swaps none. Each swap takes
away one pair in the wrong order.
-/

namespace LinuxKernel.Bubble

variable {α : Type*} (r : α → α → Bool)

/-- A pass behind the element `last`, and whether it swapped. Neighbours are swapped if the later
one comes first by `r`. -/
def pass : α → List α → List α × Bool
  | last, [] => ([last], false)
  | last, cur :: rest =>
    if r cur last then (cur :: (pass last rest).1, true)
    else (last :: (pass cur rest).1, (pass cur rest).2)

def passList : List α → List α × Bool
  | [] => ([], false)
  | a :: l => pass r a l

/-- The number of pairs in the wrong order. -/
def inversions : List α → ℕ
  | [] => 0
  | a :: l => l.countP (r · a) + inversions l

variable {r} (hr : ∀ a b, r a b → r b a = false)

theorem pass_perm (a : α) (l : List α) : (pass r a l).1.Perm (a :: l) := by
  induction l generalizing a with
  | nil => exact .rfl
  | cons b l ih =>
    rw [pass]
    split
    · exact ((ih a).cons b).trans (.swap a b l)
    · exact (ih b).cons a

theorem passList_perm (l : List α) : (passList r l).1.Perm l := by
  cases l with
  | nil => exact .rfl
  | cons a l => exact pass_perm a l

include hr in
theorem inversions_pass (a : α) (l : List α) :
    inversions r (pass r a l).1 + (pass r a l).2.toNat ≤ inversions r (a :: l) := by
  induction l generalizing a with
  | nil => simp [pass]
  | cons b l ih =>
    rw [pass]
    split
    · next hba =>
      have hab : r a b = false := hr b a hba
      have hcount : (pass r a l).1.countP (r · b) = l.countP (r · b) := by
        rw [(pass_perm a l).countP_eq, List.countP_cons_of_neg (by simp [hab])]
      have hswap : (b :: l).countP (r · a) = l.countP (r · a) + 1 := List.countP_cons_of_pos hba
      have hle := ih a
      simp only [inversions, Bool.toNat_true] at hle ⊢
      omega
    · have hcount : (pass r b l).1.countP (r · a) = (b :: l).countP (r · a) :=
        (pass_perm b l).countP_eq _
      have hle := ih b
      rw [inversions, inversions]
      dsimp only
      omega

include hr in
theorem inversions_passList {l : List α} (h : (passList r l).2 = true) :
    inversions r (passList r l).1 < inversions r l := by
  cases l with
  | nil => simp [passList] at h
  | cons a l =>
    have hle := inversions_pass hr a l
    rw [passList] at h
    rw [h] at hle
    exact hle

/-- Passes until one of them changes nothing. -/
def sort (r : α → α → Bool) (hr : ∀ a b, r a b → r b a = false) (l : List α) : List α :=
  if _h : (passList r l).2 = true then sort r hr (passList r l).1 else (passList r l).1
termination_by inversions r l
decreasing_by exact inversions_passList hr _h

theorem sort_perm (l : List α) : (sort r hr l).Perm l := by
  fun_induction sort r hr l with
  | case1 l h ih => exact ih.trans (passList_perm l)
  | case2 l h => exact passList_perm l

theorem pass_isChain {a : α} {l : List α} (h : (pass r a l).2 = false) :
    (pass r a l).1 = a :: l ∧ (a :: l).IsChain fun x y => r y x = false := by
  induction l generalizing a with
  | nil => exact ⟨rfl, .singleton a⟩
  | cons b l ih =>
    rw [pass] at h ⊢
    split at h
    · cases h
    · next hba =>
      obtain ⟨heq, hchain⟩ := ih h
      rw [if_neg hba, heq]
      exact ⟨rfl, .cons_cons (by simpa using hba) hchain⟩

theorem sort_pairwise (htrans : ∀ a b c, r b a = false → r c b = false → r c a = false)
    (l : List α) :
    (sort r hr l).Pairwise fun x y => r y x = false := by
  have htr : Trans (fun x y => r y x = false) (fun x y => r y x = false) fun x y => r y x = false :=
    ⟨fun {a b c} hab hbc => htrans a b c hab hbc⟩
  fun_induction sort r hr l with
  | case1 l h ih => exact ih
  | case2 l h =>
    rw [Bool.not_eq_true] at h
    cases l with
    | nil => exact .nil
    | cons a l =>
      obtain ⟨heq, hchain⟩ := pass_isChain h
      rw [passList, heq]
      exact hchain.pairwise

end LinuxKernel.Bubble
