import Mathlib

/-! # Lists of intervals

Half-open intervals of integers in a list, in order and without touching each other. What they
cover is a finite set, and its size is the sum of theirs.
-/

namespace LinuxKernel.Intervals

open List

variable {α : Type*} (lo hi : α → ℤ)

noncomputable def points (l : List α) : Finset ℤ :=
  l.foldr (fun a s => Finset.Ico (lo a) (hi a) ∪ s) ∅

/-- The intervals are in order, and there is a gap between any two. -/
@[mk_iff]
structure Apart (l : List α) : Prop where
  le : ∀ a ∈ l, lo a ≤ hi a
  lt : l.Pairwise fun a b => hi a < lo b

/-- How much of an interval is in another one. -/
def overlap (f t : ℤ) (a : α) : ℤ := max 0 (min (hi a) t - max (lo a) f)

variable {lo hi} {a : α} {l l₁ l₂ : List α} {x f t : ℤ}

theorem mem_points : x ∈ points lo hi l ↔ ∃ a ∈ l, lo a ≤ x ∧ x < hi a := by
  induction l with
  | nil => simp [points]
  | cons a l ih =>
    rw [points, foldr_cons, ← points, Finset.mem_union, ih]
    simp

theorem points_cons : points lo hi (a :: l) = Finset.Ico (lo a) (hi a) ∪ points lo hi l := rfl

theorem points_append : points lo hi (l₁ ++ l₂) = points lo hi l₁ ∪ points lo hi l₂ := by
  ext x
  simp only [mem_points, Finset.mem_union, mem_append, or_and_right, exists_or]

namespace Apart

theorem nil : Apart lo hi [] := ⟨by simp, List.Pairwise.nil⟩

theorem cons_iff : Apart lo hi (a :: l) ↔ lo a ≤ hi a ∧ (∀ b ∈ l, hi a < lo b) ∧ Apart lo hi l := by
  simp only [apart_iff, forall_mem_cons, pairwise_cons]
  tauto

theorem append_iff : Apart lo hi (l₁ ++ l₂) ↔
    Apart lo hi l₁ ∧ Apart lo hi l₂ ∧ ∀ a ∈ l₁, ∀ b ∈ l₂, hi a < lo b := by
  simp only [apart_iff, forall_mem_append, pairwise_append]
  tauto

theorem sublist (h : Apart lo hi l₂) (hs : l₁.Sublist l₂) : Apart lo hi l₁ :=
  ⟨fun a ha => h.le a (hs.subset ha), h.lt.sublist hs⟩

theorem disjoint (h : Apart lo hi (a :: l)) :
    Disjoint (Finset.Ico (lo a) (hi a)) (points lo hi l) := by
  obtain ⟨-, hab, -⟩ := cons_iff.mp h
  rw [Finset.disjoint_left]
  intro x hx hx'
  obtain ⟨b, hb, hbx, -⟩ := mem_points.mp hx'
  have := hab b hb
  have := (Finset.mem_Ico.mp hx).2
  omega

theorem card_inter_Ico (h : Apart lo hi l) :
    ((points lo hi l ∩ Finset.Ico f t).card : ℤ) = (l.map (overlap lo hi f t)).sum := by
  induction l with
  | nil => simp [points]
  | cons a l ih =>
    rw [points_cons, Finset.union_inter_distrib_right, Finset.card_union_of_disjoint
      (h.disjoint.mono Finset.inter_subset_left Finset.inter_subset_left), map_cons,
      Nat.cast_add, ih (cons_iff.mp h).2.2, Finset.Ico_inter_Ico, Int.card_Ico, overlap]
    congr 1
    omega

theorem card_points (h : Apart lo hi l) :
    ((points lo hi l).card : ℤ) = (l.map fun a => hi a - lo a).sum := by
  induction l with
  | nil => simp [points]
  | cons a l ih =>
    obtain ⟨ha, -, hl⟩ := cons_iff.mp h
    rw [points_cons, Finset.card_union_of_disjoint h.disjoint, map_cons, sum_cons,
      Nat.cast_add, ih hl, Int.card_Ico, Int.toNat_of_nonneg (by omega)]

end Apart

end LinuxKernel.Intervals
