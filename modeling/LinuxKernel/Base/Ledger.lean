import Mathlib.Algebra.BigOperators.Ring.Finset
import Mathlib.Algebra.Order.BigOperators.Group.Finset
import Mathlib.Algebra.Order.Ring.Nat

/-! # Shares of agents

The state of an agent says how much of each account it holds. What all of them hold together changes
only by what one of them gains or loses. If the items of a list hold no more than one unit of each
account together, then no two of them hold the same one.
-/

namespace LinuxKernel.Ledger

open List Finset Function

variable {T P X : Type*}

section Agents

variable [Fintype T] (share : P → X → ℕ) (state : T → P)

def total (x : X) : ℕ := ∑ i, share (state i) x

variable {share state}

theorem total_eq_zero {x : X} (h : ∀ i, share (state i) x = 0) : total share state x = 0 :=
  sum_eq_zero fun i _ => h i

variable (share state) in
theorem share_le_total (i : T) (x : X) : share (state i) x ≤ total share state x :=
  single_le_sum (f := fun i => share (state i) x) (fun _ _ => Nat.zero_le _) (mem_univ i)

variable [DecidableEq T]

variable (share state) in
theorem total_update (i : T) (q : P) (x : X) :
    total share (update state i q) x + share (state i) x = total share state x + share q x := by
  have hnew := add_sum_erase univ (fun j => share (update state i q j) x) (mem_univ i)
  have hold := add_sum_erase univ (fun j => share (state j) x) (mem_univ i)
  have hrest : ∑ j ∈ univ.erase i, share (update state i q j) x =
      ∑ j ∈ univ.erase i, share (state j) x :=
    sum_congr rfl fun j hj => by rw [update_of_ne (ne_of_mem_erase hj)]
  simp only [update_self] at hnew
  unfold total
  omega

end Agents

section Items

variable (share : P → X → ℕ) (items : List P)

def sum (x : X) : ℕ := (items.map fun p => share p x).sum

variable {share items}

theorem sum_cons (p : P) (x : X) : sum share (p :: items) x = share p x + sum share items x := by
  rw [sum, List.map_cons, List.sum_cons, ← sum]

variable (share) in
theorem sum_erase [DecidableEq P] {p : P} (h : p ∈ items) (x : X) :
    sum share (items.erase p) x + share p x = sum share items x := by
  have hsum := sum_map_erase (fun p => share p x) h
  unfold sum
  omega

theorem share_le_sum {p : P} (h : p ∈ items) (x : X) : share p x ≤ sum share items x :=
  single_le_sum (fun _ _ => Nat.zero_le _) _ (mem_map_of_mem h)

variable (share) in
theorem sum_pos_iff {x : X} : 0 < sum share items x ↔ ∃ p ∈ items, 0 < share p x := by
  constructor
  · intro h
    by_contra hnone
    push Not at hnone
    have hzero : sum share items x = 0 := sum_eq_zero fun n hn => by
      obtain ⟨p, hp, rfl⟩ := mem_map.mp hn
      exact Nat.le_zero.mp (hnone p hp)
    omega
  · rintro ⟨p, hp, hpos⟩
    exact hpos.trans_le (share_le_sum hp x)

theorem pairwise_of_sum_le_one (h : ∀ x, sum share items x ≤ 1) :
    items.Pairwise fun p q => ∀ x, share p x + share q x ≤ 1 := by
  induction items with
  | nil => exact .nil
  | cons p items ih =>
    refine .cons (fun q hq x => ?_) (ih fun x => (Nat.le_add_left _ _).trans (h x))
    exact (Nat.add_le_add_left (share_le_sum hq x) _).trans (h x)

variable (share) in
theorem sum_sum_comm (s : Finset X) :
    ∑ x ∈ s, sum share items x = (items.map fun p => ∑ x ∈ s, share p x).sum := by
  induction items with
  | nil => exact sum_eq_zero fun x _ => rfl
  | cons p items ih =>
    simp only [sum_cons, List.map_cons, List.sum_cons, sum_add_distrib, ih]

end Items

end LinuxKernel.Ledger
