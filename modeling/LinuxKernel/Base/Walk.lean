import Mathlib.Order.Defs.PartialOrder
import Mathlib.Tactic.Common

/-! # Walks of a given length

A relation without short closed walks keeps none when an edge is added, unless the end of the
edge was already linked to its start by a short walk.
-/

namespace LinuxKernel

variable {α : Type*} {R S : α → α → Prop} {n m N : ℕ} {a b c f : α}

inductive Walk (R : α → α → Prop) : ℕ → α → α → Prop where
  | nil (a : α) : Walk R 0 a a
  | cons {n : ℕ} {a b c : α} : R a b → Walk R n b c → Walk R (n + 1) a c

/-- There is no closed walk of at most `N` steps. -/
def AcyclicUpTo (R : α → α → Prop) (N : ℕ) : Prop := ∀ n a, 1 ≤ n → n ≤ N → ¬ Walk R n a a

namespace Walk

theorem append (h : Walk R n a b) (h' : Walk R m b c) : Walk R (n + m) a c := by
  induction h with
  | nil => simpa using h'
  | cons hab _ ih =>
    rw [Nat.add_right_comm]
    exact .cons hab (ih h')

theorem mono (hRS : ∀ a b, R a b → S a b) (h : Walk R n a b) : Walk S n a b := by
  induction h with
  | nil => exact .nil _
  | cons hab _ ih => exact .cons (hRS _ _ hab) ih

theorem single (h : R a b) : Walk R 1 a b := .cons h (.nil b)

variable (hS : ∀ a b, S a b → R a b ∨ a = c ∧ b = f)
include hS

/-- A walk that uses the edge from `c` to `f` can be cut there. -/
theorem cut (h : Walk S n a b) :
    Walk R n a b ∨ ∃ i j, i + 1 + j = n ∧ Walk S i a c ∧ Walk S j f b := by
  induction h with
  | nil => exact .inl (.nil _)
  | @cons n a a' b haa' hw ih =>
    rcases hS _ _ haa' with hR | ⟨rfl, rfl⟩
    · rcases ih with hw' | ⟨i, j, rfl, hi, hj⟩
      · exact .inl (.cons hR hw')
      · exact .inr ⟨i + 1, j, by omega, .cons haa' hi, hj⟩
    · exact .inr ⟨0, n, by omega, .nil _, hw⟩

/-- A walk to `c` need not use the edge that starts there. -/
theorem avoid (h : Walk S n a c) : ∃ k ≤ n, Walk R k a c := by
  generalize hb : c = b at h
  induction h with
  | nil => exact ⟨0, Nat.le_refl 0, .nil _⟩
  | cons haa' _ ih =>
    subst hb
    rcases hS _ _ haa' with hR | ⟨rfl, -⟩
    · obtain ⟨k, hk, hw⟩ := ih rfl
      exact ⟨k + 1, by omega, .cons hR hw⟩
    · exact ⟨0, Nat.zero_le _, .nil _⟩

end Walk

theorem AcyclicUpTo.mono (hRS : ∀ a b, R a b → S a b) (h : AcyclicUpTo S N) : AcyclicUpTo R N :=
  fun n a hn hN hw => h n a hn hN (hw.mono hRS)

/-- Adding an edge closes a short walk only if its end already had a walk to its start. -/
theorem AcyclicUpTo.insert (h : AcyclicUpTo R N) (hS : ∀ a b, S a b → R a b ∨ a = c ∧ b = f)
    (hfc : ∀ k, k + 1 ≤ N → ¬ Walk R k f c) : AcyclicUpTo S N := by
  intro n a hn hN hw
  rcases hw.cut hS with hw | ⟨i, j, rfl, hi, hj⟩
  · exact h n a hn hN hw
  · obtain ⟨k, hk, hw⟩ := (hj.append hi).avoid hS
    exact hfc k (by omega) hw

end LinuxKernel
