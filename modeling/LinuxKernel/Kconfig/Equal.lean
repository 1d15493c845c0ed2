import Mathlib.Tactic.SplitIfs
import LinuxKernel.Base.Fuel
import LinuxKernel.Kconfig.Eliminate

/-! # The comparison of expressions

Operands that two expressions have in common are a common factor of their values. If the same symbol
is left of both, the values are equal.
-/

namespace LinuxKernel.Kconfig

open Fuel Nat

section Connectives

variable (op : Op) (a b c : Tristate)

instance : Std.Associative op.apply :=
  ⟨fun a b c => by cases op <;> cases a <;> cases b <;> cases c <;> rfl⟩

instance : Std.Commutative op.apply := ⟨fun a b => by cases op <;> cases a <;> cases b <;> rfl⟩

@[simp] theorem Op.dual_dual : op.dual.dual = op := by cases op <;> rfl

@[simp] theorem Op.apply_unit (v : Values) : op.apply a (v.symTri op.unit) = a := by
  cases op <;> cases a <;> rfl

@[simp] theorem Op.unit_apply (v : Values) : op.apply (v.symTri op.unit) a = a := by
  cases op <;> cases a <;> rfl

@[simp] theorem Op.apply_dual_unit (v : Values) :
    op.apply a (v.symTri op.dual.unit) = v.symTri op.dual.unit := by
  cases op <;> cases a <;> rfl

@[simp] theorem Op.dual_unit_apply (v : Values) :
    op.apply (v.symTri op.dual.unit) a = v.symTri op.dual.unit := by
  cases op <;> cases a <;> rfl

end Connectives

section Constants

variable {tab : Table} {v : Values}

def Expr.size : Expr → ℕ
  | .symbol _ | .equal _ _ | .unequal _ _ => 1
  | .not e => e.size + 1
  | .two _ l r => l.size + r.size + 1

theorem Expr.size_pos (e : Expr) : 0 < e.size := by cases e <;> simp [size]

theorem exprEliminateYn_two (op : Op) (l r : Expr) :
    (exprEliminateYn l = .symbol op.dual.unit ∨ exprEliminateYn r = .symbol op.dual.unit) ∧
      exprEliminateYn (.two op l r) = .symbol op.dual.unit ∨
    exprEliminateYn l = .symbol op.unit ∧ exprEliminateYn (.two op l r) = exprEliminateYn r ∨
    exprEliminateYn r = .symbol op.unit ∧ exprEliminateYn (.two op l r) = exprEliminateYn l ∨
    (exprEliminateYn l ≠ .symbol op.dual.unit ∧ exprEliminateYn l ≠ .symbol op.unit ∧
      exprEliminateYn r ≠ .symbol op.dual.unit ∧ exprEliminateYn r ≠ .symbol op.unit) ∧
      exprEliminateYn (.two op l r) = .two op (exprEliminateYn l) (exprEliminateYn r) := by
  simp only [exprEliminateYn]
  split_ifs with h1 h2 h3 h4
  · exact .inl ⟨.inl h1, rfl⟩
  · exact .inr (.inl ⟨h2, rfl⟩)
  · exact .inl ⟨.inr h3, rfl⟩
  · exact .inr (.inr (.inl ⟨h4, rfl⟩))
  · exact .inr (.inr (.inr ⟨⟨h1, h2, h3, h4⟩, rfl⟩))

theorem exprEliminateYn_value (e : Expr) :
    exprCalcValue tab v (exprEliminateYn e) = exprCalcValue tab v e := by
  induction e with
  | symbol | not | equal | unequal => rfl
  | two op l r ihl ihr =>
    rw [exprCalcValue, ← ihl, ← ihr]
    rcases exprEliminateYn_two op l r with ⟨h | h, heq⟩ | ⟨h, heq⟩ | ⟨h, heq⟩ | ⟨h, heq⟩ <;>
      simp [heq, h, exprCalcValue]

theorem exprEliminateYn_size_le (e : Expr) : (exprEliminateYn e).size ≤ e.size := by
  induction e with
  | symbol | not | equal | unequal => exact le.refl
  | two op l r ihl ihr =>
    rcases exprEliminateYn_two op l r with ⟨-, heq⟩ | ⟨-, heq⟩ | ⟨-, heq⟩ | ⟨-, heq⟩ <;>
      rw [heq] <;> simp only [Expr.size] <;> omega

end Constants

section Equality

/-- Of both expressions the same operands were taken away. -/
structure Factored (type : Op) (e1 e2 e1' e2' : Expr) : Prop where
  common : ∀ tab v, ∃ c, exprCalcValue tab v e1 = type.apply c (exprCalcValue tab v e1') ∧
    exprCalcValue tab v e2 = type.apply c (exprCalcValue tab v e2')
  size1 : e1'.size ≤ e1.size
  size2 : e2'.size ≤ e2.size
  kept1 : ∀ l r, e1 = .two type l r → ∃ l' r', e1' = .two type l' r'
  kept2 : ∀ l r, e2 = .two type l r → ∃ l' r', e2' = .two type l' r'

variable {type : Op} {e1 e2 e1' e2' l r l' r' : Expr}

theorem Factored.refl (type : Op) (e1 e2 : Expr) : Factored type e1 e2 e1 e2 where
  common tab v := ⟨v.symTri type.unit, by simp, by simp⟩
  size1 := le.refl
  size2 := le.refl
  kept1 l r h := ⟨l, r, h⟩
  kept2 l r h := ⟨l, r, h⟩

theorem Factored.symm (h : Factored type e1 e2 e1' e2') : Factored type e2 e1 e2' e1' where
  common tab v := by
    obtain ⟨c, h1, h2⟩ := h.common tab v
    exact ⟨c, h2, h1⟩
  size1 := h.size2
  size2 := h.size1
  kept1 := h.kept2
  kept2 := h.kept1

theorem Factored.unit (heq : ∀ tab v, exprCalcValue tab v e1 = exprCalcValue tab v e2)
    (h1 : e1.operands type = none) (h2 : e2.operands type = none) :
    Factored type e1 e2 (.symbol type.unit) (.symbol type.unit) where
  common tab v := ⟨exprCalcValue tab v e1, by simp [exprCalcValue], by simp [exprCalcValue, heq]⟩
  size1 := e1.size_pos
  size2 := e2.size_pos
  kept1 l r h := by simp [h, Expr.operands] at h1
  kept2 l r h := by simp [h, Expr.operands] at h2

/-- The operands of the first expression are gone through one behind the other. -/
theorem Factored.two {e2'' : Expr} (hl : Factored type l e2 l' e2')
    (hr : Factored type r e2' r' e2'') :
    Factored type (.two type l r) e2 (.two type l' r') e2'' where
  common tab v := by
    obtain ⟨c, hl1, hl2⟩ := hl.common tab v
    obtain ⟨d, hr1, hr2⟩ := hr.common tab v
    refine ⟨type.apply c d, ?_, ?_⟩
    · rw [exprCalcValue, hl1, hr1]
      ac_rfl
    · rw [hl2, hr2]
      ac_rfl
  size1 := by
    have := hl.size1
    have := hr.size1
    simp only [Expr.size]
    omega
  size2 := Nat.le_trans hr.size2 hl.size2
  kept1 _ _ _ := ⟨l', r', rfl⟩
  kept2 _ _ h := by
    obtain ⟨_, _, h'⟩ := hl.kept2 _ _ h
    exact hr.kept2 _ _ h'

theorem operands_two (type : Op) (l r : Expr) : (Expr.two type l r).operands type = some (l, r) :=
  if_pos rfl

theorem operands_eq_some (h : e1.operands type = some (l, r)) : e1 = .two type l r := by
  cases e1 with
  | two op l' r' =>
    simp only [Expr.operands, Option.ite_none_right_eq_some] at h
    obtain ⟨rfl, rfl, rfl⟩ := h
    rfl
  | symbol | not | equal | unequal => simp [Expr.operands] at h

/-- The call ends, and what it leaves is common to the two expressions. -/
def EliminatesEq (type : Op) (e1 e2 : Expr) : Prop :=
  ∃ e1' e2', Ends (eliminateEq · type e1 e2) (e1', e2') ∧ Factored type e1 e2 e1' e2'

/-- The call ends, and equal expressions have the same value. -/
def ComparesEq (e1 e2 : Expr) : Prop :=
  ∃ b, Ends (exprEq · e1 e2) b ∧
    (b = true → ∀ tab v, exprCalcValue tab v e1 = exprCalcValue tab v e2)

theorem EliminatesEq.left {n : ℕ}
    (ih : ∀ e1 e2 : Expr, e1.size + e2.size < n → EliminatesEq type e1 e2)
    (hn : (Expr.two type l r).size + e2.size ≤ n) : EliminatesEq type (.two type l r) e2 := by
  simp only [Expr.size] at hn
  obtain ⟨l', e2', hl, hfl⟩ := ih l e2 (by omega)
  have := hfl.size2
  obtain ⟨r', e2'', hr, hfr⟩ := ih r e2' (by omega)
  refine ⟨.two type l' r', e2'', Ends.succ ?_, hfl.two hfr⟩
  simp only [eliminateEq, operands_two]
  refine hl.bind ?_
  exact hr.bind (ends_some _)

theorem EliminatesEq.right {n : ℕ} (h1 : e1.operands type = none)
    (ih : ∀ e1 e2 : Expr, e1.size + e2.size < n → EliminatesEq type e1 e2)
    (hn : e1.size + (Expr.two type l r).size ≤ n) : EliminatesEq type e1 (.two type l r) := by
  simp only [Expr.size] at hn
  obtain ⟨e1', l', hl, hfl⟩ := ih e1 l (by omega)
  have := hfl.size1
  obtain ⟨e1'', r', hr, hfr⟩ := ih e1' r (by omega)
  refine ⟨e1'', .two type l' r', Ends.succ ?_, (hfl.symm.two hfr.symm).symm⟩
  simp only [eliminateEq, h1, operands_two]
  refine hl.bind ?_
  exact hr.bind (ends_some _)

theorem EliminatesEq.leaf (h1 : e1.operands type = none) (h2 : e2.operands type = none)
    (h : ComparesEq e1 e2) : EliminatesEq type e1 e2 := by
  obtain ⟨b, hb, heq⟩ := h
  by_cases hc : e1 = e2 ∧ (e1 = .symbol .yes ∨ e1 = .symbol .no)
  · refine ⟨e1, e2, Ends.succ ?_, .refl type e1 e2⟩
    simp only [eliminateEq, h1, h2, if_pos hc]
    exact ends_some _
  · cases b with
    | true =>
      refine ⟨_, _, Ends.succ ?_, .unit (heq rfl) h1 h2⟩
      simp only [eliminateEq, h1, h2, if_neg hc]
      exact hb.bind (ends_some _)
    | false =>
      refine ⟨e1, e2, Ends.succ ?_, .refl type e1 e2⟩
      simp only [eliminateEq, h1, h2, if_neg hc]
      exact hb.bind (ends_some _)

theorem ComparesEq.two {op : Op} {a b c d : Expr}
    (h : EliminatesEq op (.two op a b) (.two op c d)) : ComparesEq (.two op a b) (.two op c d) := by
  obtain ⟨e1, e2, hends, hf⟩ := h
  obtain ⟨a', b', rfl⟩ := hf.kept1 a b rfl
  obtain ⟨c', d', rfl⟩ := hf.kept2 c d rfl
  refine ⟨sameSymbol (exprEliminateYn (.two op a' b')) (exprEliminateYn (.two op c' d')),
    Ends.succ ?_, fun heq tab v => ?_⟩
  · simp only [exprEq]
    refine Ends.bind (x := (exprEliminateYn (.two op a' b'), exprEliminateYn (.two op c' d')))
      (Ends.succ ?_) (ends_some _)
    refine hends.bind ?_
    simp only [Expr.sameType]
    exact ends_some _
  · obtain ⟨k, h1, h2⟩ := hf.common tab v
    rw [h1, h2, ← exprEliminateYn_value, ← exprEliminateYn_value (.two op c' d')]
    generalize exprEliminateYn (.two op a' b') = x, exprEliminateYn (.two op c' d') = y at heq
    unfold sameSymbol at heq
    split at heq
    · rw [of_decide_eq_true heq]
    · cases heq

end Equality

end LinuxKernel.Kconfig
