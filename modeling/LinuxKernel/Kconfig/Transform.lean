import LinuxKernel.Base.Fuel
import LinuxKernel.Kconfig.Expr

/-! # The normal form of an expression

`expr_transform` ends with an expression that has negations only above symbols. On such an
expression it changes nothing, and the negation of one needs a single way down.
-/

namespace LinuxKernel.Kconfig

open Fuel

variable {tab : Table} {v : Values}

section Normal

/-- All negations of an expression are directly above symbols for which `P` holds. -/
def NegatesOnly (P : Symbol → Prop) : Expr → Prop
  | .not (.symbol s) => P s
  | .not _ => False
  | .two _ l r => NegatesOnly P l ∧ NegatesOnly P r
  | _ => True

/-- No comparison of an expression is one of a boolean symbol with `y`, `m` or `n`. -/
def NoBooleanTest (tab : Table) : Expr → Prop
  | .symbol _ => True
  | .not e => NoBooleanTest tab e
  | .equal l r | .unequal l r => tab.symType l = .boolean → ¬ r.IsTristate
  | .two _ l r => NoBooleanTest tab l ∧ NoBooleanTest tab r

inductive Normal (tab : Table) : Expr → Prop
  | symbol (s : Symbol) : Normal tab (.symbol s)
  | not {s : Symbol} : ¬ s.IsTristate → Normal tab (.not (.symbol s))
  | equal {l r : Symbol} : (tab.symType l = .boolean → ¬ r.IsTristate) → Normal tab (.equal l r)
  | unequal {l r : Symbol} : (tab.symType l = .boolean → ¬ r.IsTristate) → Normal tab (.unequal l r)
  | two {op : Op} {l r : Expr} : Normal tab l → Normal tab r → Normal tab (.two op l r)

theorem Normal.negatesOnly {e : Expr} (h : Normal tab e) :
    NegatesOnly (fun s => ¬ s.IsTristate) e := by
  induction h with
  | symbol | equal | unequal => trivial
  | not hs => exact hs
  | two _ _ ihl ihr => exact ⟨ihl, ihr⟩

theorem Normal.noBooleanTest {e : Expr} (h : Normal tab e) : NoBooleanTest tab e := by
  induction h with
  | symbol | not => trivial
  | equal h | unequal h => exact h
  | two _ _ ihl ihr => exact ⟨ihl, ihr⟩

theorem not_isTristate_of_boolean {s : Symbol} (h : tab.symType s = .boolean) : ¬ s.IsTristate := by
  rintro (rfl | rfl | rfl) <;> cases h

theorem transEqual_normal (tab : Table) (l r : Symbol) : Normal tab (transEqual tab l r) := by
  unfold transEqual
  split
  · next h => exact .equal fun hb => absurd hb h
  · next h =>
    rw [Decidable.not_not] at h
    split
    · exact .not (not_isTristate_of_boolean h)
    · exact .symbol _
    · exact .symbol _
    · next hno hmod hyes => exact .equal fun _ => by rintro (rfl | rfl | rfl) <;> contradiction

theorem transUnequal_normal (tab : Table) (l r : Symbol) : Normal tab (transUnequal tab l r) := by
  unfold transUnequal
  split
  · next h => exact .unequal fun hb => absurd hb h
  · next h =>
    rw [Decidable.not_not] at h
    split
    · exact .symbol _
    · exact .symbol _
    · exact .not (not_isTristate_of_boolean h)
    · next hno hmod hyes => exact .unequal fun _ => by rintro (rfl | rfl | rfl) <;> contradiction

end Normal

section Negation

/-- The normal form of the negation of an expression in normal form. -/
def negation : Expr → Expr
  | .symbol .yes => .symbol .no
  | .symbol .mod => .symbol .mod
  | .symbol .no => .symbol .yes
  | .symbol s => .not (.symbol s)
  | .not e => e
  | .equal l r => .unequal l r
  | .unequal l r => .equal l r
  | .two op l r => .two op.dual (negation l) (negation r)

theorem Normal.negation {e : Expr} (h : Normal tab e) : Normal tab (negation e) := by
  induction h with
  | symbol s =>
    cases s with
    | yes | mod | no => exact .symbol _
    | named n => exact .not (by rintro (h | h | h) <;> cases h)
  | not => exact .symbol _
  | equal h => exact .unequal h
  | unequal h => exact .equal h
  | two _ _ ihl ihr => exact .two ihl ihr

theorem negation_value (e : Expr) :
    exprCalcValue tab v (negation e) = exprNot (exprCalcValue tab v e) := by
  induction e with
  | symbol s => cases s <;> rfl
  | not e => exact (exprNot_exprNot _).symm
  | equal l r | unequal l r =>
    simp only [Kconfig.negation, exprCalcValue]
    split <;> rfl
  | two op l r ihl ihr =>
    rw [Kconfig.negation, exprCalcValue, ihl, ihr, exprCalcValue, exprNot_apply]

def normalForm (tab : Table) : Expr → Expr
  | .symbol s => .symbol s
  | .not e => negation (normalForm tab e)
  | .equal l r => transEqual tab l r
  | .unequal l r => transUnequal tab l r
  | .two op l r => .two op (normalForm tab l) (normalForm tab r)

theorem normalForm_normal (tab : Table) (e : Expr) : Normal tab (normalForm tab e) := by
  induction e with
  | symbol s => exact .symbol s
  | not e ih => exact ih.negation
  | equal l r => exact transEqual_normal tab l r
  | unequal l r => exact transUnequal_normal tab l r
  | two op l r ihl ihr => exact .two ihl ihr

end Negation

section Value

variable (hv : v.Typed tab)
include hv

theorem string_of_boolean {s : Symbol} (h : tab.symType s = .boolean) :
    v.symTri s = .no ∧ symGetStringValue tab v s = "n" ∨
      v.symTri s = .yes ∧ symGetStringValue tab v s = "y" := by
  rcases string_cases v (.inr (.inl h)) with hno | ⟨hmod, -⟩ | hyes
  · exact .inl hno
  · cases s with
    | yes | mod | no => cases h
    | named n => exact absurd hmod (hv n h)
  · exact .inr hyes

theorem comparison_value (l r : Symbol) :
    exprCalcValue tab v (transEqual tab l r) = exprCalcValue tab v (.equal l r) ∧
      exprCalcValue tab v (transUnequal tab l r) = exprCalcValue tab v (.unequal l r) := by
  unfold transEqual transUnequal
  split
  · exact ⟨rfl, rfl⟩
  · next h =>
    rcases string_of_boolean hv (Decidable.not_not.mp h) with ⟨htri, hstr⟩ | ⟨htri, hstr⟩ <;>
      cases r <;> simp [exprCalcValue, htri, hstr, exprNot]

theorem normalForm_value (e : Expr) :
    exprCalcValue tab v (normalForm tab e) = exprCalcValue tab v e := by
  induction e with
  | symbol s => rfl
  | not e ih => rw [normalForm, negation_value, ih, exprCalcValue]
  | equal l r => exact (comparison_value hv l r).1
  | unequal l r => exact (comparison_value hv l r).2
  | two op l r ihl ihr => rw [normalForm, exprCalcValue, ihl, ihr, exprCalcValue]

end Value

section Calls

def Transforms (tab : Table) (e e' : Expr) : Prop := Ends (exprTransform tab · e) e'

theorem Transforms.two {l r l' r' : Expr} (hl : Transforms tab l l') (hr : Transforms tab r r')
    (op : Op) : Transforms tab (.two op l r) (.two op l' r') :=
  Ends.succ (hl.bind (hr.bind (ends_some _)))

/-- A negation looks at the result for its operand, and may go on with another expression. -/
theorem Transforms.not {e a b : Expr} (h : Transforms tab e a)
    (hnext : Ends (fun fuel => match a with
      | .not a => exprTransform tab fuel a
      | .equal l r => some (.unequal l r)
      | .unequal l r => some (.equal l r)
      | .two op a b => exprTransform tab fuel (.two op.dual (.not a) (.not b))
      | .symbol s => some (negation (.symbol s))) b) : Transforms tab (.not e) b := by
  refine Ends.succ (h.bind ?_)
  cases a with
  | symbol s => cases s <;> exact hnext
  | two op => cases op <;> exact hnext
  | not | equal | unequal => exact hnext

theorem transforms_symbol (tab : Table) (s : Symbol) : Transforms tab (.symbol s) (.symbol s) :=
  Ends.succ (ends_some _)

theorem transforms_equal (tab : Table) (l r : Symbol) :
    Transforms tab (.equal l r) (transEqual tab l r) :=
  Ends.succ (ends_some _)

theorem transforms_unequal (tab : Table) (l r : Symbol) :
    Transforms tab (.unequal l r) (transUnequal tab l r) :=
  Ends.succ (ends_some _)

theorem comparison_of_normal {l r : Symbol} (h : tab.symType l = .boolean → ¬ r.IsTristate) :
    transEqual tab l r = .equal l r ∧ transUnequal tab l r = .unequal l r := by
  unfold transEqual transUnequal
  split
  · exact ⟨rfl, rfl⟩
  · next hb =>
    have hr := h (Decidable.not_not.mp hb)
    cases r with
    | yes | mod | no => exact absurd (by simp [Symbol.IsTristate]) hr
    | named n => exact ⟨rfl, rfl⟩

theorem Normal.transforms {e : Expr} (h : Normal tab e) : Transforms tab e e := by
  induction h with
  | symbol s => exact transforms_symbol tab s
  | @not s hs =>
    refine (transforms_symbol tab s).not ?_
    cases s with
    | yes | mod | no => exact absurd (by simp [Symbol.IsTristate]) hs
    | named n => exact ends_some _
  | @equal l r h =>
    have := transforms_equal tab l r
    rwa [(comparison_of_normal h).1] at this
  | @unequal l r h =>
    have := transforms_unequal tab l r
    rwa [(comparison_of_normal h).2] at this
  | two _ _ ihl ihr => exact ihl.two ihr _

theorem Normal.transforms_not {a : Expr} (ha : Normal tab a) {e : Expr} (h : Transforms tab e a) :
    Transforms tab (.not e) (Kconfig.negation a) := by
  induction ha generalizing e with
  | symbol s => exact h.not (ends_some _)
  | not hs => exact h.not (transforms_symbol tab _)
  | equal | unequal => exact h.not (ends_some _)
  | @two op l r hl hr ihl ihr => exact h.not ((ihl hl.transforms).two (ihr hr.transforms) op.dual)

theorem transforms_normalForm (tab : Table) (e : Expr) : Transforms tab e (normalForm tab e) := by
  induction e with
  | symbol s => exact transforms_symbol tab s
  | not e ih => exact (normalForm_normal tab e).transforms_not ih
  | equal l r => exact transforms_equal tab l r
  | unequal l r => exact transforms_unequal tab l r
  | two op l r ihl ihr => exact ihl.two ihr op

end Calls

/-- The call ends with an expression of the same value, with negations only above symbols other than
`y`, `m` and `n` and without comparisons of boolean symbols with these, and a second call changes
nothing. -/
theorem expr_transform_normalises (tab : Table) (e : Expr) :
    ∃ e', Transforms tab e e' ∧
      (∀ v : Values, v.Typed tab → exprCalcValue tab v e' = exprCalcValue tab v e) ∧
      NegatesOnly (fun s => ¬ s.IsTristate) e' ∧ NoBooleanTest tab e' ∧ Transforms tab e' e' := by
  have hn := normalForm_normal tab e
  exact ⟨normalForm tab e, transforms_normalForm tab e, fun v hv => normalForm_value hv e,
    hn.negatesOnly, hn.noBooleanTest, hn.transforms⟩

/-- The negation of a quoted word stays. -/
theorem quoted_word_stays_negated :
    exprTransform ⟨fun _ => .unknown, fun _ => true, 1⟩ 2 (.not (.symbol (.named 0))) =
        some (.not (.symbol (.named 0))) ∧
      ¬ NegatesOnly (fun s => Table.isConst ⟨fun _ => .unknown, fun _ => true, 1⟩ s = false)
        (.not (.symbol (.named 0))) :=
  ⟨rfl, by simp [NegatesOnly, Table.isConst]⟩

end LinuxKernel.Kconfig
