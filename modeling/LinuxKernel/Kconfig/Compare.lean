import Mathlib.Tactic
import LinuxKernel.Kconfig.Expr

/-! # The comparison of an expression with a value

`expr_trans_compare` writes the comparison of an expression with `y`, `m` or `n` as an expression.
Under a negation it turns the comparison around, which is wrong for the value `m`.
-/

namespace LinuxKernel.Kconfig

variable {tab : Table} {v : Values} {e : Expr} {sym : Tristate}

section Model

/-- `E_EQUAL` and `E_UNEQUAL`. -/
inductive Relation
  | equal | unequal

def Relation.flip : Relation → Relation
  | .equal => .unequal
  | .unequal => .equal

/-- `expr_alloc_comp`. -/
def Relation.exprAllocComp : Relation → Symbol → Symbol → Expr
  | .equal => .equal
  | .unequal => .unequal

/-- For `E_UNEQUAL` the expression is put under a negation. -/
def Relation.negate : Relation → Expr → Expr
  | .equal, e => e
  | .unequal, e => .not e

/-- The pointer to `symbol_yes`, `symbol_mod` or `symbol_no`. -/
def Tristate.symbol : Tristate → Symbol
  | .no => .no
  | .mod => .mod
  | .yes => .yes

/-- The comparison of an expression that is a comparison itself. -/
def compareComparison (sym : Tristate) (type : Relation) (e : Expr) : Expr :=
  match sym, type with
  | .yes, .equal | .no, .unequal => e
  | .yes, .unequal | .no, .equal => .not e
  | .mod, .equal => .symbol .no
  | .mod, .unequal => .symbol .yes

def exprTransCompare (sym : Tristate) : Expr → Relation → Expr
  | .two op l r, type =>
    let e1 := exprTransCompare sym l .equal
    let e2 := exprTransCompare sym r .equal
    type.negate (match sym with
      | .yes => .two op e1 e2
      | .no => .two op.dual e1 e2
      | .mod => .two op l r)
  | .not e, type => exprTransCompare sym e type.flip
  | .equal l r, type => compareComparison sym type (.equal l r)
  | .unequal l r, type => compareComparison sym type (.unequal l r)
  | .symbol s, type => type.exprAllocComp s sym.symbol

/-- `expr_trans_compare` for a pointer, which may be null. -/
def transCompare (sym : Tristate) (type : Relation) : Option Expr → Expr
  | none => type.negate (.symbol sym.symbol)
  | some e => exprTransCompare sym e type

/-- `expr_calc_value` for a pointer. -/
def calcValue (tab : Table) (v : Values) (e : Option Expr) : Tristate :=
  e.elim .yes (exprCalcValue tab v)

end Model

section Value

def Relation.value : Relation → Tristate → Tristate → Tristate
  | .equal, a, b => if a = b then .yes else .no
  | .unequal, a, b => if a = b then .no else .yes

/-- All symbols that are operands themselves satisfy `S`. -/
def Expr.Over (S : Symbol → Prop) : Expr → Prop
  | .symbol s => S s
  | .not e => e.Over S
  | .equal _ _ | .unequal _ _ => True
  | .two _ l r => l.Over S ∧ r.Over S

/-- An operand with the value `m` counts as `n` in the comparison with `y`. In the one with `n` it
counts as `y`, unless its string is `n`, as it is without modules. -/
def Expr.countMod (tab : Table) (v : Values) (sym : Tristate) : Expr → Expr
  | .symbol s =>
    if v.symTri s = .mod then
      if sym = .no ∧ symGetStringValue tab v s ≠ "n" then .symbol .yes else .symbol .no
    else .symbol s
  | .not e => .not (e.countMod tab v sym)
  | .two op l r => .two op (l.countMod tab v sym) (r.countMod tab v sym)
  | .equal l r => .equal l r
  | .unequal l r => .unequal l r

theorem countMod_value_ne (tab : Table) (v : Values) (sym : Tristate) (e : Expr) :
    exprCalcValue tab v (e.countMod tab v sym) ≠ .mod := by
  induction e with
  | symbol s =>
    rw [Expr.countMod]
    split_ifs with hmod <;> simp [exprCalcValue, hmod]
  | not e ih =>
    rw [Expr.countMod, exprCalcValue]
    cases hv : exprCalcValue tab v (e.countMod tab v sym) <;> simp_all [exprNot]
  | equal l r | unequal l r =>
    rw [Expr.countMod, exprCalcValue]
    split <;> simp
  | two op l r ihl ihr =>
    rw [Expr.countMod, exprCalcValue]
    cases op <;> simp only [Op.apply, exprOr, exprAnd] <;> split <;> assumption

/-- A value that is not `m` does not depend on what `m` counts as. -/
theorem countMod_value (h : exprCalcValue tab v e ≠ .mod) :
    exprCalcValue tab v (e.countMod tab v sym) = exprCalcValue tab v e := by
  induction e with
  | symbol s =>
    have hs : v.symTri s ≠ .mod := h
    rw [Expr.countMod, if_neg hs]
  | not e ih =>
    have he : exprCalcValue tab v e ≠ .mod := fun he => h (by rw [exprCalcValue, he]; rfl)
    rw [Expr.countMod, exprCalcValue, ih he, exprCalcValue]
  | equal | unequal => rfl
  | two op l r ihl ihr =>
    have hl := countMod_value_ne tab v sym l
    have hr := countMod_value_ne tab v sym r
    rw [exprCalcValue] at h
    rw [Expr.countMod, exprCalcValue, exprCalcValue]
    generalize exprCalcValue tab v l = a at *
    generalize exprCalcValue tab v r = b at *
    generalize exprCalcValue tab v (l.countMod tab v sym) = a' at *
    generalize exprCalcValue tab v (r.countMod tab v sym) = b' at *
    revert ihl ihr h hl hr
    cases op <;> cases a <;> cases b <;> cases a' <;> cases b' <;> decide

theorem Relation.value_flip (type : Relation) (a : Tristate) {b : Tristate} (ha : a ≠ .mod)
    (hb : b ≠ .mod) : type.flip.value a b = type.value (exprNot a) b := by
  cases type <;> cases a <;> cases b <;> first | rfl | contradiction

theorem compareComparison_value (type : Relation)
    (he : exprCalcValue tab v e ≠ .mod) : exprCalcValue tab v (compareComparison sym type e) =
      type.value (exprCalcValue tab v e) sym := by
  cases h : exprCalcValue tab v e <;> cases sym <;> cases type <;>
    first | contradiction | simp [compareComparison, exprCalcValue, h, Relation.value, exprNot]

/-- The comparison is that of two-valued logic. -/
theorem exprTransCompare_value (h : e.Over tab.Logical) (hsym : sym ≠ .mod) (type : Relation) :
    exprCalcValue tab v (exprTransCompare sym e type) =
      type.value (exprCalcValue tab v (e.countMod tab v sym)) sym := by
  induction e generalizing type with
  | symbol s =>
    rw [Expr.countMod]
    rcases string_cases v h with ⟨htri, hstr⟩ | ⟨htri, hstr | hstr⟩ | ⟨htri, hstr⟩ <;>
      cases type <;> cases sym <;>
      first | contradiction | simp [exprTransCompare, Relation.exprAllocComp, Tristate.symbol,
        exprCalcValue, htri, hstr, Relation.value]
  | not e ih =>
    rw [exprTransCompare, ih h, Expr.countMod]
    exact type.value_flip _ (countMod_value_ne _ _ _ e) hsym
  | equal l r => exact compareComparison_value type (countMod_value_ne _ _ sym (.equal l r))
  | unequal l r =>
    exact compareComparison_value type (countMod_value_ne _ _ sym (.unequal l r))
  | two op l r ihl ihr =>
    have hl := ihl h.1 .equal
    have hr := ihr h.2 .equal
    rw [Expr.countMod, exprCalcValue]
    generalize exprCalcValue tab v (l.countMod tab v sym) = a at hl
    generalize exprCalcValue tab v (r.countMod tab v sym) = b at hr
    cases sym <;> cases type <;> first | contradiction | skip
    all_goals
      simp only [exprTransCompare, Relation.negate, exprCalcValue, hl, hr]
      cases op <;> cases a <;> cases b <;> rfl

/-- The comparison is wrong exactly for an expression with the value `m` that has the value it is
compared with when each operand that is `m` counts as another value. -/
theorem expr_trans_compare_iff {e : Option Expr} (he : ∀ x ∈ e, x.Over tab.Logical)
    (type : Relation) (hsym : sym ≠ .mod) :
    exprCalcValue tab v (transCompare sym type e) = type.value (calcValue tab v e) sym ↔
      ∀ x ∈ e, exprCalcValue tab v x = .mod → exprCalcValue tab v (x.countMod tab v sym) ≠ sym := by
  cases e with
  | none => cases type <;> cases sym <;> first | contradiction | simp [transCompare, calcValue,
      Relation.negate, Tristate.symbol, exprCalcValue, Relation.value, exprNot]
  | some e =>
    rw [transCompare, exprTransCompare_value (he e rfl) hsym]
    show _ = type.value (exprCalcValue tab v e) sym ↔ _
    by_cases hmod : exprCalcValue tab v e = .mod
    · have hne := countMod_value_ne tab v sym e
      simp only [Option.mem_some_iff, forall_eq', hmod, true_imp_iff]
      generalize exprCalcValue tab v (e.countMod tab v sym) = a at *
      cases type <;> cases a <;> cases sym <;> simp_all [Relation.value]
    · simp [hmod, countMod_value hmod]

/-- `FOO || !BAR` with `FOO` as `m` and `BAR` as `n`, compared with `y`. -/
theorem expr_trans_compare_iff_or :
    exprCalcValue ⟨fun _ => .tristate, fun _ => false, 2⟩
      ⟨fun n => if n = 0 then .mod else if n = 1 then .no else .yes, fun _ => ""⟩
      (transCompare .yes .equal
        (some (.two .or (.symbol (.named 0)) (.not (.symbol (.named 1)))))) = .yes :=
  (expr_trans_compare_iff (by rintro _ ⟨⟩; exact ⟨.inr (.inr rfl), .inr (.inr rfl)⟩) .equal
    (by decide)).mpr (by rintro _ ⟨⟩; decide)

/-- `!FOO` with `FOO` as `m` is not `y`, but is said to be. -/
theorem not_compared :
    exprCalcValue ⟨fun _ => .tristate, fun _ => false, 1⟩ ⟨fun _ => .mod, fun _ => ""⟩
        (transCompare .yes .equal (some (.not (.symbol (.named 0))))) = .yes ∧
      calcValue ⟨fun _ => .tristate, fun _ => false, 1⟩ ⟨fun _ => .mod, fun _ => ""⟩
        (some (.not (.symbol (.named 0)))) = .mod := by
  decide

end Value

end LinuxKernel.Kconfig
