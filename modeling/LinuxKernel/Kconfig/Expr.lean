import Mathlib.Data.Nat.Notation

/-! # Expressions of the configuration language

The dependencies of the configuration options are expressions with the values `n`, `m` and `y`.
A symbol of the tristate type takes all of them, and one of the boolean type only `n` and `y`.
-/

namespace LinuxKernel.Kconfig

section Tristate

inductive Tristate
  | no | mod | yes
  deriving DecidableEq

def Tristate.toNat : Tristate → ℕ
  | .no => 0
  | .mod => 1
  | .yes => 2

def exprOr (dep1 dep2 : Tristate) : Tristate := if dep1.toNat > dep2.toNat then dep1 else dep2

def exprAnd (dep1 dep2 : Tristate) : Tristate := if dep1.toNat < dep2.toNat then dep1 else dep2

/-- `EXPR_NOT`, which is `2 - dep`. -/
def exprNot : Tristate → Tristate
  | .no => .yes
  | .mod => .mod
  | .yes => .no

inductive Op
  | or | and
  deriving DecidableEq

def Op.apply : Op → Tristate → Tristate → Tristate
  | .or => exprOr
  | .and => exprAnd

def Op.dual : Op → Op
  | .or => .and
  | .and => .or

@[simp] theorem exprNot_exprNot (a : Tristate) : exprNot (exprNot a) = a := by cases a <;> rfl

theorem exprNot_apply (op : Op) (a b : Tristate) :
    exprNot (op.apply a b) = op.dual.apply (exprNot a) (exprNot b) := by
  cases op <;> cases a <;> cases b <;> rfl

end Tristate

section Symbols

inductive SymbolType
  | unknown | boolean | tristate | int | hex | string | other
  deriving DecidableEq

/-- A pointer to a symbol: one of `symbol_yes`, `symbol_mod` and `symbol_no`, or a symbol of the
table. -/
inductive Symbol
  | yes | mod | no
  | named (n : ℕ)
  deriving DecidableEq

def Symbol.IsTristate (s : Symbol) : Prop := s = .yes ∨ s = .mod ∨ s = .no

instance (s : Symbol) : Decidable s.IsTristate := inferInstanceAs (Decidable (_ ∨ _))

/-- The symbols of the table with their types, those with the flag `SYMBOL_CONST`, which are the
quoted words, and the symbol for the support of modules. -/
structure Table where
  type : ℕ → SymbolType
  const : ℕ → Bool
  modulesSym : ℕ

def Table.symType (tab : Table) : Symbol → SymbolType
  | .named n => tab.type n
  | _ => .unknown

def Table.isConst (tab : Table) : Symbol → Bool
  | .named n => tab.const n
  | _ => true

/-- The values of the symbols, which `sym_calc_value` puts into `curr`. -/
structure Values where
  tri : ℕ → Tristate
  val : ℕ → String

def Values.symTri (v : Values) : Symbol → Tristate
  | .yes => .yes
  | .mod => .mod
  | .no => .no
  | .named n => v.tri n

def symGetStringValue (tab : Table) (v : Values) : Symbol → String
  | .yes => "y"
  | .mod => "m"
  | .no => "n"
  | .named n =>
    if tab.type n = .boolean ∨ tab.type n = .tristate then
      match v.tri n with
      | .no => "n"
      | .mod => if v.tri tab.modulesSym = .no then "n" else "m"
      | .yes => "y"
    else v.val n

@[simp] theorem symGetStringValue_yes (tab : Table) (v : Values) :
    symGetStringValue tab v .yes = "y" := rfl

@[simp] theorem symGetStringValue_mod (tab : Table) (v : Values) :
    symGetStringValue tab v .mod = "m" := rfl

@[simp] theorem symGetStringValue_no (tab : Table) (v : Values) :
    symGetStringValue tab v .no = "n" := rfl

@[simp] theorem Values.symTri_yes (v : Values) : v.symTri .yes = .yes := rfl

@[simp] theorem Values.symTri_no (v : Values) : v.symTri .no = .no := rfl

def Values.Typed (v : Values) (tab : Table) : Prop := ∀ n, tab.type n = .boolean → v.tri n ≠ .mod

/-- A constant, or a symbol of the boolean or the tristate type. -/
def Table.Logical (tab : Table) (s : Symbol) : Prop :=
  s.IsTristate ∨ tab.symType s = .boolean ∨ tab.symType s = .tristate

theorem string_cases {tab : Table} {s : Symbol} (v : Values) (h : tab.Logical s) :
    v.symTri s = .no ∧ symGetStringValue tab v s = "n" ∨
      v.symTri s = .mod ∧ (symGetStringValue tab v s = "n" ∨ symGetStringValue tab v s = "m") ∨
      v.symTri s = .yes ∧ symGetStringValue tab v s = "y" := by
  cases s with
  | yes | mod | no => simp [symGetStringValue, Values.symTri]
  | named n =>
    have htype : tab.type n = .boolean ∨ tab.type n = .tristate := h.resolve_left (by
      simp [Symbol.IsTristate])
    rw [symGetStringValue, if_pos htype, Values.symTri]
    cases v.tri n with
    | no => simp
    | mod =>
      simp only
      split <;> simp
    | yes => simp

end Symbols

section Expr

inductive Expr
  | symbol (s : Symbol)
  | not (e : Expr)
  | equal (l r : Symbol)
  | unequal (l r : Symbol)
  | two (type : Op) (l r : Expr)
  deriving DecidableEq

def exprCalcValue (tab : Table) (v : Values) : Expr → Tristate
  | .symbol s => v.symTri s
  | .not e => exprNot (exprCalcValue tab v e)
  | .equal l r => if symGetStringValue tab v l = symGetStringValue tab v r then .yes else .no
  | .unequal l r => if symGetStringValue tab v l = symGetStringValue tab v r then .no else .yes
  | .two op l r => op.apply (exprCalcValue tab v l) (exprCalcValue tab v r)

/-- A comparison for a boolean symbol becomes the symbol or its negation. -/
def transEqual (tab : Table) (l r : Symbol) : Expr :=
  if tab.symType l ≠ .boolean then .equal l r
  else match r with
    | .no => .not (.symbol l)
    | .mod => .symbol .no
    | .yes => .symbol l
    | _ => .equal l r

def transUnequal (tab : Table) (l r : Symbol) : Expr :=
  if tab.symType l ≠ .boolean then .unequal l r
  else match r with
    | .no => .symbol l
    | .mod => .symbol .yes
    | .yes => .not (.symbol l)
    | _ => .unequal l r

/-- `expr_transform`, with a bound on the depth of the calls. It is called again for trees that it
has built itself. -/
def exprTransform (tab : Table) : ℕ → Expr → Option Expr
  | 0, _ => none
  | _ + 1, .symbol s => some (.symbol s)
  | _ + 1, .equal l r => some (transEqual tab l r)
  | _ + 1, .unequal l r => some (transUnequal tab l r)
  | fuel + 1, .two op l r => do
    let l ← exprTransform tab fuel l
    let r ← exprTransform tab fuel r
    return .two op l r
  | fuel + 1, .not e => do
    match ← exprTransform tab fuel e with
    | .not a => exprTransform tab fuel a
    | .equal l r => return .unequal l r
    | .unequal l r => return .equal l r
    | .two .or a b => exprTransform tab fuel (.two .and (.not a) (.not b))
    | .two .and a b => exprTransform tab fuel (.two .or (.not a) (.not b))
    | .symbol .yes => return .symbol .no
    | .symbol .mod => return .symbol .mod
    | .symbol .no => return .symbol .yes
    | .symbol s => return .not (.symbol s)

end Expr

end LinuxKernel.Kconfig
