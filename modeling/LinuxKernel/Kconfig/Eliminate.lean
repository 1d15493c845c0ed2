import LinuxKernel.Kconfig.Expr

/-! # Elimination of duplicates

The operands of a connective are compared with each other, pair by pair. Of two operands that are
equal or that can be joined, the first becomes the neutral constant and the second one the joined
expression, and then the constants are removed. This is repeated until nothing changes.

The source changes the tree in place. A pointer to the place of an operand is modelled as the path
to it from the expression whose operands are compared.
-/

namespace LinuxKernel.Kconfig

/-- The constant that is neutral for a connective. -/
def Op.unit : Op → Symbol
  | .or => .no
  | .and => .yes

def Expr.operands (type : Op) : Expr → Option (Expr × Expr)
  | .two op l r => if op = type then some (l, r) else none
  | _ => none

section Equality

def exprEliminateYn : Expr → Expr
  | .two op l r =>
    let l := exprEliminateYn l
    let r := exprEliminateYn r
    if l = .symbol op.dual.unit then .symbol op.dual.unit
    else if l = .symbol op.unit then r
    else if r = .symbol op.dual.unit then .symbol op.dual.unit
    else if r = .symbol op.unit then l
    else .two op l r
  | e => e

def Expr.sameType : Expr → Expr → Bool
  | .symbol _, .symbol _ | .not _, .not _ | .equal _ _, .equal _ _
  | .unequal _ _, .unequal _ _ => true
  | .two op _ _, .two op' _ _ => op = op'
  | _, _ => false

def sameSymbol : Expr → Expr → Bool
  | .symbol s, .symbol t => s = t
  | _, _ => false

mutual

/-- `__expr_eliminate_eq`. The results are what the two places hold afterwards. -/
def eliminateEq : ℕ → Op → Expr → Expr → Option (Expr × Expr)
  | 0, _, _, _ => none
  | fuel + 1, type, e1, e2 =>
    match e1.operands type with
    | some (l, r) => do
      let (l, e2) ← eliminateEq fuel type l e2
      let (r, e2) ← eliminateEq fuel type r e2
      return (.two type l r, e2)
    | none =>
      match e2.operands type with
      | some (l, r) => do
        let (e1, l) ← eliminateEq fuel type e1 l
        let (e1, r) ← eliminateEq fuel type e1 r
        return (e1, .two type l r)
      | none =>
        if e1 = e2 ∧ (e1 = .symbol .yes ∨ e1 = .symbol .no) then some (e1, e2)
        else do
          if ← exprEq fuel e1 e2 then return (.symbol type.unit, .symbol type.unit)
          else return (e1, e2)

def exprEliminateEq : ℕ → Expr → Expr → Option (Expr × Expr)
  | 0, _, _ => none
  | fuel + 1, e1, e2 => do
    let (e1, e2) ← match e1 with
      | .two op _ _ => eliminateEq fuel op e1 e2
      | _ => some (e1, e2)
    let (e1, e2) ←
      if e1.sameType e2 then some (e1, e2)
      else match e2 with
        | .two op _ _ => eliminateEq fuel op e1 e2
        | _ => some (e1, e2)
    return (exprEliminateYn e1, exprEliminateYn e2)

def exprEq : ℕ → Expr → Expr → Option Bool
  | 0, _, _ => none
  | fuel + 1, e1, e2 =>
    match e1, e2 with
    | .symbol s, .symbol t => some (s = t)
    | .equal l r, .equal l' r' | .unequal l r, .unequal l' r' => some (l = l' ∧ r = r')
    | .not a, .not b => exprEq fuel a b
    | .two op _ _, .two op' _ _ =>
      if op = op' then do
        let (e1, e2) ← exprEliminateEq fuel e1 e2
        return sameSymbol e1 e2
      else some false
    | _, _ => some false

end

end Equality

section Join

variable (tab : Table)

end Join

section Places

inductive Side
  | left | right
  deriving DecidableEq

abbrev Place := List Side

def Expr.get : Expr → Place → Expr
  | .two _ l _, .left :: p => l.get p
  | .two _ _ r, .right :: p => r.get p
  | e, _ => e

def Expr.put : Expr → Place → Expr → Expr
  | .two op l r, .left :: p, x => .two op (l.put p x) r
  | .two op l r, .right :: p, x => .two op l (r.put p x)
  | e, _ :: _, _ => e
  | _, [], x => x

end Places

section Duplicates

variable (tab : Table)

/-- The changes that `trans_count` counts: a join of two operands, or an operand that is replaced by
a constant. -/
abbrev Changes := List (Option Expr)

end Duplicates

end LinuxKernel.Kconfig
