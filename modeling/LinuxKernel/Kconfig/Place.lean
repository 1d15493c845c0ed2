import LinuxKernel.Kconfig.Equal

/-! # The places of the operands

The operands of a connective are at the places that are reached through this connective only. A
change at such a place does not change the places.
-/

namespace LinuxKernel.Kconfig

variable {op : Op} {e e' x y l r : Expr} {p q : Place} {tab : Table} {v : Values}

section Spine

inductive OnSpine (op : Op) : Expr → Place → Prop
  | nil {e : Expr} : OnSpine op e []
  | left {l r : Expr} {p : Place} : OnSpine op l p → OnSpine op (.two op l r) (.left :: p)
  | right {l r : Expr} {p : Place} : OnSpine op r p → OnSpine op (.two op l r) (.right :: p)

inductive SameSpine (op : Op) : Expr → Expr → Prop
  | leaf {e e' : Expr} : e.operands op = none → e'.operands op = none → SameSpine op e e'
  | two {l r l' r' : Expr} : SameSpine op l l' → SameSpine op r r' →
    SameSpine op (.two op l r) (.two op l' r')

def spine (op : Op) : Expr → ℕ
  | .two op' l r => if op' = op then spine op l + spine op r + 1 else 0
  | _ => 0

theorem operands_two_ne_none (h : (Expr.two op l r).operands op = none) : False := by
  simp [operands_two] at h

theorem operands_of_ne {op' : Op} (h : op' ≠ op) (l r : Expr) :
    (Expr.two op' l r).operands op = none :=
  if_neg h

theorem SameSpine.refl (op : Op) (e : Expr) : SameSpine op e e := by
  induction e with
  | symbol | not | equal | unequal => exact .leaf rfl rfl
  | two op' l r ihl ihr =>
    by_cases h : op' = op
    · subst h
      exact .two ihl ihr
    · exact .leaf (operands_of_ne h l r) (operands_of_ne h l r)

theorem SameSpine.operands_none (h : SameSpine op e e') (he : e.operands op = none) :
    e'.operands op = none := by
  cases h with
  | leaf _ h => exact h
  | two => exact (operands_two_ne_none he).elim

theorem SameSpine.exists_two (h : SameSpine op (.two op l r) e') :
    ∃ l' r', e' = .two op l' r' ∧ SameSpine op l l' ∧ SameSpine op r r' := by
  cases h with
  | leaf h _ => exact (operands_two_ne_none h).elim
  | two hl hr => exact ⟨_, _, rfl, hl, hr⟩

theorem SameSpine.trans {e'' : Expr} (h : SameSpine op e e') (h' : SameSpine op e' e'') :
    SameSpine op e e'' := by
  induction h generalizing e'' with
  | leaf h1 h2 => exact .leaf h1 (h'.operands_none h2)
  | two _ _ ihl ihr =>
    obtain ⟨l, r, rfl, hl, hr⟩ := h'.exists_two
    exact .two (ihl hl) (ihr hr)

theorem spine_of_operands_none (h : e.operands op = none) : spine op e = 0 := by
  cases e with
  | symbol | not | equal | unequal => rfl
  | two op' l r =>
    refine if_neg fun heq => ?_
    subst heq
    exact operands_two_ne_none h

theorem SameSpine.spine_eq (h : SameSpine op e e') : spine op e = spine op e' := by
  induction h with
  | leaf h h' => rw [spine_of_operands_none h, spine_of_operands_none h']
  | two _ _ ihl ihr => simp only [spine, ihl, ihr]

theorem SameSpine.onSpine (h : SameSpine op e e') (hp : OnSpine op e p) : OnSpine op e' p := by
  induction hp generalizing e' with
  | nil => exact .nil
  | left _ ih =>
    obtain ⟨l, r, rfl, hl, -⟩ := h.exists_two
    exact .left (ih hl)
  | right _ ih =>
    obtain ⟨l, r, rfl, -, hr⟩ := h.exists_two
    exact .right (ih hr)

@[simp] theorem Expr.get_nil (e : Expr) : e.get [] = e := by cases e <;> rfl

@[simp] theorem Expr.put_nil (e x : Expr) : e.put [] x = x := by cases e <;> rfl

theorem SameSpine.get (h : SameSpine op e e') (hp : OnSpine op e p) :
    SameSpine op (e.get p) (e'.get p) := by
  induction hp generalizing e' with
  | nil => simpa using h
  | left _ ih =>
    obtain ⟨l, r, rfl, hl, -⟩ := h.exists_two
    exact ih hl
  | right _ ih =>
    obtain ⟨l, r, rfl, -, hr⟩ := h.exists_two
    exact ih hr

end Spine

section Put

section

variable (h : OnSpine op e p)
include h

theorem OnSpine.put_get : e.put p (e.get p) = e := by
  induction h with
  | nil => simp
  | left _ ih | right _ ih => simp only [Expr.get, Expr.put, ih]

theorem OnSpine.get_put (x : Expr) : (e.put p x).get p = x := by
  induction h with
  | nil => simp
  | left _ ih | right _ ih => simp only [Expr.get, Expr.put, ih]

theorem OnSpine.size_put (x : Expr) : (e.put p x).size + (e.get p).size = e.size + x.size := by
  induction h with
  | nil =>
    rw [Expr.put_nil, Expr.get_nil]
    omega
  | left _ ih | right _ ih =>
    simp only [Expr.get, Expr.put, Expr.size]
    omega

theorem OnSpine.next (ho : e.get p = .two op l r) :
    OnSpine op e (p ++ [.left]) ∧ OnSpine op e (p ++ [.right]) ∧
      e.get (p ++ [.left]) = l ∧ e.get (p ++ [.right]) = r := by
  induction h with
  | nil =>
    rw [Expr.get_nil] at ho
    subst ho
    exact ⟨.left .nil, .right .nil, Expr.get_nil l, Expr.get_nil r⟩
  | left _ ih =>
    obtain ⟨hl, hr, hgl, hgr⟩ := ih ho
    exact ⟨.left hl, .left hr, hgl, hgr⟩
  | right _ ih =>
    obtain ⟨hl, hr, hgl, hgr⟩ := ih ho
    exact ⟨.right hl, .right hr, hgl, hgr⟩

theorem OnSpine.sameSpine_put (hget : (e.get p).operands op = none) (hx : x.operands op = none) :
    SameSpine op e (e.put p x) := by
  induction h with
  | nil =>
    rw [Expr.get_nil] at hget
    rw [Expr.put_nil]
    exact .leaf hget hx
  | left _ ih => exact .two (ih hget) (.refl op _)
  | right _ ih => exact .two (.refl op _) (ih hget)

end

theorem OnSpine.ne_nil (hq : OnSpine op e q) (hne : p ≠ q)
    (hleaf : (e.get p).operands op = none) : p ≠ [] := by
  rintro rfl
  cases hq with
  | nil => exact hne rfl
  | left | right => exact operands_two_ne_none hleaf

theorem OnSpine.value_put (tab : Table) (v : Values) (h : OnSpine op e p) :
    ∃ c, ∀ x, exprCalcValue tab v (e.put p x) = op.apply (exprCalcValue tab v x) c := by
  induction h with
  | nil => exact ⟨v.symTri op.unit, fun x => by simp⟩
  | @left l r p _ ih =>
    obtain ⟨c, hc⟩ := ih
    refine ⟨op.apply c (exprCalcValue tab v r), fun x => ?_⟩
    rw [Expr.put, exprCalcValue, hc]
    ac_rfl
  | @right l r p _ ih =>
    obtain ⟨c, hc⟩ := ih
    refine ⟨op.apply (exprCalcValue tab v l) c, fun x => ?_⟩
    rw [Expr.put, exprCalcValue, hc]
    ac_rfl

end Put

section TwoPlaces

/-- Two different places of operands, neither of which is inside the other. -/
structure Apart (op : Op) (e : Expr) (p q : Place) : Prop where
  left : OnSpine op e p
  right : OnSpine op e q
  ne : p ≠ q
  leaf : (e.get p).operands op = none
  leaf' : (e.get q).operands op = none

section

variable (h : Apart op e p q)
include h

theorem Apart.symm : Apart op e q p := ⟨h.right, h.left, h.ne.symm, h.leaf', h.leaf⟩

theorem Apart.ne_nil : p ≠ [] := h.right.ne_nil h.ne h.leaf

theorem Apart.pass (hs : SameSpine op e e') : Apart op e' p q where
  left := hs.onSpine h.left
  right := hs.onSpine h.right
  ne := h.ne
  leaf := (hs.get h.left).operands_none h.leaf
  leaf' := (hs.get h.right).operands_none h.leaf'

theorem Apart.get_put (x : Expr) : (e.put p x).get q = e.get q := by
  obtain ⟨hp, hq, hne, hleaf, hleaf'⟩ := h
  induction hp generalizing q with
  | nil => exact absurd rfl (hq.ne_nil hne hleaf)
  | left hp ih =>
    cases hq with
    | nil => exact (operands_two_ne_none hleaf').elim
    | left hq => exact ih hq (fun heq => hne (heq ▸ rfl)) hleaf hleaf'
    | right hq => rfl
  | right hp ih =>
    cases hq with
    | nil => exact (operands_two_ne_none hleaf').elim
    | left hq => rfl
    | right hq => exact ih hq (fun heq => hne (heq ▸ rfl)) hleaf hleaf'

theorem Apart.put (hx : x.operands op = none) : Apart op (e.put p x) p q :=
  h.pass (h.left.sameSpine_put h.leaf hx)

end

theorem Apart.value_put (tab : Table) (v : Values) (h : Apart op e p q) :
    ∃ c, ∀ x y, exprCalcValue tab v ((e.put p x).put q y) =
      op.apply (op.apply (exprCalcValue tab v x) (exprCalcValue tab v y)) c := by
  obtain ⟨hp, hq, hne, hleaf, hleaf'⟩ := h
  induction hp generalizing q with
  | nil => exact absurd rfl (hq.ne_nil hne hleaf)
  | @left l r p hp ih =>
    cases hq with
    | nil => exact (operands_two_ne_none hleaf').elim
    | left hq =>
      obtain ⟨c, hc⟩ := ih hq (fun heq => hne (heq ▸ rfl)) hleaf hleaf'
      refine ⟨op.apply c (exprCalcValue tab v r), fun x y => ?_⟩
      rw [Expr.put, Expr.put, exprCalcValue, hc]
      ac_rfl
    | right hq =>
      obtain ⟨c, hc⟩ := hp.value_put tab v
      obtain ⟨d, hd⟩ := hq.value_put tab v
      refine ⟨op.apply c d, fun x y => ?_⟩
      rw [Expr.put, Expr.put, exprCalcValue, hc, hd]
      ac_rfl
  | @right l r p hp ih =>
    cases hq with
    | nil => exact (operands_two_ne_none hleaf').elim
    | left hq =>
      obtain ⟨c, hc⟩ := hp.value_put tab v
      obtain ⟨d, hd⟩ := hq.value_put tab v
      refine ⟨op.apply c d, fun x y => ?_⟩
      rw [Expr.put, Expr.put, exprCalcValue, hc, hd]
      ac_rfl
    | right hq =>
      obtain ⟨c, hc⟩ := ih hq (fun heq => hne (heq ▸ rfl)) hleaf hleaf'
      refine ⟨op.apply (exprCalcValue tab v l) c, fun x y => ?_⟩
      rw [Expr.put, Expr.put, exprCalcValue, hc]
      ac_rfl

end TwoPlaces

section Constants

/-- An operand somewhere is `y` or `n`. -/
def HasConst : Expr → Prop
  | .two _ l r => (∃ op : Op, l = .symbol op.unit ∨ r = .symbol op.unit) ∨ HasConst l ∨ HasConst r
  | _ => False

theorem Op.unit_cases (op op' : Op) : op'.unit = op.unit ∨ op'.unit = op.dual.unit := by
  cases op <;> cases op' <;> simp [Op.dual]

theorem HasConst.size_lt {e : Expr} (h : HasConst e) : (exprEliminateYn e).size < e.size := by
  induction e with
  | symbol | not | equal | unequal => exact h.elim
  | two op l r ihl ihr =>
    have hl := exprEliminateYn_size_le l
    have hr := exprEliminateYn_size_le r
    have := r.size_pos
    have hconst (op' : Op) : exprEliminateYn (.symbol op'.unit) = .symbol op.dual.unit ∨
        exprEliminateYn (.symbol op'.unit) = .symbol op.unit := by
      rcases Op.unit_cases op op' with hu | hu <;> rw [hu] <;> simp [exprEliminateYn]
    rcases exprEliminateYn_two op l r with ⟨-, heq⟩ | ⟨-, heq⟩ | ⟨-, heq⟩ |
      ⟨⟨h1, h2, h3, h4⟩, heq⟩ <;>
      rw [heq] <;> simp only [Expr.size]
    iterate 3 omega
    · rcases h with ⟨op', rfl | rfl⟩ | h | h
      · exact ((hconst op').elim h1 h2).elim
      · exact ((hconst op').elim h3 h4).elim
      · have := ihl h
        omega
      · have := ihr h
        omega

theorem OnSpine.hasConst_put (h : OnSpine op e p) (hx : HasConst x) : HasConst (e.put p x) := by
  induction h with
  | nil => rwa [Expr.put_nil]
  | left _ ih => exact .inr (.inl ih)
  | right _ ih => exact .inr (.inr ih)

theorem OnSpine.hasConst_of_get (h : OnSpine op e p) (hp : p ≠ []) (op' : Op)
    (hget : e.get p = .symbol op'.unit) : HasConst e := by
  induction h with
  | nil => exact absurd rfl hp
  | @left l r p h ih =>
    cases p with
    | nil =>
      rw [Expr.get, Expr.get_nil] at hget
      exact .inl ⟨op', .inl hget⟩
    | cons s p => exact .inr (.inl (ih (by simp) hget))
  | @right l r p h ih =>
    cases p with
    | nil =>
      rw [Expr.get, Expr.get_nil] at hget
      exact .inl ⟨op', .inr hget⟩
    | cons s p => exact .inr (.inr (ih (by simp) hget))

end Constants

end LinuxKernel.Kconfig
