import LinuxKernel.Kconfig.Place
import LinuxKernel.Kconfig.Transform

/-! # What the elimination of duplicates preserves

The joins keep the values, and they make the expression smaller. The rule of `expr_eliminate_dups2`
for an expression and its negation does not know `m`, so that the value is kept where it replaces no
operand that is `m`.
-/

namespace LinuxKernel.Kconfig

open Fuel Option Nat

variable {tab : Table} {v : Values} {type : Op} {e e' e1 e2 x : Expr} {p1 p2 : Place} {s t : Symbol}

section Join

/-- Boolean symbols are not `m`, different constants are different strings, and without modules
`sym_calc_value` makes `m` a `y`. -/
structure Values.Valid (v : Values) (tab : Table) : Prop where
  typed : v.Typed tab
  interned : ∀ s t, tab.isConst s → tab.isConst t →
    symGetStringValue tab v s = symGetStringValue tab v t → s = t
  modules : v.tri tab.modulesSym = .no → ∀ n, tab.type n = .tristate → v.tri n ≠ .mod

structure Joined (tab : Table) (type : Op) (e1 e2 x : Expr) : Prop where
  size : x.size ≤ e1.size
  leaf : x.operands type = none
  value : ∀ v : Values, v.Valid tab →
    exprCalcValue tab v x = type.apply (exprCalcValue tab v e1) (exprCalcValue tab v e2)

end Join

section Pass

/-- No operand that was replaced by a constant is `m`. -/
def Harmless (tab : Table) (v : Values) (changes : Changes) : Prop :=
  ∀ x, some x ∈ changes → exprCalcValue tab v x ≠ .mod

theorem Harmless.of_append {l l' : Changes} (h : Harmless tab v (l ++ l')) :
    Harmless tab v l ∧ Harmless tab v l' :=
  ⟨fun x hx => h x (List.mem_append_left _ hx), fun x hx => h x (List.mem_append_right _ hx)⟩

/-- The new changes of a pass. Each of them leaves a constant to remove, and if they are harmless
the value is kept. -/
structure New (tab : Table) (e e' : Expr) (new : Changes) : Prop where
  change : new = [] ∧ e' = e ∨ new ≠ [] ∧ HasConst e'
  value : ∀ v : Values, v.Valid tab → Harmless tab v new →
    exprCalcValue tab v e' = exprCalcValue tab v e

/-- A pass over the operands of a connective. -/
structure Pass (tab : Table) (type : Op) (s s' : Expr × Changes) : Prop where
  spine : SameSpine type s.1 s'.1
  size : s'.1.size ≤ s.1.size
  new : ∃ new, s'.2 = new ++ s.2 ∧ New tab s.1 s'.1 new

variable {s s' s'' : Expr × Changes}

theorem Pass.refl (tab : Table) (type : Op) (s : Expr × Changes) : Pass tab type s s :=
  ⟨.refl type s.1, le.refl, [], rfl, .inl ⟨rfl, rfl⟩, fun _ _ _ => rfl⟩

theorem Pass.trans (h : Pass tab type s s') (h' : Pass tab type s' s'') : Pass tab type s s'' where
  spine := h.spine.trans h'.spine
  size := Nat.le_trans h'.size h.size
  new := by
    obtain ⟨new, heq, hchange, hval⟩ := h.new
    obtain ⟨new', heq', hchange', hval'⟩ := h'.new
    refine ⟨new' ++ new, by rw [heq', heq, List.append_assoc], ?_, fun v hv hh => ?_⟩
    · rcases hchange' with ⟨rfl, he⟩ | ⟨hne, hconst⟩
      · rwa [List.nil_append, he]
      · exact .inr ⟨by simp [hne], hconst⟩
    · obtain ⟨hh', hh⟩ := hh.of_append
      exact (hval' v hv hh').trans (hval v hv hh)

/-- The operands of an operand with the other connective are changed. -/
theorem Pass.put {op : Op} {sub l r : Expr} {c c' : Changes} (hp : OnSpine type e p1)
    (hleaf : (e.get p1).operands type = none) (hop : e.get p1 = .two op l r)
    (h : Pass tab op (e.get p1, c) (sub, c')) : Pass tab type (e, c) (e.put p1 sub, c') := by
  have hne : op ≠ type := by
    rintro rfl
    rw [hop] at hleaf
    exact operands_two_ne_none hleaf
  have hsub : sub.operands type = none := by
    obtain ⟨l', r', heq, -⟩ := SameSpine.exists_two (hop ▸ h.spine)
    rw [show sub = _ from heq]
    exact operands_of_ne hne l' r'
  obtain ⟨new, heq, hchange, hval⟩ := h.new
  refine ⟨hp.sameSpine_put hleaf hsub, ?_, new, heq, ?_, fun v hv hh => ?_⟩
  · have := hp.size_put sub
    have := h.size
    dsimp only at this ⊢
    omega
  · rcases hchange with ⟨rfl, rfl⟩ | ⟨hne, hc⟩
    · exact .inl ⟨rfl, hp.put_get⟩
    · exact .inr ⟨hne, hp.hasConst_put hc⟩
  · obtain ⟨k, hk⟩ := hp.value_put tab v
    rw [hk, hval v hv hh, ← hk, hp.put_get]

theorem Pass.join (h : Apart type e p1 p2) (hx : Joined tab type (e.get p1) (e.get p2) x)
    (c : Changes) :
    Pass tab type (e, c) ((e.put p1 (.symbol type.unit)).put p2 x, none :: c) := by
  have h1 := h.put (x := .symbol type.unit) rfl
  have hspine := (h.left.sameSpine_put h.leaf rfl).trans
    (h1.right.sameSpine_put h1.leaf' hx.leaf)
  refine ⟨hspine, ?_, [none], rfl, .inr ⟨by simp, ?_⟩, fun v hv _ => ?_⟩
  · have hsize1 := h.left.size_put (.symbol type.unit)
    have hsize2 := h1.right.size_put x
    rw [h.get_put] at hsize2
    have := hx.size
    have := (e.get p2).size_pos
    dsimp only [Expr.size] at hsize1 ⊢
    omega
  · refine (hspine.onSpine h.left).hasConst_of_get h.ne_nil type ?_
    rw [h1.symm.get_put, h.left.get_put]
  · obtain ⟨k, hk⟩ := h.value_put tab v
    have hold := hk (e.get p1) (e.get p2)
    rw [h.left.put_get, h.right.put_get] at hold
    rw [hk, hold, exprCalcValue, type.unit_apply, hx.value v hv]

end Pass

section FirstPass

variable {c : Changes}

/-- The call for two places ends, with a pass over the expression. -/
def Passes (tab : Table)
    (f : ℕ → Op → Place → Place → Expr × Changes → Option (Expr × Changes)) (type : Op)
    (p1 p2 : Place) (s : Expr × Changes) : Prop :=
  ∃ s', Ends (f · type p1 p2 s) s' ∧ Pass tab type s s'

theorem spine_two (type : Op) (l r : Expr) :
    spine type (.two type l r) = spine type l + spine type r + 1 := if_pos rfl

section

variable {f : ℕ → Op → Place → Place → Expr × Changes → Option (Expr × Changes)}
  (hfirst : ∀ {type n e p1 p2 c lr}, (e.get p1).operands type = some lr →
    f (n + 1) type p1 p2 (e, c) =
      f n type (p1 ++ [.left]) p2 (e, c) >>= f n type (p1 ++ [.right]) p2)
  (hother : ∀ {type e p1 p2 c}, OnSpine type e p1 → OnSpine type e p2 →
    (e.get p1).operands type = none →
    (∀ e' op c, e'.size < e.size → Passes tab f op [] [] (e', c)) →
    ((e.get p2).operands type = none ∨ ∃ s s', Ends (f · type p1 (p2 ++ [.left]) (e, c)) s ∧
      Ends (f · type p1 (p2 ++ [.right]) s) s' ∧ Pass tab type (e, c) s') →
    Passes tab f type p1 p2 (e, c))
include hfirst hother

/-- All pairs of operands are gone through, by induction on the number of connectives that are still
between the two places and the operands. The passes differ in what is done once the first operand is
reached. -/
theorem Passes.places {N : ℕ} (hsub : ∀ e op c, e.size < N → Passes tab f op [] [] (e, c))
    (hN : e.size ≤ N) (hp1 : OnSpine type e p1) (hp2 : OnSpine type e p2) :
    Passes tab f type p1 p2 (e, c) := by
  generalize hM : spine type (e.get p1) + spine type (e.get p2) = M
  induction M using Nat.strongRecOn generalizing e c p1 p2 with
  | ind M ih =>
    have hnext {q1 q2 : Place} (hq1 : OnSpine type e q1) (hq2 : OnSpine type e q2)
        (hlt : spine type (e.get q1) + spine type (e.get q2) < M) s
        (hs : Pass tab type (e, c) s) : Passes tab f type q1 q2 s := by
      have hspine := hs.spine
      refine ih _ ?_ (Nat.le_trans hs.size hN) (hspine.onSpine hq1) (hspine.onSpine hq2) rfl
      rwa [← (hspine.get hq1).spine_eq, ← (hspine.get hq2).spine_eq]
    cases h1 : (e.get p1).operands type with
    | some lr =>
      have hget := operands_eq_some h1
      obtain ⟨hl, hr, hgl, hgr⟩ := hp1.next hget
      rw [hget, spine_two] at hM
      obtain ⟨s, hleft, hpass⟩ := hnext hl hp2 (by rw [hgl]; omega) _ (.refl tab type _)
      obtain ⟨s', hright, hpass'⟩ := hnext hr hp2 (by rw [hgr]; omega) s hpass
      refine ⟨s', Ends.succ ?_, hpass.trans hpass'⟩
      simp only [hfirst h1]
      exact hleft.bind hright
    | none =>
      refine hother hp1 hp2 h1 (fun e' op c hlt => hsub e' op c (Nat.lt_of_lt_of_le hlt hN)) ?_
      cases h2 : (e.get p2).operands type with
      | some lr =>
        have hget := operands_eq_some h2
        obtain ⟨hl, hr, hgl, hgr⟩ := hp2.next hget
        rw [hget, spine_two] at hM
        obtain ⟨s, hleft, hpass⟩ := hnext hp1 hl (by rw [hgl]; omega) _ (.refl tab type _)
        obtain ⟨s', hright, hpass'⟩ := hnext hp1 hr (by rw [hgr]; omega) s hpass
        exact .inr ⟨s, s', hleft, hright, hpass.trans hpass'⟩
      | none => exact .inl rfl

theorem Passes.all (type : Op) (e : Expr) (c : Changes) : Passes tab f type [] [] (e, c) := by
  generalize hN : e.size = N
  induction N using Nat.strongRecOn generalizing type e c with
  | ind N ih =>
    exact .places hfirst hother (fun e op c hlt => ih _ hlt op e c rfl) (Nat.le_of_eq hN) .nil .nil

end

end FirstPass

section Extract

end Extract

section SecondPass

variable {c : Changes}

theorem Op.dual_of_ne {op type : Op} (h : op ≠ type) : op.dual = type := by
  cases op <;> cases type <;> first | rfl | exact absurd rfl h

theorem OnSpine.value_zero (hp : OnSpine type e p1)
    (h : exprCalcValue tab v (e.get p1) = v.symTri type.dual.unit) :
    exprCalcValue tab v e = v.symTri type.dual.unit := by
  obtain ⟨k, hk⟩ := hp.value_put tab v
  rw [← hp.put_get, hk, h, type.dual_unit_apply]

theorem unit_or_zero {a : Tristate} (h : a ≠ .mod) (v : Values) (type : Op) :
    a = v.symTri type.unit ∨ a = v.symTri type.dual.unit := by
  cases type <;> cases a <;> simp_all [Op.unit, Op.dual]

theorem exprNot_unit (v : Values) (type : Op) :
    exprNot (v.symTri type.unit) = v.symTri type.dual.unit := by
  cases type <;> rfl

/-- An operand together with all of its negation is replaced by the zero. Where the operand is `m`
this is wrong. -/
theorem Pass.contradiction {op : Op} {l r y : Expr} (hp1 : OnSpine type e p1)
    (hp2 : OnSpine type e p2) (hne : p1 ≠ p2) (hleaf : (e.get p1).operands type = none)
    (hget : e.get p1 = .two op l r)
    (hx : ∀ v, ∃ k, exprCalcValue tab v (normalForm tab (.not (e.get p1))) =
        op.dual.apply k (exprCalcValue tab v (.symbol op.dual.unit)) ∧
      exprCalcValue tab v (e.get p2) = op.dual.apply k (exprCalcValue tab v y)) :
    Pass tab type (e, c) (e.put p1 (.symbol op.unit), some (e.get p1) :: c) := by
  obtain rfl : op.dual = type := Op.dual_of_ne fun heq => by
    subst heq
    rw [hget] at hleaf
    exact operands_two_ne_none hleaf
  have hspine := hp1.sameSpine_put hleaf (x := .symbol op.unit) rfl
  refine ⟨hspine, ?_, [some (e.get p1)], rfl, .inr ⟨by simp, ?_⟩, fun v hv hh => ?_⟩
  · have hsize := hp1.size_put (.symbol op.unit)
    have := (e.get p1).size_pos
    dsimp only [Expr.size] at hsize ⊢
    omega
  · exact (hspine.onSpine hp1).hasConst_of_get (hp2.ne_nil hne hleaf) op (hp1.get_put _)
  · have hnew : exprCalcValue tab v (e.put p1 (.symbol op.unit)) = v.symTri op.dual.dual.unit := by
      refine ((hspine.onSpine hp1).value_zero ?_)
      rw [hp1.get_put, Op.dual_dual, exprCalcValue]
    have hold : exprCalcValue tab v e = v.symTri op.dual.dual.unit := by
      obtain ⟨k, h1, h2⟩ := hx v
      rcases unit_or_zero (hh (e.get p1) (by simp)) v op.dual with hunit | hzero
      · refine hp2.value_zero ?_
        have hnot : exprCalcValue tab v (.not (e.get p1)) = v.symTri op.dual.dual.unit := by
          rw [exprCalcValue, hunit, exprNot_unit]
        rw [normalForm_value hv.typed, hnot, exprCalcValue, Op.apply_unit] at h1
        rw [h2, ← h1, Op.dual_unit_apply]
      · exact hp1.value_zero hzero
    exact hnew.trans hold.symm

end SecondPass

section Loop

end Loop

section Instances

end Instances

end LinuxKernel.Kconfig
