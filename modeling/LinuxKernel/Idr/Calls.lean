import LinuxKernel.Idr.Refine

/-! # Ids behind the tree

`idr_remove` takes the digits of an id at the levels that the tree has, and so takes an id behind
the tree for one that is in it.
-/

namespace LinuxKernel.Idr

open Function Radix Nat

variable {s s' : Idr} {node node' : ℕ × ℕ → Option ℕ} {slot : ℕ → Slot} {M M' : Mapping}
  {l p id fuel : ℕ} {paa : List Link}

section Remove

theorem clearPath_mod {L : ℕ} (hl : l < L) (p : Option ℕ) :
    clearPath (id % 64 ^ L) l p paa s = clearPath id l p paa s := by
  induction l generalizing p paa s with
  | zero => rw [clearPath, clearPath]
  | succ l ih =>
    cases p with
    | none => rw [clearPath, clearPath]
    | some p =>
      rw [clearPath, clearPath, digit, digit, mod_pow_digit hl]
      exact ih (by omega) _

theorem Shape.subRemove_mod (h : Shape s node slot) :
    subRemove s (s.layers - 1) (id % 64 ^ s.layers) = subRemove s (s.layers - 1) id := by
  rcases Nat.eq_zero_or_pos s.layers with hl | hl
  · rw [subRemove, subRemove, hl, h.top_eq_none.mpr hl]
    rfl
  · rw [subRemove, subRemove, clearPath_mod (by omega), and_mask, and_mask,
      mod_mod_of_dvd _ (dvd_pow_self 64 hl.ne')]

theorem Shape.idrRemove_mod (h : Shape s node slot) (hlt : id < 2 ^ 31) :
    idrRemove s (id % 64 ^ s.layers) = idrRemove s id := by
  have := mod_le id (64 ^ s.layers)
  rw [idrRemove, idrRemove, and_two_pow_sub_one_eq_mod, and_two_pow_sub_one_eq_mod,
    mod_eq_of_lt hlt, mod_eq_of_lt (by omega), h.subRemove_mod]

/-- The bits on the way to an id that is free are clear already. -/
theorem Tree.clearPath_free (paa : List Link) (h : Tree s node slot)
    (hid : (slot id).full = false) (hl : l < s.layers) : ∃ paa' s',
      clearPath id l (node (l, id / 64 ^ (l + 1))) paa s = (node (0, id / 64), paa', s') ∧
      Tree s' node slot := by
  induction l generalizing s paa with
  | zero => exact ⟨paa, s, by rw [clearPath, pow_one], h⟩
  | succ l ih =>
    rcases hp : node (l + 1, id / 64 ^ (l + 2)) with _ | p
    · exact ⟨paa, s, by rw [clearPath, h.shape.leaf_eq_none hl hp], h⟩
    · have hp' : node (l + 1, id / 64 ^ (l + 1) / 64) = some p := by rwa [← div_pow_succ]
      have hbits : Bits (s.clearBit p (id / 64 ^ (l + 1) % 64)) node (FullBlock slot) := by
        refine (h.bits.clearBit h.shape hp').congr (fun x p hp => ⟨hp, rfl⟩) fun k r _ => ?_
        split_ifs with hkr
        · obtain ⟨rfl, rfl⟩ := hkr
          refine iff_of_false (fun hfull => ?_) not_false
          rw [hfull id rfl] at hid
          cases hid
        · rfl
      have ht : Tree (s.clearBit p (id / 64 ^ (l + 1) % 64)) node slot :=
        ⟨h.shape.modify ⟨rfl, rfl⟩, hbits, h.counts.modify rfl, h.free.modify hp⟩
      rw [clearPath, digit, h.shape.ary_eq hp]
      exact ih _ ht (lt_of_succ_lt hl)

theorem Tree.remove_free (h : Tree s node slot) (hid : (slot (id % 64 ^ s.layers)).full = false)
    (hlt : id < 2 ^ 31) : ∃ s' node', idrRemove s id = some s' ∧ Tree s' node' slot := by
  have hsub : ∃ s₁, subRemove s (s.layers - 1) id = some s₁ ∧ Tree s₁ node slot := by
    rw [← h.shape.subRemove_mod]
    rcases htop : s.top with _ | p
    · rw [subRemove, htop, h.shape.top_eq_none.mp htop]
      exact ⟨s, rfl, h⟩
    · obtain ⟨k, hk, -, hroot⟩ := h.shape.root_of_lt htop (mod_lt id (Nat.pow_pos (by omega)))
      obtain ⟨paa, s₁, heq, ht⟩ := h.clearPath_free [.top] hid (show k < s.layers by omega)
      rw [hroot] at heq
      rw [subRemove, htop, show s.layers - 1 = k by omega, heq]
      rcases hp : node (0, id % 64 ^ s.layers / 64) with _ | p
      · exact ⟨s₁, rfl, ht⟩
      · have hbit : ¬ (s₁.mem p).bitmap.getLsbD (id % 64 ^ s.layers % 64) = true := by
          rw [ht.bits 0 _ p hp]
          simpa [FullBlock] using hid
        dsimp only
        rw [and_mask, if_neg hbit]
        exact ⟨s₁, rfl, ht⟩
  obtain ⟨s₁, heq, ht⟩ := hsub
  exact ht.removed heq hlt

/-- An id behind the tree is removed as if it were in it. -/
def Aliased (s : Idr) (M : Mapping) (id : ℕ) : Prop :=
  64 ^ s.layers ≤ id ∧ (M (id % 64 ^ s.layers)).isSome

theorem Tree.erase (h : Tree s node M.slots) (hlt : id < 2 ^ 31) (hid : ¬ Aliased s M id) :
    ∃ s' node', idrRemove s id = some s' ∧ Tree s' node' (Mapping.slots (update M id none)) := by
  rcases hM : M id with _ | v
  · rw [← hM, update_eq_self]
    refine h.remove_free ?_ hlt
    rw [slot_full]
    rcases lt_or_ge id (64 ^ s.layers) with hin | hout
    · rw [mod_eq_of_lt hin, hM]
      rfl
    · simpa [Aliased, hout] using hid
  · rw [slot_update]
    exact h.remove (by rw [slot_full, hM]; rfl) hlt

theorem Tree.isSome_eq (id : ℕ) (h : Tree s node M.slots) (h' : Tree s node' M'.slots) :
    (M id).isSome = (M' id).isSome := by
  obtain rfl : node = node' := by
    funext ⟨l, q⟩
    rw [← h.shape.layerAt_eq, h'.shape.layerAt_eq]
  rw [← slot_full, ← slot_full]
  rcases hp : node (0, id / 64) with _ | p
  · rw [h.shape.absent hp, h'.shape.absent hp]
  · have hbit := (h.bits 0 id p hp).symm.trans (h'.bits 0 id p hp)
    rw [FullBlock, FullBlock, full_zero, full_zero] at hbit
    exact Bool.eq_iff_iff.mpr hbit

end Remove

section Calls

/-- Calls that keep the idr and the map together. Ids that are not allocated may be removed. -/
def Sound (s : Idr) (M : Mapping) : Op → Prop
  | .remove id => id < 2 ^ 31 ∧ ¬ Aliased s M id
  | op => Allowed s M op ∧ HasSpace M op

def Call (fuel : ℕ) (c : Idr × Mapping) (op : Op) (c' : Idr × Mapping) : Prop :=
  Sound c.1 c.2 op ∧ Returns fuel c.1 c'.1 op ∧ c'.2 = c.2.apply op

theorem Tree.call {c : Idr × Mapping} {op : Op} (h : Tree s node M.slots)
    (hcall : Call fuel (s, M) op c) (hfuel : 2 ^ 33 ≤ fuel) :
    ∃ node', Tree c.1 node' c.2.slots := by
  obtain ⟨hsound, hreturns, hM⟩ := hcall
  cases op with
  | remove id =>
    obtain ⟨s', node', heq, ht⟩ := h.erase hsound.1 hsound.2
    cases heq.symm.trans hreturns
    exact ⟨node', hM ▸ ht⟩
  | _ => exact h.step ⟨hsound.1, hreturns, hM⟩ hsound.2 hfuel

def first : Idr × Mapping :=
  (afterNew prepared (some 7) 0, update (fun _ => none) 0 (some (some 7)))

theorem call_prepared : Call (2 ^ 33) (idrInit fun _ => .zero, fun _ => none)
    (.preGet (List.range 12)) (prepared, fun _ => none) :=
  ⟨⟨(step_prepared 0).1, trivial⟩, (step_prepared _).2⟩

theorem call_first :
    Call (2 ^ 33) (prepared, fun _ => none) (.getNewAbove (some 7) 0 (.ok 0)) first :=
  ⟨⟨show 0 < 2 ^ 30 by decide, 0, by decide, by decide, rfl⟩,
    (step_afterNew (by decide) (by decide +kernel)).2⟩

theorem run_first : Run (Call (2 ^ 33)) (idrInit fun _ => .zero, fun _ => none)
    [.preGet (List.range 12), .getNewAbove (some 7) 0 (.ok 0)] first :=
  .cons call_prepared (.cons call_first (.nil _))

section

variable (hfuel : 2 ^ 33 ≤ fuel) (mem : ℕ → Layer) {ops : List Op}
  (hrun : Run (Call fuel) (idrInit mem, fun _ => none) ops (s, M))
include hfuel mem hrun

theorem exists_tree_of_run : ∃ node, Tree s node M.slots :=
  Run.invariant (I := fun c : Idr × Mapping => ∃ node, Tree c.1 node c.2.slots)
    (fun hI hcall => hI.elim fun _ h => h.call hcall hfuel) hrun ⟨_, tree_init mem⟩

/-- Removing an id removes it and nothing else, unless it is behind the tree. -/
theorem idr_remove_erases_iff (hlt : id < 2 ^ 31) :
    (∃ s' node', idrRemove s id = some s' ∧ Tree s' node' (Mapping.slots (update M id none))) ↔
      ¬ (64 ^ s.layers ≤ id ∧ (M (id % 64 ^ s.layers)).isSome) := by
  obtain ⟨node, h⟩ := exists_tree_of_run hfuel mem hrun
  refine ⟨?_, h.erase hlt⟩
  rintro ⟨s', node', heq, ht⟩ ⟨hout, hsome⟩
  have hne : id % 64 ^ s.layers ≠ id := by
    omega
  obtain ⟨_, _, heq', ht'⟩ := h.remove (by rwa [slot_full]) (lt_of_le_of_lt (mod_le ..) hlt)
  rw [h.shape.idrRemove_mod hlt, heq] at heq'
  cases heq'
  rw [show Slot.empty = Mapping.slots (fun _ => none) (id % 64 ^ s.layers) from rfl,
    ← slot_update] at ht'
  have := ht.isSome_eq (id % 64 ^ s.layers) ht'
  rw [update_of_ne hne, update_self, hsome] at this
  cases this

end

theorem idr_remove_erases_first : ∃ s' node', idrRemove first.1 0 = some s' ∧
    Tree s' node' (Mapping.slots (update first.2 0 none)) :=
  (idr_remove_erases_iff (le_refl _) (fun _ => .zero) run_first (by decide)).mpr (by decide +kernel)

theorem idr_remove_takes_first :
    (∃ ops, Run (Call (2 ^ 33)) (idrInit fun _ => .zero, fun _ => none) ops first) ∧
      first.2 0 = some (some 7) ∧ first.2 64 = none ∧
      (idrRemove first.1 64).bind (idrFind · 0) = some none :=
  ⟨⟨_, run_first⟩, by decide +kernel, by decide +kernel, by decide +kernel⟩

end Calls

end LinuxKernel.Idr
