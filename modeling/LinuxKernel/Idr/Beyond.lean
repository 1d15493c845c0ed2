import LinuxKernel.Idr.Calls

/-! # Ids behind the last one

`idr_get_new_above` gives out ids behind the last one that a tree can have, which `idr_find` does
not look for.
-/

namespace LinuxKernel.Idr

open Function Option

variable {s s' : Idr} {node : ℕ × ℕ → Option ℕ} {slot : ℕ → Slot} {M : Mapping}
  {l p id start n fuel : ℕ} {pa pa' : Path} {ptr : Option ℕ}

section Top

/-- The top is one of the five levels, and not in the list of free layers. -/
def Low (s : Idr) : Prop := ∃ p, s.top = some p ∧ (s.mem p).layer < 5 ∧ p ∉ s.idFree

theorem Tree.low (h : Tree s node slot) (hp : s.top = some p) : Low s := by
  obtain ⟨hlayer, hroot⟩ := h.shape.top_layer hp
  have := h.shape.layers_le
  exact ⟨p, hp, by omega, fun hfree => h.free.apart hfree hroot⟩

theorem Low.modify {f : Layer → Layer} (h : Low s) (hf : (f (s.mem p)).layer = (s.mem p).layer) :
    Low (s.modify p f) := by
  obtain ⟨t, ht, hlow, hfree⟩ := h
  refine ⟨t, ht, ?_, hfree⟩
  rcases eq_or_ne t p with rfl | hne
  · rwa [modify_mem_self, hf]
  · rwa [modify_mem_of_ne hne]

theorem Low.addLayer {s₁ : Idr} {new : ℕ} (h : Low s) (hget : getFromFreeList s = some (new, s₁))
    (p m l : ℕ) : Low (s₁.addLayer p m new l) ∧ s₁.layers = s.layers := by
  obtain ⟨t, ht, hlow, hnot⟩ := h
  rcases hfree : s.idFree with _ | ⟨new', rest⟩
  · rw [getFromFreeList_nil hfree] at hget
    cases hget
  rw [getFromFreeList_cons hfree] at hget
  cases hget
  rw [hfree, List.mem_cons, not_or] at hnot
  have hlow' : Low (Idr.modify { s with idFree := rest } new fun y => { y with layer := l }) :=
    ⟨t, ht, by rwa [modify_mem_of_ne hnot.1], hnot.2⟩
  exact ⟨(hlow'.modify rfl).modify rfl, rfl⟩

theorem subAllocLoop_low {res : Found} (h : Low s)
    (heq : subAllocLoop fuel p l id pa s = some (res, pa', s')) :
    Low s' ∧ s'.layers = s.layers := by
  fun_induction subAllocLoop fuel p l id pa s
  case case1 => cases heq
  case case3 ih₂ ih₁ =>
    obtain ⟨p', -, heq⟩ := bind_eq_some_iff.mp heq
    split_ifs at heq
    · exact ih₂ _ h heq
    · obtain ⟨top, -, heq⟩ := bind_eq_some_iff.mp heq
      exact ih₁ _ h heq
  case case6 ih => exact ih h heq
  case case8 hget _ _ _ _ _ _ ih =>
    obtain ⟨hlow, hlayers⟩ := h.addLayer hget _ _ _
    exact ⟨(ih hlow heq).1, (ih hlow heq).2.trans hlayers⟩
  all_goals
    cases heq
    exact ⟨h, rfl⟩

theorem subAlloc_low {res : Found} (h : Low s)
    (heq : subAlloc fuel id pa s = some (res, pa', s')) : Low s' ∧ s'.layers = s.layers := by
  obtain ⟨p, -, heq⟩ := bind_eq_some_iff.mp heq
  exact subAllocLoop_low h heq

theorem idrMarkFull_low (h : Low s) (heq : idrMarkFull pa fuel p l id s = some s') : Low s' := by
  fun_induction idrMarkFull pa fuel p l id s
  case case1 => cases heq
  case case3 ih => exact ih (h.modify rfl) heq
  all_goals exact some.inj heq ▸ h.modify rfl

theorem emptySlotLoop_low (h : (∃ node slot, Tree s node slot) ∨ Low s ∧ s.layers = 5)
    (hfuel : 2 ^ 33 ≤ fuel) {id' : ℕ}
    (heq : emptySlotLoop fuel n id pa s = some (.id id', pa', s')) : Low s' := by
  induction n generalizing s id pa with
  | zero => cases heq
  | succ n ih =>
    rw [emptySlotLoop] at heq
    split at heq
    · cases heq
    rename_i p layers s₁ hfirst
    obtain ⟨⟨_ | ⟨p', layers'⟩, s₂⟩, hgrow, heq⟩ := bind_eq_some_iff.mp heq
    · cases heq
    obtain ⟨⟨res, pa₁, s₃⟩, hsub, hres⟩ := bind_eq_some_iff.mp heq
    -- the search goes on in a tree that is large enough for the id, or has its five levels
    obtain ⟨hlow, hlarge⟩ : Low (s₂.setTop p' layers') ∧ (layers' = 5 ∨ id < 64 ^ layers' ∧
        ∃ node slot, Tree (s₂.setTop p' layers') node slot) := by
      rcases h with ⟨node, slot, h⟩ | ⟨⟨t, htop, hlow⟩, hfive⟩
      · rcases firstTop_cases h with ⟨hfirst', -⟩ | ⟨_, _, _, _, hfirst', ht₁, hpos, ha, -⟩ <;>
          cases hfirst.symm.trans hfirst'
        obtain ⟨res, hgrow', hgrown⟩ := growLoop_spec id fuel ht₁ hpos ha (by omega)
        cases hgrow.symm.trans hgrow'
        cases hgrown with
        | done ht₂ hle hlarge =>
          exact ⟨ht₂.low rfl, hlarge.imp_right fun hlt => ⟨hlt, _, _, ht₂⟩⟩
      · obtain ⟨k, rfl⟩ : ∃ k, fuel = k + 1 := ⟨fuel - 1, by omega⟩
        rw [firstTop, htop] at hfirst
        cases hfirst
        rw [growLoop, if_neg (by omega)] at hgrow
        cases hgrow
        rw [setTop_self htop]
        exact ⟨⟨_, htop, hlow⟩, .inl hfive⟩
    obtain ⟨hlow₃, hlayers⟩ := subAlloc_low hlow hsub
    cases res with
    | id => cases hres; exact hlow₃
    | noMemory | noMoreSpace => cases hres
    | needToGrow id₁ =>
      refine ih ?_ hres
      rcases hlarge with hfive | ⟨hlt, node, slot, ht⟩
      · exact .inr ⟨hlow₃, hlayers.trans hfive⟩
      · obtain ⟨_, htop, -⟩ := hlow
        have hpos : 0 < (s₂.setTop p' layers').layers := by
          have := (ht.shape.top_layer htop).1
          omega
        obtain ⟨res, hsub', hres'⟩ := subAlloc_spec pa ht hpos hlt hfuel
        cases hsub'.symm.trans hsub
        cases hres'
        exact .inl ⟨_, _, ht⟩

theorem Low.find_beyond (h : Low s) (hid : 2 ^ 30 ≤ id) (hlt : id < 2 ^ 31) :
    idrFind s id = some none := by
  obtain ⟨p, hp, hlow, -⟩ := h
  have hpow : 64 ^ ((s.mem p).layer + 1) ≤ 64 ^ 5 := Nat.pow_le_pow_right (by omega) hlow
  rw [idrFind, hp]
  dsimp only
  rw [Nat.and_two_pow_sub_one_eq_mod, one_shiftLeft_mul, if_pos (by omega)]

theorem Tree.low_getNewAbove (h : Tree s node slot) (hfuel : 2 ^ 33 ≤ fuel)
    (heq : idrGetNewAbove fuel s ptr start = some (.ok id, s')) : Low s' := by
  obtain ⟨⟨rv, s₁⟩, hint, heq⟩ := map_eq_some_iff.mp heq
  obtain ⟨⟨res, pa, s₂⟩, hslot, hres⟩ := bind_eq_some_iff.mp hint
  cases res with
  | id id' =>
    obtain ⟨p, -, hres⟩ := bind_eq_some_iff.mp hres
    obtain ⟨s₃, hmark, hres⟩ := map_eq_some_iff.mp hres
    cases hres
    cases heq
    have hlow : Low s₂ := emptySlotLoop_low (.inl ⟨_, _, h⟩) hfuel hslot
    exact idrMarkFull_low ((hlow.modify rfl).modify rfl) hmark
  | noMemory | needToGrow | noMoreSpace =>
    cases hres
    cases heq

end Top

section

variable (hfuel : 2 ^ 33 ≤ fuel) (mem : ℕ → Layer) {ops : List Op}
  (hrun : Run (Call fuel) (idrInit mem, fun _ => none) ops (s, M))
include hfuel mem hrun

/-- A pointer can be found under the id that was given out for it as long as an id of the tree is
free. -/
theorem idr_get_new_above_usable_iff {ptr : ℕ}
    (hnew : idrGetNewAbove fuel s (some ptr) start = some (.ok id, s')) :
    (start ≤ id ∧ id < 2 ^ 31 ∧ M id = none ∧ idrFind s' id = some (some ptr) ∧
      ∀ j < 2 ^ 31, j ≠ id → idrFind s' j = idrFind s j) ↔
      ∃ x, start ≤ x ∧ x < 2 ^ 30 ∧ M x = none := by
  obtain ⟨node, h⟩ := exists_tree_of_run hfuel mem hrun
  constructor
  · rintro ⟨hstart, hlt, hfree, hfind, -⟩
    refine ⟨id, hstart, ?_, hfree⟩
    by_contra hge
    rw [(h.low_getNewAbove hfuel hnew).find_beyond (not_lt.mp hge) hlt] at hfind
    cases hfind
  · rintro hspace
    obtain ⟨res, s₁, node', heq, ht, hres⟩ := idrGetNewAbove_spec (some ptr) h hspace hfuel
    cases heq.symm.trans hnew
    obtain ⟨x, hx, hxlt, hxfree⟩ := hspace
    obtain ⟨hstart, hfree, hle⟩ : start ≤ id ∧ M id = none ∧ id ≤ x := by
      rcases hres with hres | ⟨_, hres, hleast⟩
      · cases hres
      · cases hres
        exact ⟨hleast.1.1, hleast.1.2, hleast.2 ⟨hx, hxfree⟩⟩
    refine ⟨hstart, by omega, hfree, ?_, fun j hj hne => ?_⟩
    · rw [idrFind_spec ht.shape (by omega), slot_ptr, Mapping.apply, update_self]
      rfl
    · rw [idrFind_spec ht.shape hj, idrFind_spec h.shape hj, slot_ptr, slot_ptr, Mapping.apply,
        update_of_ne hne]

end

theorem idr_get_new_above_usable_first :
    idrFind first.1 0 = some (some 7) ∧ ∀ j < 2 ^ 31, j ≠ 0 → idrFind first.1 j = some none := by
  obtain ⟨-, -, -, hfind, hothers⟩ :=
    (idr_get_new_above_usable_iff (le_refl _) (fun _ => .zero)
      (.cons call_prepared (.nil _)) call_first.2.1).mpr ⟨0, by decide, by decide, rfl⟩
  exact ⟨hfind, hothers⟩

theorem idr_get_new_above_unfound :
    (∃ ops, Run (Call (2 ^ 33)) (idrInit fun _ => .zero, fun _ => none) ops
        (prepared, fun _ => none)) ∧
      (idrGetNewAbove (2 ^ 33) prepared (some 7) (2 ^ 30)).map
        (fun r => (r.1.toOption, idrFind r.2 (2 ^ 30), idrFind r.2 0)) =
        some (some (2 ^ 30), some none, some (some 7)) :=
  ⟨⟨_, .cons call_prepared (.nil _)⟩, by decide +kernel⟩

end LinuxKernel.Idr
