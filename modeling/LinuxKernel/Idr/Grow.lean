import LinuxKernel.Idr.Layers

/-! # Growing the tree

The loop that puts layers over the top until the tree is large enough for an id. The layers that it
adds are not in the tree before it ends: its invariant is about the tree with the top that it has
so far. If there is no layer left, it takes down what it has built.
-/

namespace LinuxKernel.Idr

open Function Nat List Option

variable {s s' : Idr} {node node' : ℕ × ℕ → Option ℕ} {slot : ℕ → Slot}
  {l k q r p p' c id new n fuel layers : ℕ} {x y : ℕ × ℕ}

section TearDown

/-- The tree of the idr is at the bottom of the one that is being built. -/
structure Anchored (s : Idr) (node : ℕ × ℕ → Option ℕ) (layers : ℕ) : Prop where
  pos : 0 < s.layers
  le : s.layers ≤ layers
  top : ∃ t, s.top = some t ∧ node (s.layers - 1, 0) = some t
  narrow {k r : ℕ} : s.layers ≤ k + 1 → r ≠ 0 → node (k, r) = none

theorem setTop_self (hp : s.top = some p) : s.setTop p s.layers = s := by
  rw [Idr.setTop, ← hp]

theorem takeDown_mem_of_ne (h : p' ≠ p) : (takeDown s p).mem p' = s.mem p' := update_of_ne h ..

theorem Tree.tearDown_free (h : Tree (s.setTop p (k + 2)) node slot) (hp : node (k + 1, 0) = some p)
    (hone : ∀ r, r ≠ 0 → node (k, r) = none) :
    Free ((takeDown s p).setTop c (k + 1)) (update node (k + 1, 0) none) := by
  have hnot : p ∉ s.idFree := fun hmem => h.free.apart hmem hp
  have hne {p'} (hp' : p' ∈ s.idFree) : p' ≠ p := ne_of_mem_of_not_mem hp' hnot
  refine ⟨nodup_cons.mpr ⟨hnot, h.free.nodup⟩, fun {p'} hp' => ?_, fun {p' x} hp' hx => ?_⟩
  · rcases mem_cons.mp hp' with rfl | hp'
    · simp only [takeDown, moveToFreeList, Idr.setTop, modify_mem_self, true_and, and_true]
      intro n hn
      have hchild := h.shape.child (r := n) (lt_succ_self (k + 1))
      rw [div_eq_of_lt hn, hp, mod_eq_of_lt hn] at hchild
      rw [update_apply]
      split_ifs with hn'
      · rfl
      · exact hchild.symm.trans (hone n hn')
    · simp only [takeDown, moveToFreeList, Idr.setTop, modify_mem_of_ne (hne hp')]
      exact h.free.zero hp'
  · obtain ⟨hx', hx⟩ := update_none_eq_some.mp hx
    rcases mem_cons.mp hp' with rfl | hp'
    · exact hx' (h.shape.inj hx hp)
    · exact h.free.apart hp' hx

theorem tearDown_spec (h : Tree (s.setTop p layers) node slot) (ha : Anchored s node layers)
    (hfuel : layers < s.layers + fuel) : ∃ s' node', tearDown fuel (some p) s = some s' ∧
      Tree s' node' slot ∧ s'.top = s.top ∧ s'.layers = s.layers := by
  induction fuel generalizing s p layers node with
  | zero => exact absurd ha.le (by omega)
  | succ fuel ih =>
    have hs := h.shape
    obtain ⟨k, hk⟩ : ∃ k, layers = k + 1 := ⟨layers - 1, by have := ha.pos; have := ha.le; omega⟩
    subst hk
    have hp : node (k, 0) = some p := (hs.root rfl).trans (if_pos rfl)
    obtain ⟨t, ht, hnode⟩ := ha.top
    rw [tearDown, ht]
    rcases eq_or_lt_of_le ha.le with heq | hlt
    · have htop : some t = some p := by rw [← hnode, heq, Nat.add_sub_cancel, hp]
      rw [if_pos htop]
      rw [← heq, setTop_self (ht.trans htop)] at h
      exact ⟨s, node, rfl, h, ht, rfl⟩
    · obtain ⟨j, rfl⟩ : ∃ j, k = j + 1 := ⟨k - 1, by have := ha.pos; omega⟩
      have htop : some t ≠ some p := fun htop => by
        have := (Prod.mk.inj (hs.inj (hnode.trans htop) hp)).1
        omega
      have hbase : node (s.layers - 1, 0 / 64 ^ (s.layers - 1 + 1)) = some t := by
        rwa [Nat.zero_div]
      obtain ⟨c, hc⟩ := hs.exists_above hbase (by omega) (lt_succ_of_lt (lt_succ_self _))
      rw [Nat.zero_div] at hc
      have hone : ∀ r, r ≠ 0 → node (j, r) = none := fun r hr => ha.narrow (by omega) hr
      have hary : (s.mem p).ary 0 = some c := by
        have hchild := hs.child (r := 0) (lt_succ_self (j + 1))
        rw [hp, hc] at hchild
        exact hchild.symm
      rw [if_neg htop, hary]
      rw [← ht]
      refine ih
        (h.dropTop rfl rfl hc hone rfl rfl (fun _ => takeDown_mem_of_ne) (h.tearDown_free hp hone))
        ⟨ha.pos, Nat.lt_succ_iff.mp hlt, ⟨t, ht, ?_⟩, fun {k r} hk hr => ?_⟩
        (show j + 1 < s.layers + fuel by omega)
      · rw [update_of_ne fun hx => absurd (Prod.mk.inj hx).1
          (by simp [takeDown, moveToFreeList]; omega)]
        exact hnode
      · rw [update_of_ne fun hx => hr (Prod.mk.inj hx).2]
        exact ha.narrow hk hr

end TearDown

section Grow

theorem one_shiftLeft_mul : 1 <<< (6 * l) = 64 ^ l := by
  rw [one_shiftLeft, pow_mul, show 2 ^ 6 = 64 from rfl]

/-- What the loop can do: take everything down, or grow the tree until it is large enough. -/
inductive Grown (s : Idr) (slot : ℕ → Slot) (id p layers : ℕ) : Option (ℕ × ℕ) × Idr → Prop
  | failed {s' : Idr} {node' : ℕ × ℕ → Option ℕ} : Tree s' node' slot → s'.top = s.top →
      s'.layers = s.layers → s.idFree.length + layers < 5 → Grown s slot id p layers (none, s')
  | done {p' layers' : ℕ} {s' : Idr} {node' : ℕ × ℕ → Option ℕ} :
      Tree (s'.setTop p' layers') node' slot → layers ≤ layers' →
      (layers' = 5 ∨ id < 64 ^ layers') →
      s.idFree.length + layers ≤ s'.idFree.length + layers' →
      ((s' = s ∧ p' = p ∧ layers' = layers) ∨ 64 ^ layers ≤ id) →
      Grown s slot id p layers (some (p', layers'), s')

theorem Tree.raise (h : Tree (s.setTop p (l + 1)) node slot) (hcount : (s.mem p).count = 0)
    (hl : l + 1 < 5) :
    Tree ((s.modify p fun y => { y with layer := y.layer + 1 }).setTop p (l + 2))
      (Idr.single (l + 1) p) slot := by
  obtain ⟨hslot, hbitmap, hary⟩ := h.empty_top rfl rfl hcount
  have hp : node (l, 0) = some p := (h.shape.root rfl).trans (if_pos rfl)
  refine .single hslot hl ?_ ?_ ?_ ?_ ?_
  · rw [modify_mem_self]
    exact hbitmap
  · rw [modify_mem_self]
    exact hary
  · rw [modify_mem_self]
    exact hcount
  · rw [modify_mem_self]
    exact congrArg (· + 1) (h.shape.layer hp)
  · have hfree : Free s node := ⟨h.free.nodup, h.free.zero, h.free.apart⟩
    refine (hfree.modify hp).congr (Sublist.refl _) (fun _ _ => ⟨rfl, rfl, rfl⟩) fun x p' hx _ => ?_
    obtain ⟨-, rfl⟩ := single_eq_some.mp hx
    exact ⟨_, hp⟩

theorem growLoop_spec (id fuel : ℕ) (h : Tree (s.setTop p layers) node slot) (hpos : 0 < layers)
    (ha : (s.mem p).count = 0 ∨ Anchored s node layers) (hfuel : 10 ≤ layers + fuel) :
    ∃ res, growLoop id fuel p layers s = some res ∧ Grown s slot id p layers res := by
  induction fuel generalizing s p layers node with
  | zero =>
    have : layers ≤ 5 := h.shape.layers_le
    omega
  | succ fuel ih =>
    have hle : layers ≤ 5 := h.shape.layers_le
    rw [growLoop, one_shiftLeft_mul]
    obtain ⟨l, rfl⟩ : ∃ l, layers = l + 1 := ⟨layers - 1, by omega⟩
    split_ifs with hgrow hcount
    · obtain ⟨res, heq, hres⟩ := ih (h.raise hcount hgrow.1) (by omega)
        (.inl (by simpa using hcount))
        (by omega)
      refine ⟨res, heq, ?_⟩
      cases hres with
      | failed ht htop hlayers hfree => exact .failed ht htop hlayers (by simp at hfree; omega)
      | done ht hlayers hid hfree _ =>
        exact .done ht (by omega) hid (by simp at hfree; omega) (.inr hgrow.2)
    · have ha := ha.resolve_left hcount
      rcases hfree : s.idFree with _ | ⟨new, rest⟩
      · obtain ⟨s', node', heq, ht, htop, hlayers⟩ := tearDown_spec h ha
          (show l + 1 < s.layers + fuel by have := ha.pos; omega)
        rw [getFromFreeList_nil hfree]
        refine ⟨(none, s'), by simp only [heq, map_some], .failed ht htop hlayers ?_⟩
        rw [hfree]
        simpa using hgrow.1
      · obtain ⟨ht, hnew⟩ := h.take (show (s.setTop p (l + 1)).idFree = new :: rest from hfree)
        have hnew' : Fresh { s with idFree := rest } node new :=
          ⟨hnew.bitmap, hnew.ary, hnew.count, hnew.not_mem, hnew.apart⟩
        have htree := Tree.addTop ht hnew' hgrow.1
        obtain ⟨t, ht, hnode⟩ := ha.top
        have hanchored : Anchored (Idr.addTop { s with idFree := rest } p new (l + 1))
            (update node (l + 1, 0) (some new)) (l + 2) := by
          refine ⟨by rw [addTop_layers]; exact ha.pos,
            by rw [addTop_layers]; exact le_succ_of_le ha.le,
            ⟨t, by rw [addTop_top]; exact ht, ?_⟩, fun {k r} hk hr => ?_⟩
          · rw [addTop_layers, update_of_ne fun hx => absurd (Prod.mk.inj hx).1 ?_]
            · exact hnode
            · have := ha.le
              dsimp only
              omega
          · rw [addTop_layers] at hk
            rw [update_of_ne fun hx => hr (Prod.mk.inj hx).2]
            exact ha.narrow hk hr
        obtain ⟨res, heq, hres⟩ := ih htree (by omega) (.inr hanchored) (by omega)
        rw [getFromFreeList_cons hfree]
        refine ⟨res, heq, ?_⟩
        cases hres with
        | failed ht htop hlayers hlen =>
          rw [addTop_top] at htop
          rw [addTop_layers] at hlayers
          rw [addTop_idFree] at hlen
          exact .failed ht htop hlayers (by simp [hfree] at hlen ⊢; omega)
        | done ht hlayers hid hlen _ =>
          rw [addTop_idFree] at hlen
          exact .done ht (by omega) hid (by simp [hfree] at hlen ⊢; omega) (.inr hgrow.2)
    · exact ⟨_, rfl, .done h (le_refl _) (by omega) (le_refl _) (.inl ⟨rfl, rfl, rfl⟩)⟩

/-- The top to start from. A new one has no ids below it. -/
theorem firstTop_cases (h : Tree s node slot) :
    (firstTop s = none ∧ s.layers = 0 ∧ s.idFree = []) ∨
      ∃ p layers s' node', firstTop s = some (p, layers, s') ∧
        Tree (s'.setTop p layers) node' slot ∧ 0 < layers ∧
        ((s'.mem p).count = 0 ∨ Anchored s' node' layers) ∧
        s.idFree.length + s.layers ≤ s'.idFree.length + layers ∧
        ((s'.setTop p layers = s ∧ layers = s.layers) ∨ s.layers = 0) := by
  have hs := h.shape
  rw [firstTop]
  rcases htop : s.top with _ | p
  · have hlayers := hs.top_eq_none.mp htop
    rcases hfree : s.idFree with _ | ⟨new, rest⟩
    · rw [getFromFreeList_nil hfree]
      exact .inl ⟨rfl, hlayers, rfl⟩
    · obtain ⟨ht, hnew⟩ := h.take hfree
      rw [getFromFreeList_cons hfree]
      refine .inr ⟨new, 1, _, single 0 new, rfl, .single (fun id => ?_) (by omega) ?_ ?_ ?_ ?_ ?_,
        by omega, .inl ?_, ?_, .inr hlayers⟩
      · exact hs.absent (hs.above (by omega))
      · rw [modify_mem_self]
        exact hnew.bitmap
      · rw [modify_mem_self]
        exact fun n => hnew.ary
      · rw [modify_mem_self]
        exact hnew.count
      · rw [modify_mem_self]
      · refine ht.free.congr (Sublist.refl _) (fun p' hp' => ?_) fun x p' hx hp' => ?_
        · rw [modify_mem_of_ne (ne_of_mem_of_not_mem hp' hnew.not_mem)]
          exact ⟨rfl, rfl, rfl⟩
        · obtain ⟨-, rfl⟩ := single_eq_some.mp hx
          exact absurd hp' hnew.not_mem
      · rw [modify_mem_self]
        exact hnew.count
      · rw [hlayers]
        exact le_refl _
  · have hpos : 0 < s.layers := by
      rw [pos_iff_ne_zero, Ne, ← hs.top_eq_none, htop]
      nofun
    have hroot {q} : node (s.layers - 1, q) = if q = 0 then s.top else none := hs.root (by omega)
    refine .inr ⟨p, s.layers, s, node, rfl, by rwa [setTop_self htop], hpos,
      .inr ⟨hpos, le_refl _, ⟨p, htop, ?_⟩, fun {k r} hk hr => ?_⟩, le_refl _,
      .inl ⟨setTop_self htop, rfl⟩⟩
    · rw [hroot, if_pos rfl, htop]
    · rcases eq_or_lt_of_le hk with heq | hlt
      · rw [hs.root heq.symm, if_neg hr]
      · exact hs.above (by omega)

end Grow

end LinuxKernel.Idr
