import LinuxKernel.Idr.Tree

/-! # Adding and removing layers

The layers that an allocation adds to the tree have no ids, so that the slots stay the same. A layer
is added below another one or over the top, and an empty top is moved upwards.
-/

namespace LinuxKernel.Idr

open Function Option Nat

variable {s s' : Idr} {node : ℕ × ℕ → Option ℕ} {slot : ℕ → Slot}
  {l l' k q r r' p p' c id new n m : ℕ} {x : ℕ × ℕ}

section AddLayer

theorem addLayer_mem_new (h : p ≠ new) :
    (s.addLayer p m new l).mem new = { s.mem new with layer := l } := by
  rw [Idr.addLayer, Idr.addCount, modify_mem_of_ne h.symm, Idr.setAry, modify_mem_of_ne h.symm,
    modify_mem_self]

theorem addLayer_mem_self (h : p ≠ new) : (s.addLayer p m new l).mem p =
    { s.mem p with ary := update (s.mem p).ary m (some new), count := (s.mem p).count + 1 } := by
  rw [Idr.addLayer, Idr.addCount, modify_mem_self, Idr.setAry, modify_mem_self, modify_mem_of_ne h]

theorem addLayer_mem_of_ne (h : p' ≠ p) (h' : p' ≠ new) :
    (s.addLayer p m new l).mem p' = s.mem p' := by
  rw [Idr.addLayer, Idr.addCount, modify_mem_of_ne h, Idr.setAry, modify_mem_of_ne h,
    modify_mem_of_ne h']

variable (h : Tree s node slot) (hnew : Fresh s node new) (hp : node (l + 1, r / 64) = some p)
  (hr : node (l, r) = none)

include h hnew hp hr

theorem Tree.addLayer_shape :
    Shape (s.addLayer p (r % 64) new l) (update node (l, r) (some new)) slot := by
  have hs := h.shape
  have hl := hs.lt_layers hp
  have hpn := hnew.ne hp
  refine ⟨hs.layers_le, hs.top_eq_none, fun {l' q} hl' => ?_, fun {l' q} hl' => ?_,
    fun {l' r'} hl' => ?_, hnew.update_inj hs, fun {l' q p'} hp' => ?_, fun {id p'} hp' => ?_,
    fun {id} hid => hs.absent ?_, hs.unused⟩
  · rw [update_of_ne fun hx => by cases hx; exact absurd hl' hl.ne]
    exact hs.root hl'
  · have hl' : s.layers ≤ l' := hl'
    rw [update_of_ne fun hx => by cases hx; omega]
    exact hs.above hl'
  · -- the slot of the new layer, its own slots, and all others
    rcases eq_or_ne (l', r') (l, r) with heq | hne
    · cases heq
      rw [update_self, update_of_ne (by simp), hp, bind_some, addLayer_mem_self hpn]
      dsimp only
      rw [update_self]
    rw [update_of_ne hne, hs.child hl']
    rcases eq_or_ne (l' + 1, r' / 64) (l, r) with heq | hne'
    · rw [heq, update_self, hr, bind_some, addLayer_mem_new hpn]
      exact (hnew.ary (mod_lt _ (by omega))).symm
    · rw [update_of_ne hne']
      refine bind_congr fun p' hp' => ?_
      rcases eq_or_ne p' p with rfl | hpp
      · obtain ⟨hl₁, hr₁⟩ := Prod.mk.inj (hs.inj hp' hp)
        have : r' % 64 ≠ r % 64 := fun hmod => hne (Prod.ext (by omega) (by dsimp only; omega))
        rw [addLayer_mem_self hpn]
        dsimp only
        rw [update_of_ne this]
      · rw [addLayer_mem_of_ne hpp (hnew.ne hp')]
  · rcases hnew.update_cases hp' with ⟨⟨⟩, rfl⟩ | ⟨hp', hpn'⟩
    · rw [addLayer_mem_new hpn]
    · rcases eq_or_ne p' p with rfl | hpp
      · rw [addLayer_mem_self hpn]
        exact hs.layer hp'
      · rw [addLayer_mem_of_ne hpp hpn']
        exact hs.layer hp'
  · rcases hnew.update_cases hp' with ⟨⟨⟩, rfl⟩ | ⟨hp', hpn'⟩
    · rw [addLayer_mem_new hpn, hs.absent hr]
      exact hnew.ary (mod_lt _ (by omega))
    · have hpp : p' ≠ p := by
        rintro rfl
        cases hs.inj hp' hp
      rw [addLayer_mem_of_ne hpp hpn']
      exact hs.leaf hp'
  · rw [update_apply] at hid
    split at hid
    · cases hid
    · exact hid

theorem Tree.addLayer :
    Tree (s.addLayer p (r % 64) new l) (update node (l, r) (some new)) slot := by
  have hs := h.shape
  have hl := hs.lt_layers hp
  have hpn := hnew.ne hp
  refine ⟨h.addLayer_shape hnew hp hr, fun l' r' p' hp' => ?_, fun x p' hp' => ?_, ?_⟩
  · rcases hnew.update_cases hp' with ⟨heq, rfl⟩ | ⟨hp', hpn'⟩
    · obtain ⟨rfl, hq⟩ := Prod.mk.inj heq
      rw [addLayer_mem_new hpn, hnew.bitmap]
      simpa using hs.not_fullBlock (by omega) (hq ▸ hr)
    · rw [← h.bits l' r' p' hp']
      rcases eq_or_ne p' p with rfl | hpp
      · rw [addLayer_mem_self hpn]
      · rw [addLayer_mem_of_ne hpp hpn']
  · dsimp only
    rw [occ_insert hr]
    rcases hnew.update_cases hp' with ⟨rfl, rfl⟩ | ⟨hp', hpn'⟩
    · rw [addLayer_mem_new hpn, hnew.count, if_neg (by simp), eq_comm, Int.natCast_eq_zero,
        occ_eq_zero]
      intro n hn
      refine hs.occupied_eq_false (by omega) ?_
      rwa [mul_add_div (by omega), div_eq_of_lt hn]
    · rcases eq_or_ne p' p with rfl | hpp
      · obtain rfl := hs.inj hp hp'
        rw [addLayer_mem_self hpn, if_pos rfl, h.counts _ _ hp']
        rfl
      · rw [addLayer_mem_of_ne hpp hpn', if_neg, h.counts _ _ hp']
        rintro rfl
        exact hpp (some.inj (hp'.symm.trans hp))
  · refine h.free.congr (List.Sublist.refl _) (fun p' hp' => ?_) fun x p' hx hp' => ?_
    · rw [addLayer_mem_of_ne (fun hpp => h.free.apart hp' (hpp ▸ hp))
        (ne_of_mem_of_not_mem hp' hnew.not_mem)]
      exact ⟨rfl, rfl, rfl⟩
    · rcases hnew.update_cases hx with ⟨-, rfl⟩ | ⟨hx, -⟩
      · exact absurd hp' hnew.not_mem
      · exact ⟨x, hx⟩

end AddLayer

section Single

def single (l p : ℕ) (x : ℕ × ℕ) : Option ℕ := if x = (l, 0) then some p else none

theorem single_eq_some : single l p x = some p' ↔ x = (l, 0) ∧ p' = p := by
  rw [single]
  split_ifs with hx
  · simp [hx, eq_comm]
  · simp [hx]

theorem Tree.single (hslot : ∀ id, slot id = .empty) (hl : l < 5) (hbitmap : (s.mem p).bitmap = 0)
    (hary : ∀ n < 64, (s.mem p).ary n = none) (hcount : (s.mem p).count = 0)
    (hlayer : (s.mem p).layer = l) (hfree : Free s (single l p)) :
    Tree (s.setTop p (l + 1)) (Idr.single l p) slot where
  shape :=
    { layers_le := hl
      top_eq_none := by simp [Idr.setTop]
      root := by
        rintro l' q ⟨⟩
        simp [Idr.single, Idr.setTop]
      above := by
        intro l' q (hl' : l + 1 ≤ l')
        rw [Idr.single, if_neg]
        rintro ⟨⟩
        omega
      child := by
        intro l' r (hl' : l' + 1 < l + 1)
        rw [Idr.single, if_neg (by rintro ⟨⟩; omega), eq_comm, bind_eq_none_iff]
        intro p' hp'
        obtain ⟨-, rfl⟩ := single_eq_some.mp hp'
        exact hary _ (mod_lt _ (by omega))
      inj := fun hx hy => (single_eq_some.mp hx).1.trans (single_eq_some.mp hy).1.symm
      layer := by
        intro l' q p' hp'
        obtain ⟨⟨⟩, rfl⟩ := single_eq_some.mp hp'
        exact hlayer
      leaf := by
        intro id p' hp'
        obtain ⟨-, rfl⟩ := single_eq_some.mp hp'
        rw [hslot]
        exact hary _ (mod_lt _ (by omega))
      absent := fun _ => hslot _
      unused := fun _ => hslot _ }
  bits := by
    intro l' r p' hp'
    obtain ⟨-, rfl⟩ := single_eq_some.mp hp'
    exact iff_of_false (by simp [Idr.setTop, hbitmap]) (not_fullBlock_of_first (hslot _))
  counts := by
    rintro x p' hp'
    obtain ⟨rfl, rfl⟩ := single_eq_some.mp hp'
    refine hcount.trans (eq_comm.mp (Int.natCast_eq_zero.mpr (occ_eq_zero.mpr fun n _ => ?_)))
    cases l with
    | zero => rw [occupied, hslot]; rfl
    | succ l => rw [occupied, Idr.single, if_neg (by rintro ⟨⟩)]; rfl
  free := ⟨hfree.nodup, hfree.zero, hfree.apart⟩

theorem Tree.empty_top (h : Tree s node slot) (hl : s.layers = l + 1) (hp : s.top = some p)
    (hcount : (s.mem p).count = 0) : (∀ id, slot id = .empty) ∧ (s.mem p).bitmap = 0 ∧
      ∀ n < 64, (s.mem p).ary n = none := by
  have hs := h.shape
  have htop : node (l, 0) = some p := by rw [hs.root hl.symm, if_pos rfl, hp]
  have hocc : ∀ n < 64, occupied node slot l n = false := by
    have := h.counts _ _ htop
    rw [hcount, eq_comm, Int.natCast_eq_zero, occ_eq_zero] at this
    simpa using this
  have hslot : ∀ id, slot id = .empty := by
    intro id
    rcases lt_or_ge id (64 ^ s.layers) with hid | hid
    · refine hs.empty_of_occupied (by omega) (hocc _ ?_)
      rw [hl] at hid
      exact Nat.div_lt_of_lt_mul hid
    · exact hs.absent_beyond hid
  refine ⟨hslot, BitVec.eq_of_getLsbD_eq fun n hn => ?_, fun n hn => ?_⟩
  · have := h.bits l n p (by rwa [div_eq_of_lt hn])
    rw [mod_eq_of_lt hn] at this
    refine Eq.trans ?_ BitVec.getLsbD_zero.symm
    rw [← Bool.not_eq_true, this]
    exact not_fullBlock_of_first (hslot _)
  · cases l with
    | zero =>
      have := hs.leaf (show node (0, n / 64) = some p by rwa [div_eq_of_lt hn])
      rwa [mod_eq_of_lt hn, hslot] at this
    | succ l =>
      have := hs.child (l := l) (r := n) (by omega)
      rw [div_eq_of_lt hn, htop, mod_eq_of_lt hn] at this
      simpa [occupied, this] using hocc n hn

end Single

section AddTop

theorem addTop_mem_of_ne (h : p' ≠ new) : (s.addTop p new l).mem p' = s.mem p' := by
  rw [Idr.addTop]
  split
  · rw [Idr.setBit, modify_mem_of_ne h, modify_mem_of_ne h]
  · rw [modify_mem_of_ne h]

theorem addTop_mem_new (h : p ≠ new) : (s.addTop p new l).mem new =
    { bitmap := if (s.mem p).bitmap = .allOnes 64 then Word.set (s.mem new).bitmap 0
        else (s.mem new).bitmap
      ary := update (s.mem new).ary 0 (some p)
      count := 1
      layer := l } := by
  simp only [Idr.addTop, modify_mem_of_ne h]
  split
  · rw [Idr.setBit, modify_mem_self, modify_mem_self]
  · rw [modify_mem_self]

theorem addTop_bit (h : p ≠ new) (hbitmap : (s.mem new).bitmap = 0) (hn : n < 64) :
    ((s.addTop p new l).mem new).bitmap.getLsbD n = true ↔
      n = 0 ∧ (s.mem p).bitmap = .allOnes 64 := by
  rw [addTop_mem_new h, hbitmap]
  split_ifs with hones
  · rw [Word.getLsbD_set _ hn]
    simpa using fun _ => hones
  · simpa using fun _ => hones

theorem addTop_top : (s.addTop p new l).top = s.top := by
  rw [Idr.addTop]
  split <;> rfl

theorem addTop_layers : (s.addTop p new l).layers = s.layers := by
  rw [Idr.addTop]
  split <;> rfl

theorem addTop_idFree : (s.addTop p new l).idFree = s.idFree := by
  rw [Idr.addTop]
  split <;> rfl

variable (h : Tree (s.setTop p (l + 1)) node slot) (hnew : Fresh s node new) (hl : l + 1 < 5)

include h hnew hl

theorem Tree.addTop_shape : Shape ((s.addTop p new (l + 1)).setTop new (l + 2))
    (update node (l + 1, 0) (some new)) slot := by
  have hs := h.shape
  have hroot {q} : node (l, q) = if q = 0 then some p else none := hs.root rfl
  have habove {l' q} (hl' : l + 1 ≤ l') : node (l', q) = none := hs.above hl'
  have hpn : p ≠ new := hnew.ne (hroot.trans (if_pos rfl))
  refine ⟨show l + 2 ≤ 5 by omega, by simp [Idr.setTop], fun {l' q} hl' => ?_,
    fun {l' q} (hl' : l + 2 ≤ l') => ?_, fun {l' r} (hl' : l' + 1 < l + 2) => ?_,
    hnew.update_inj hs, fun {l' q p'} hp' => ?_, fun {id p'} hp' => ?_, fun {id} hid => ?_,
    hs.unused⟩
  · obtain rfl : l' = l + 1 := succ.inj hl'
    rw [update_apply, habove (le_refl _)]
    simp [Idr.setTop]
  · rw [update_of_ne (by rintro ⟨⟩; omega), habove (by omega)]
  · -- only the former top is below the new one
    rw [update_of_ne (by rintro ⟨⟩; omega)]
    rcases Nat.lt_succ_iff_lt_or_eq.mp hl' with hlt | heq
    · rw [update_of_ne fun hx => absurd (Prod.mk.inj hx).1 (by omega), hs.child hlt]
      exact bind_congr fun p' hp' => by
        rw [Idr.setTop, Idr.setTop, addTop_mem_of_ne (hnew.ne hp')]
    · obtain rfl : l' = l := succ.inj heq
      rw [hroot]
      rcases Nat.eq_zero_or_pos (r / 64) with hr | hr
      · rw [hr, update_self, bind_some, Idr.setTop, addTop_mem_new hpn]
        have : r % 64 = 0 ↔ r = 0 := by omega
        simp only [update_apply, this, hnew.ary (mod_lt r (by omega))]
      · rw [if_neg (by omega), update_of_ne fun hx => hr.ne' (Prod.mk.inj hx).2, habove (le_refl _)]
        rfl
  · rcases hnew.update_cases hp' with ⟨⟨⟩, rfl⟩ | ⟨hp', hpn'⟩
    · rw [Idr.setTop, addTop_mem_new hpn]
    · rw [Idr.setTop, addTop_mem_of_ne hpn']
      exact hs.layer hp'
  · obtain ⟨⟨⟩, -⟩ | ⟨hp', hpn'⟩ := hnew.update_cases hp'
    rw [Idr.setTop, addTop_mem_of_ne hpn']
    exact hs.leaf hp'
  · exact hs.absent hid

theorem Tree.addTop : Tree ((s.addTop p new (l + 1)).setTop new (l + 2))
    (update node (l + 1, 0) (some new)) slot := by
  have hs := h.shape
  have hroot {q} : node (l, q) = if q = 0 then some p else none := hs.root rfl
  have hp : node (l, 0) = some p := hroot.trans (if_pos rfl)
  have hpn : p ≠ new := hnew.ne hp
  have habove {q} : node (l + 1, q) = none := hs.above (le_refl _)
  refine ⟨h.addTop_shape hnew hl, fun l' r p' hp' => ?_, fun x p' hp' => ?_, ?_⟩
  · rcases hnew.update_cases hp' with ⟨heq, rfl⟩ | ⟨hp', hpn'⟩
    · obtain ⟨rfl, hr⟩ := Prod.mk.inj heq
      have hfull : (s.mem p).bitmap = .allOnes 64 ↔ FullBlock slot (l + 1) 0 :=
        h.bits.eq_allOnes_iff hp
      rw [Idr.setTop, addTop_bit hpn hnew.bitmap (mod_lt r (by omega)), hfull]
      rcases Nat.eq_zero_or_pos r with rfl | hpos
      · exact and_iff_right rfl
      · refine iff_of_false (fun h => by omega) (not_fullBlock_of_first (hs.absent_beyond ?_))
        exact Nat.le_mul_of_pos_left _ hpos
    · rw [← h.bits l' r p' hp', Idr.setTop, addTop_mem_of_ne hpn']
      rfl
  · dsimp only
    rw [occ_insert habove]
    rcases hnew.update_cases hp' with ⟨rfl, rfl⟩ | ⟨hp', hpn'⟩
    · rw [if_neg (by simp), Idr.setTop, addTop_mem_new hpn]
      have hone : occ node slot (l + 1, 0) = 1 := by
        have hzero : Word.tally 64 (fun _ => false) = 0 := Word.tally_eq_zero.mpr fun _ _ => rfl
        rw [occ, Word.tally_add_one (n := 0) (P := fun _ => false) (by omega) rfl, hzero]
        · simp [occupied, hroot]
        · intro n _ hn
          simp [occupied, hroot, hn]
      rw [hone]
      rfl
    · rw [Idr.setTop, addTop_mem_of_ne hpn', if_neg]
      · exact h.counts _ _ hp'
      · rintro rfl
        rw [hs.above (by simp [Idr.setTop])] at hp'
        cases hp'
  · refine Free.congr h.free ?_ (fun p' hp' => ?_) fun x p' hx hp' => ?_
    · rw [Idr.setTop, addTop_idFree]
      exact List.Sublist.refl _
    · rw [Idr.setTop, addTop_idFree] at hp'
      rw [Idr.setTop, addTop_mem_of_ne (ne_of_mem_of_not_mem hp' hnew.not_mem)]
      exact ⟨rfl, rfl, rfl⟩
    · rw [Idr.setTop, addTop_idFree] at hp'
      rcases hnew.update_cases hx with ⟨-, rfl⟩ | ⟨hx, -⟩
      · exact absurd hp' hnew.not_mem
      · exact ⟨x, hx⟩

end AddTop

section DropTop

/-- The top goes, and the only layer below it takes its place. -/
theorem Tree.dropTop (h : Tree s node slot) (hl : s.layers = k + 2) (hp : s.top = some p)
    (hc : node (k, 0) = some c) (hone : ∀ r, r ≠ 0 → node (k, r) = none) (htop : s'.top = some c)
    (hlayers : s'.layers = k + 1) (hmem : ∀ p', p' ≠ p → s'.mem p' = s.mem p')
    (hfree : Free s' (update node (k + 1, 0) none)) :
    Tree s' (update node (k + 1, 0) none) slot := by
  have hs := h.shape
  have hroot : node (k + 1, 0) = some p := ((hs.root hl.symm).trans (if_pos rfl)).trans hp
  have hne {x p'} (hx : x ≠ (k + 1, 0)) (hp' : node x = some p') : p' ≠ p := by
    rintro rfl
    exact hx (hs.inj hp' hroot)
  have hold {x p'} (hp' : update node (k + 1, 0) none x = some p') :
      node x = some p' ∧ s'.mem p' = s.mem p' := by
    obtain ⟨hx, hp'⟩ := update_none_eq_some.mp hp'
    exact ⟨hp', hmem p' (hne hx hp')⟩
  refine ⟨⟨?_, ?_, fun {l q} hl' => ?_, fun {l q} hl' => ?_, fun {l r} hl' => ?_,
    fun hx hy => hs.inj (hold hx).1 (hold hy).1, fun hp' => ?_, fun hp' => ?_, fun hid => ?_,
    hs.unused⟩, ?_, ?_, hfree⟩
  · have := hs.layers_le
    omega
  · simp [htop, hlayers]
  · obtain rfl : l = k := by omega
    rw [update_of_ne (by rintro ⟨⟩), htop]
    split_ifs with hq
    · rw [hq, hc]
    · exact hone q hq
  · rcases lt_or_ge l s.layers with hlt | hge
    · obtain rfl : l = k + 1 := by omega
      rw [update_apply]
      split_ifs with hq
      · rfl
      · rw [hs.root hl.symm, if_neg fun h => hq (by rw [h])]
    · rw [update_of_ne (by rintro ⟨⟩; omega), hs.above hge]
  · rw [update_of_ne (by rintro ⟨⟩; omega),
      update_of_ne fun hx => absurd (Prod.mk.inj hx).1 (by omega), hs.child (by omega)]
    exact bind_congr fun p' hp' => by
      rw [hmem p' (hne (fun hx => absurd (Prod.mk.inj hx).1 (by omega)) hp')]
  · rw [(hold hp').2]
    exact hs.layer (hold hp').1
  · rw [(hold hp').2]
    exact hs.leaf (hold hp').1
  · exact hs.absent (by rwa [update_of_ne (by rintro ⟨⟩)] at hid)
  · exact h.bits.congr (fun x p' hp' => ⟨(hold hp').1, by rw [(hold hp').2]⟩) fun _ _ _ => Iff.rfl
  · refine h.counts.congr (fun x p' hp' => ⟨(hold hp').1, by rw [(hold hp').2]⟩) fun x hx => ?_
    obtain ⟨p', hp'⟩ := isSome_iff_exists.mp hx
    have hlt : x.1 < s.layers := hs.lt_layers (hold hp').1
    rw [occ_erase hroot, if_neg]
    rintro rfl
    omega

end DropTop

end LinuxKernel.Idr
