import LinuxKernel.Idr.Search

/-! # Taking a slot

The pointer of a slot is written, and the bit of an id that has no more space is set, along with
those of the blocks above it that have become full.
-/

namespace LinuxKernel.Idr

open Function Radix Nat Option

variable {s s' : Idr} {node node' : ℕ × ℕ → Option ℕ} {slot slot' : ℕ → Slot} {pa : Path}
  {l k q r p c id start i n fuel : ℕ} {v : Slot} {F : ℕ → ℕ → Prop} {c : ℕ × ℕ → ℤ}
  {ptr : Option ℕ}

theorem and_mask : n &&& 63 = n % 64 := and_two_pow_sub_one_eq_mod n 6

section Install

theorem Shape.setAry (h : Shape s node slot) (hp : node (0, id / 64) = some p)
    (hv : v.used = false → v = .empty) :
    Shape (s.setAry p (id % 64) v.ptr) node (update slot id v) := by
  refine ⟨h.layers_le, h.top_eq_none, h.root, h.above, fun {l r} hl => ?_, h.inj,
    fun {l q p'} hp' => ?_, fun {id' p'} hp' => ?_, fun {id'} hnone => ?_, fun {id'} hused => ?_⟩
  · rw [h.child hl]
    refine bind_congr fun p' hp' => ?_
    rw [Idr.setAry, modify_mem_of_ne]
    rintro rfl
    cases h.inj hp hp'
  · rcases eq_or_ne p' p with rfl | hne
    · rw [Idr.setAry, modify_mem_self]
      exact h.layer hp'
    · rw [Idr.setAry, modify_mem_of_ne hne]
      exact h.layer hp'
  · rcases eq_or_ne p' p with rfl | hne
    · have hq := (Prod.mk.inj (h.inj hp hp')).2
      rw [Idr.setAry, modify_mem_self]
      dsimp only
      rcases eq_or_ne id' id with rfl | hid
      · rw [update_self, update_self]
      · rw [update_of_ne (show id' % 64 ≠ id % 64 by omega), update_of_ne hid]
        exact h.leaf hp'
    · rw [Idr.setAry, modify_mem_of_ne hne, update_of_ne]
      · exact h.leaf hp'
      · rintro rfl
        exact hne (some.inj (hp'.symm.trans hp))
  · rw [update_of_ne]
    · exact h.absent hnone
    · rintro rfl
      rw [hp] at hnone
      cases hnone
  · rcases eq_or_ne id' id with rfl | hid
    · rw [update_self] at hused ⊢
      exact hv hused
    · rw [update_of_ne hid] at hused ⊢
      exact h.unused hused

theorem occ_use (h : (slot id).used = false) (hv : v.used = true) {x : ℕ × ℕ} :
    occ node (update slot id v) x =
      if x = (0, id / 64) then occ node slot x + 1 else occ node slot x := by
  have hother {l r} (h : (l, r) ≠ (0, id)) :
      occupied node (update slot id v) l r = occupied node slot l r := by
    cases l with
    | zero => rw [occupied, occupied, update_of_ne fun hr => h (by rw [hr])]
    | succ l => rfl
  split_ifs with hx
  · subst hx
    refine occ_add_one h ?_ fun r hr => hother fun hx => hr (Prod.mk.inj hx).2
    rwa [occupied, update_self]
  · refine occ_congr fun n hn => hother fun hxn => hx ?_
    obtain ⟨hl, hr⟩ := Prod.mk.inj hxn
    exact Prod.ext hl (by dsimp only; omega)

theorem fullBlock_update (h : v.full = (slot id).full) :
    FullBlock (update slot id v) l r ↔ FullBlock slot l r := by
  have hfull : (fun x => (update slot id v x).full = true) = fun x => (slot x).full = true := by
    funext x
    rcases eq_or_ne x id with rfl | hne
    · rw [update_self, h]
    · rw [update_of_ne hne]
  rw [FullBlock, FullBlock, hfull]

theorem Tree.install (ptr : Option ℕ) (h : Tree s node slot) (hp : node (0, id / 64) = some p)
    (hid : (slot id).used = false) :
    Tree ((s.setAry p (id % 64) ptr).addCount p 1) node (update slot id ⟨false, true, ptr⟩) := by
  have hempty := h.shape.unused hid
  have hs : Shape (s.setAry p (id % 64) ptr) node (update slot id ⟨false, true, ptr⟩) :=
    h.shape.setAry (v := ⟨false, true, ptr⟩) hp nofun
  have hb : Bits s node (FullBlock (update slot id ⟨false, true, ptr⟩)) :=
    h.bits.congr (fun x p hp => ⟨hp, rfl⟩) fun l r _ => fullBlock_update (by rw [hempty]; rfl)
  refine ⟨hs.modify ⟨rfl, rfl⟩, (hb.modify rfl).modify rfl, ?_, (h.free.modify hp).modify hp⟩
  refine ((h.counts.modify rfl).addCount hs hp).congr (fun x p hp => ⟨hp, rfl⟩) fun x _ => ?_
  rw [occ_use hid rfl, update_apply]
  split_ifs with hx
  · rw [hx]
    rfl
  · rfl

end Install

section MarkFull

/-- A block is full once one more id is. -/
def FullWith (slot : ℕ → Slot) (id l r : ℕ) : Prop :=
  Full (fun x => x = id ∨ (slot x).full = true) 64 l r

theorem fullBlock_mark (h : v.full = true) :
    FullBlock (update slot id v) l r ↔ FullWith slot id l r := by
  have hfull : (fun x => (update slot id v x).full = true) =
      fun x => x = id ∨ (slot x).full = true := by
    funext x
    rcases eq_or_ne x id with rfl | hne
    · simp [h]
    · simp [hne]
  rw [FullBlock, FullWith, hfull]

/-- The bits of the levels below `l` are those of the slots after an id has become full. -/
def marked (slot : ℕ → Slot) (id l k r : ℕ) : Prop :=
  if k < l then FullWith slot id k r else FullBlock slot k r

theorem marked_succ (hfull : FullWith slot id l (id / 64 ^ l)) :
    (if k = l ∧ r = id / 64 ^ l then True else marked slot id l k r) ↔
      marked slot id (l + 1) k r := by
  rcases lt_trichotomy k l with hlt | rfl | hgt
  · rw [if_neg (by omega), marked, marked, if_pos hlt, if_pos (by omega)]
  · rw [marked, marked, if_neg (lt_irrefl k), if_pos (lt_succ_self k)]
    split_ifs with hr
    · rw [true_iff, hr.2]
      exact hfull
    · exact (full_insert fun h => hr ⟨rfl, h⟩).symm
  · rw [if_neg (by omega), marked, marked, if_neg (by omega), if_neg (by omega)]

theorem marked_of_not_full
    (hfull : ¬ FullWith slot id l (id / 64 ^ l)) :
    marked slot id l k r ↔ FullWith slot id k r := by
  rw [marked]
  split_ifs with hk
  · rfl
  · rcases eq_or_ne r (id / 64 ^ k) with rfl | hr
    · refine iff_of_false (fun h => ?_) fun h => ?_
      · exact hfull fun x hx => .inr (h x (div_pow_congr hx (not_lt.mp hk)))
      · exact hfull fun x hx => h x (div_pow_congr hx (not_lt.mp hk))
    · exact (full_insert hr).symm

theorem idrMarkFull_spec (hs : Shape s node slot') (hc : Counts s node c) (hf : Free s node)
    (hb : Bits s node (marked slot id l)) (hp : node (l, id / 64 ^ (l + 1)) = some p)
    (hpath : ∀ i, i < s.layers → pa i = node (i, id / 64 ^ (i + 1))) (hstop : pa s.layers = none)
    (hfull : FullWith slot id l (id / 64 ^ l))
    (hfuel : s.layers < l + fuel) :
    ∃ s', idrMarkFull pa fuel p l (id / 64 ^ l) s = some s' ∧ Shape s' node slot' ∧
      Counts s' node c ∧ Free s' node ∧
      Bits s' node (FullWith slot id) := by
  induction fuel generalizing s p l with
  | zero => exact absurd (hs.lt_layers hp) (by omega)
  | succ fuel ih =>
    have hl := hs.lt_layers hp
    have hp' : node (l, id / 64 ^ l / 64) = some p := by rwa [← div_pow_succ]
    have hb : Bits (s.setBit p (id / 64 ^ l % 64)) node (marked slot id (l + 1)) :=
      (hb.setBit hs hp').congr (fun x p hp => ⟨hp, rfl⟩) fun k r _ => (marked_succ hfull).symm
    have hs : Shape (s.setBit p (id / 64 ^ l % 64)) node slot' := hs.modify ⟨rfl, rfl⟩
    have hc : Counts (s.setBit p (id / 64 ^ l % 64)) node c := hc.modify rfl
    have hf : Free (s.setBit p (id / 64 ^ l % 64)) node := hf.modify hp
    have hones : ((s.setBit p (id / 64 ^ l % 64)).mem p).bitmap = .allOnes 64 ↔
        FullWith slot id (l + 1) (id / 64 ^ (l + 1)) := by
      rw [hb.allOnes_iff hp, FullWith, full_succ (by omega)]
      simp only [marked, lt_succ_self, if_true, FullWith]
    rw [idrMarkFull, and_mask]
    split_ifs with h
    · have hfull' := hones.mp h
      rcases eq_or_lt_of_le (show l + 1 ≤ s.layers from hl) with heq | hlt
      · rw [heq, hstop]
        refine ⟨_, rfl, hs, hc, hf, hb.congr (fun x p hp => ⟨hp, rfl⟩) fun k r hk => ?_⟩
        obtain ⟨p', hp'⟩ := isSome_iff_exists.mp hk
        rw [marked, if_pos]
        exact lt_of_lt_of_eq (hs.lt_layers hp') heq.symm
      · obtain ⟨p', hp'⟩ := hs.exists_above hp (le_succ l) hlt
        rw [hpath _ hlt, hp', shiftRight_eq_div_pow, ← div_pow_succ]
        exact ih hs hc hf hb hp' hpath hstop hfull' (by rw [Idr.setBit, modify_layers]; omega)
    · refine ⟨_, rfl, hs, hc, hf, hb.congr (fun x p hp => ⟨hp, rfl⟩) fun k r _ => ?_⟩
      exact (marked_of_not_full (mt hones.mpr h)).symm

/-- Only the bit of an id that is in use changes. -/
theorem Shape.setFull {b : Bool} (h : Shape s node slot) (hid : (slot id).used = true) :
    Shape s node (update slot id { slot id with full := b }) := by
  have hne {x} (hx : slot x = .empty) : x ≠ id := by
    rintro rfl
    rw [hx] at hid
    cases hid
  refine ⟨h.layers_le, h.top_eq_none, h.root, h.above, h.child, h.inj, h.layer, fun {x p} hp => ?_,
    fun {x} hx => ?_, fun {x} hx => ?_⟩
  · rw [h.leaf hp]
    rcases eq_or_ne x id with rfl | hx
    · rw [update_self]
    · rw [update_of_ne hx]
  · rw [update_of_ne (hne (h.absent hx)), h.absent hx]
  · rcases eq_or_ne x id with rfl | hx'
    · rw [update_self, hid] at hx
      cases hx
    · rw [update_of_ne hx'] at hx ⊢
      exact h.unused hx

theorem occ_update {x : ℕ × ℕ} (hv : v.used = (slot id).used) :
    occ node (update slot id v) x = occ node slot x := by
  refine occ_congr fun n _ => ?_
  cases x.1 with
  | zero =>
    rw [occupied, occupied, update_apply]
    split_ifs with h
    · rw [h, hv]
    · rfl
  | succ l => rfl

theorem Tree.markFull (h : Tree s node slot) (hid : (slot id).used = true)
    (hp : node (0, id / 64) = some p)
    (hpath : ∀ i, i < s.layers → pa i = node (i, id / 64 ^ (i + 1))) (hstop : pa s.layers = none)
    (hfuel : 5 < fuel) : ∃ s', idrMarkFull pa fuel p 0 id s = some s' ∧
      Tree s' node (update slot id { slot id with full := true }) := by
  have hb : Bits s node (marked slot id 0) := h.bits
  have hfull : FullWith slot id 0 (id / 64 ^ 0) := by simp [FullWith]
  have := h.shape.layers_le
  obtain ⟨s', heq, hs, hc, hf, hb⟩ := idrMarkFull_spec (h.shape.setFull hid) h.counts h.free hb
    hp hpath hstop hfull (by omega : s.layers < 0 + fuel)
  rw [pow_zero, Nat.div_one] at heq
  exact ⟨s', heq, hs, hb.congr (fun x p hp => ⟨hp, rfl⟩) fun _ _ _ => fullBlock_mark rfl,
    hc.congr (fun x p hp => ⟨hp, rfl⟩)
      fun x _ => by rw [occ_update (v := { slot id with full := true }) rfl], hf⟩

end MarkFull

section GetNew

/-- An idr whose ids are full once they are in use gives out the first one that is not. -/
theorem idrGetNewAboveInt_spec (ptr : Option ℕ) (h : Tree s node slot)
    (huse : ∀ x, (slot x).used = (slot x).full)
    (hex : ∃ x, start ≤ x ∧ x < 64 ^ 5 ∧ (slot x).full = false) (hfuel : 2 ^ 33 ≤ fuel) :
    (∃ s' node', idrGetNewAboveInt fuel s ptr start = some (.noMemory, s') ∧ Tree s' node' slot) ∨
      ∃ id s' node', idrGetNewAboveInt fuel s ptr start = some (.id id, s') ∧ start ≤ id ∧
        (slot id).full = false ∧ (∀ x, start ≤ x → x < id → (slot x).full = true) ∧
        Tree s' node' (update slot id ⟨true, true, ptr⟩) := by
  obtain ⟨res, heq, hres⟩ := idrGetEmptySlot_spec h hex hfuel
  rw [idrGetNewAboveInt, heq, bind_some]
  cases hres with
  | noMemory ht _ => exact .inl ⟨_, _, rfl, ht⟩
  | @found id p pa s₁ node₁ ht hp hpath hstop hstart hfull hall _ =>
    have hpos := ht.shape.lt_layers hp
    have hpa : pa 0 = some p := by
      rw [hpath 0 hpos]
      exact hp
    have hinst := ht.install ptr hp ((huse id).trans hfull)
    obtain ⟨s', heq, ht'⟩ := hinst.markFull (by rw [update_self]) hp hpath hstop
      (show 5 < fuel by omega)
    rw [update_idem, update_self] at ht'
    refine .inr ⟨id, s', node₁, ?_, hstart, hfull, hall, ht'⟩
    dsimp only
    rw [hpa, bind_some, and_mask, heq]
    rfl

end GetNew

end LinuxKernel.Idr
