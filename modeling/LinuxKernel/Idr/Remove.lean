import LinuxKernel.Idr.Mark

/-! # Removing an id

The way down to the leaf clears the bits of the blocks that the id is in, and the way up frees the
layers that have become empty. While the layers are freed, the one that is looked at next still
counts the slot that has just been cleared.
-/

namespace LinuxKernel.Idr

open Function Radix Option Nat List

variable {s s' : Idr} {node node' : ℕ × ℕ → Option ℕ} {slot : ℕ → Slot} {paa : List Link}
  {l k q r p p' id n L : ℕ} {v : Slot} {F : ℕ → ℕ → Prop} {c : ℕ × ℕ → ℤ} {x : ℕ × ℕ}

section Path

inductive Stack (node : ℕ × ℕ → Option ℕ) (id L : ℕ) : ℕ → List Link → Prop
  | top {l : ℕ} : l + 1 = L → Stack node id L l [.top]
  | ary {l p : ℕ} {paa : List Link} : node (l + 1, id / 64 ^ (l + 2)) = some p →
      Stack node id L (l + 1) paa → Stack node id L l (.ary p (id / 64 ^ (l + 1) % 64) :: paa)

/-- The bits that have been cleared on the way down to the level `l`, in a tree with `L` levels. -/
def cleared (F : ℕ → ℕ → Prop) (id l L k r : ℕ) : Prop :=
  if l ≤ k ∧ k < L ∧ r = id / 64 ^ k then False else F k r

theorem clearPath_spec (hs : Shape s node slot) (hc : Counts s node c) (hf : Free s node)
    (hb : Bits s node (cleared F id (l + 1) L)) (hl : l < L)
    (hp : node (l, id / 64 ^ (l + 1)) = some p)
    (hleaf : (node (0, id / 64)).isSome) (hstack : Stack node id L l paa) :
    ∃ p' paa' s', clearPath id l (some p) paa s = (some p', paa', s') ∧
      node (0, id / 64) = some p' ∧ Stack node id L 0 paa' ∧ s'.top = s.top ∧
      s'.layers = s.layers ∧ Shape s' node slot ∧ Counts s' node c ∧ Free s' node ∧
      Bits s' node (cleared F id 1 L) := by
  induction l generalizing s p paa with
  | zero =>
    refine ⟨p, paa, s, by rw [clearPath], ?_, hstack, rfl, rfl, hs, hc, hf, hb⟩
    exact hp
  | succ l ih =>
    have hlt := hs.lt_layers hp
    have hp' : node (l + 1, id / 64 ^ (l + 1) / 64) = some p := by rwa [← div_pow_succ]
    have hchild : node (l, id / 64 ^ (l + 1)) = (s.mem p).ary (id / 64 ^ (l + 1) % 64) := by
      rw [hs.child hlt, hp', bind_some]
    obtain ⟨c', hc'⟩ : ∃ c', node (l, id / 64 ^ (l + 1)) = some c' := by
      obtain ⟨t, ht⟩ := isSome_iff_exists.mp hleaf
      exact hs.exists_above ht (by omega) (by omega)
    have hb' : Bits (s.clearBit p (id / 64 ^ (l + 1) % 64)) node (cleared F id (l + 1) L) := by
      refine (hb.clearBit hs hp').congr (fun x p hp => ⟨hp, rfl⟩) fun k r _ => ?_
      rw [cleared, cleared]
      by_cases hk : k = l + 1 ∧ r = id / 64 ^ (l + 1)
      · rw [if_pos hk, if_pos ⟨by omega, by omega, hk.1 ▸ hk.2⟩]
      · rw [if_neg hk]
        have : l + 1 ≤ k ∧ k < L ∧ r = id / 64 ^ k ↔ l + 1 + 1 ≤ k ∧ k < L ∧ r = id / 64 ^ k := by
          refine ⟨fun ⟨h₁, h₂, h₃⟩ => ⟨?_, h₂, h₃⟩, fun ⟨h₁, h₂, h₃⟩ => ⟨by omega, h₂, h₃⟩⟩
          refine lt_of_le_of_ne h₁ fun heq => hk ⟨heq.symm, ?_⟩
          rw [h₃, ← heq]
        simp only [this]
    have hs' : Shape (s.clearBit p (id / 64 ^ (l + 1) % 64)) node slot := hs.modify ⟨rfl, rfl⟩
    obtain ⟨p', paa', s', heq, hrest⟩ := ih hs' (hc.modify rfl) (hf.modify hp) hb' (by omega) hc'
      (.ary hp hstack)
    refine ⟨p', paa', s', ?_, hrest⟩
    rw [clearPath, digit, ← hchild, hc']
    exact heq

end Path

section Erase

section

variable (h : Shape s node slot)
include h

/-- A layer below another one is taken out of its slot. -/
theorem Shape.erase
    (hempty : ∀ n < 64, occupied node slot l (64 * r + n) = false)
    (hp' : node (l + 1, r / 64) = some p') :
    Shape (s.setAry p' (r % 64) none) (update node (l, r) none) slot := by
  have hl := h.lt_layers hp'
  have hold {x q} (hq : update node (l, r) none x = some q) : node x = some q :=
    (update_none_eq_some.mp hq).2
  refine ⟨h.layers_le, h.top_eq_none, fun {l' q} hl' => ?_, fun {l' q} hl' => ?_,
    fun {l' r'} hl' => ?_, fun hx hy => h.inj (hold hx) (hold hy), fun {l' q p''} hq => ?_,
    fun {id p''} hq => ?_, fun {id} hid => ?_, h.unused⟩
  · rw [update_of_ne fun hx => by cases hx; exact absurd hl' hl.ne]
    exact h.root hl'
  · have hl' : s.layers ≤ l' := hl'
    rw [update_of_ne fun hx => by cases hx; omega]
    exact h.above hl'
  · -- the slot that is cleared, the slots of the layer that goes, and all others
    rcases eq_or_ne (l', r') (l, r) with heq | hne
    · cases heq
      rw [update_self, update_of_ne (by simp), hp', bind_some, Idr.setAry, modify_mem_self]
      dsimp only
      rw [update_self]
    rw [update_of_ne hne]
    rcases eq_or_ne (l' + 1, r' / 64) (l, r) with heq | hne'
    · obtain ⟨rfl, rfl⟩ := Prod.mk.inj heq
      have := hempty (r' % 64) (mod_lt _ (by omega))
      rw [div_add_mod, occupied, isSome_eq_false_iff, isNone_iff_eq_none] at this
      rw [this, update_self]
      rfl
    · rw [update_of_ne hne', h.child hl']
      refine bind_congr fun q hq => ?_
      rcases eq_or_ne q p' with rfl | hqp
      · obtain ⟨hl₁, hr₁⟩ := Prod.mk.inj (h.inj hq hp')
        have : r' % 64 ≠ r % 64 := fun hmod => hne (Prod.ext (by omega) (by dsimp only; omega))
        rw [Idr.setAry, modify_mem_self]
        dsimp only
        rw [update_of_ne this]
      · rw [Idr.setAry, modify_mem_of_ne hqp]
  · exact (modify_field Layer.layer rfl).trans (h.layer (hold hq))
  · rw [Idr.setAry, modify_mem_of_ne]
    · exact h.leaf (hold hq)
    · rintro rfl
      cases h.inj (hold hq) hp'
  · rcases eq_or_ne (0, id / 64) (l, r) with heq | hne
    · obtain ⟨rfl, rfl⟩ := Prod.mk.inj heq
      have := hempty (id % 64) (mod_lt _ (by omega))
      rw [div_add_mod] at this
      exact h.unused this
    · rw [update_of_ne hne] at hid
      exact h.absent hid

theorem Shape.erase_top (hl : l + 1 = s.layers)
    (hempty : ∀ n < 64, occupied node slot l (64 * 0 + n) = false) :
    Shape { s with top := none, layers := 0 } (fun _ => none) slot := by
  have hslot : ∀ id, slot id = .empty := by
    intro id
    rcases lt_or_ge id (64 ^ s.layers) with hid | hid
    · refine h.empty_of_occupied (l := l) (by omega) ?_
      have := hempty (id / 64 ^ l) ?_
      · simpa using this
      · rw [← hl] at hid
        exact Nat.div_lt_of_lt_mul hid
    · exact h.absent_beyond hid
  exact ⟨by simp, by simp, by simp, by simp, by simp, by simp, by simp, by simp, fun _ => hslot _,
    fun _ => hslot _⟩

theorem Shape.read_stack {link : Link} (hp : node (l, id / 64 ^ (l + 1)) = some p)
    (hstack : Stack node id s.layers l (link :: paa)) :
    s.read link = some p := by
  cases hstack with
  | top hl =>
    rw [h.root hl] at hp
    split at hp
    · exact hp
    · cases hp
  | ary hp' _ =>
    rw [h.child (h.lt_layers hp'), ← div_pow_succ, hp'] at hp
    exact hp

end

theorem Stack.update_below {v : Option ℕ} (h : Stack node id L k paa) (hl : l < k) :
    Stack (update node (l, r) v) id L k paa := by
  induction h with
  | top hk => exact .top hk
  | ary hp _ ih =>
    refine .ary ?_ (ih (by omega))
    rwa [update_of_ne fun hx => absurd (Prod.mk.inj hx).1 (by omega)]

theorem freeLayers_spec (id : ℕ) (hs : Shape s node slot)
    (hc : Counts s node fun x => occ node slot x + if x = (l, id / 64 ^ (l + 1)) then 1 else 0)
    (hf : Free s node) (hb : Bits s node F) (hp : (node (l, id / 64 ^ (l + 1))).isSome)
    (hstack : Stack node id s.layers l paa) :
    ∃ s' node', freeLayers paa s = some s' ∧ Shape s' node' slot ∧
      Counts s' node' (fun x => occ node' slot x) ∧ Free s' node' ∧ Bits s' node' F := by
  induction paa generalizing s node l with
  | nil => cases hstack
  | cons link paa ih =>
    obtain ⟨p, hp⟩ := isSome_iff_exists.mp hp
    have hs₁ : Shape (s.addCount p (-1)) node slot := hs.modify ⟨rfl, rfl⟩
    have hc₁ : Counts (s.addCount p (-1)) node fun x => occ node slot x := by
      refine (hc.addCount hs hp).congr (fun x p hp => ⟨hp, rfl⟩) fun x _ => ?_
      by_cases hx : x = (l, id / 64 ^ (l + 1))
      · rw [hx, update_self, if_pos rfl]
        omega
      · rw [update_of_ne hx, if_neg hx]
        omega
    have hf₁ : Free (s.addCount p (-1)) node := hf.modify hp
    have hb₁ : Bits (s.addCount p (-1)) node F := hb.modify rfl
    have hcount := hc₁ _ _ hp
    rw [freeLayers, hs.read_stack hp hstack, bind_some]
    dsimp only
    split_ifs with hzero
    · rw [hcount, Int.natCast_eq_zero, occ_eq_zero] at hzero
      cases hstack with
      | top hl =>
        have hq : id / 64 ^ (l + 1) = 0 := by
          rw [hs.root hl] at hp
          by_contra hne
          rw [if_neg hne] at hp
          cases hp
        rw [hq] at hzero
        exact ⟨_, _, rfl, hs₁.erase_top hl hzero, nofun, ⟨hf₁.nodup, hf₁.zero, nofun⟩, nofun⟩
      | @ary _ p' _ hp' hstack =>
        have hp'' : node (l + 1, id / 64 ^ (l + 1) / 64) = some p' := by rwa [← div_pow_succ]
        have hsub {x q} (hq : update node (l, id / 64 ^ (l + 1)) none x = some q) :
            node x = some q := (update_none_eq_some.mp hq).2
        let s₂ := (s.addCount p (-1)).setAry p' (id / 64 ^ (l + 1) % 64) none
        have hc₂ : Counts s₂ node _ := hc₁.modify rfl
        have hb₂ : Bits s₂ node F := hb₁.modify rfl
        refine ih (hs₁.erase hzero hp'') ?_ ?_ ?_ ?_ (hstack.update_below (lt_succ_self l))
        · refine hc₂.congr (fun x q hq => ⟨hsub hq, rfl⟩) fun x _ => ?_
          rw [occ_erase hp, ← div_pow_succ]
          split_ifs <;> omega
        · exact (hf₁.modify hp'').congr (Sublist.refl _) (fun _ _ => ⟨rfl, rfl, rfl⟩)
            fun x q hq _ => ⟨x, hsub hq⟩
        · exact hb₂.congr (fun x q hq => ⟨hsub hq, rfl⟩) fun _ _ _ => Iff.rfl
        · rw [update_of_ne (by simp), hp']
          rfl
    · exact ⟨_, node, rfl, hs₁, hc₁, hf₁, hb₁⟩

end Erase

section SubRemove

theorem Shape.isSome_of_used (h : Shape s node slot) (hid : (slot id).used = true) :
    (node (0, id / 64)).isSome := by
  by_contra hnone
  rw [not_isSome_iff_eq_none] at hnone
  rw [h.absent hnone] at hid
  cases hid

theorem occ_unuse (h : (slot id).used = true) : occ node slot x =
    occ node (update slot id .empty) x + if x = (0, id / 64) then 1 else 0 := by
  have hempty : (update slot id .empty id).used = false := by rw [update_self]; rfl
  have heq : update (update slot id .empty) id (slot id) = slot := by
    rw [update_idem, update_eq_self]
  conv_lhs => rw [← heq, occ_use hempty h]
  split_ifs <;> rfl

/-- The way down to the leaf of an id that is in use, where the bit of the id is cleared as well. -/
theorem clearPath_leaf (hs : Shape s node slot) (hc : Counts s node c) (hf : Free s node)
    (hb : Bits s node F) (hid : (slot id).used = true) :
    ∃ p paa s', clearPath id (s.layers - 1) s.top [.top] s = (some p, paa, s') ∧
      node (0, id / 64) = some p ∧ Stack node id s'.layers 0 paa ∧
      ((s'.mem p).bitmap.getLsbD (id % 64) = true ↔ F 0 id) ∧
      Shape (s'.clearBit p (id % 64)) node slot ∧ Counts (s'.clearBit p (id % 64)) node c ∧
      Free (s'.clearBit p (id % 64)) node ∧
      Bits (s'.clearBit p (id % 64)) node fun k r => r ≠ id / 64 ^ k ∧ F k r := by
  have hleaf := hs.isSome_of_used hid
  obtain ⟨t, ht⟩ := isSome_iff_exists.mp hleaf
  obtain ⟨k, hk⟩ : ∃ k, s.layers = k + 1 := ⟨s.layers - 1, by have := hs.lt_layers ht; omega⟩
  obtain ⟨p, hp⟩ := hs.exists_above (show node (0, id / 64 ^ 1) = some t from ht)
    (zero_le k) (by omega)
  have htop : s.top = some p := hs.read_stack hp (.top hk.symm)
  have hb₀ : Bits s node (cleared F id (k + 1) (k + 1)) :=
    hb.congr (fun x p hp => ⟨hp, rfl⟩) fun l r _ => by rw [cleared, if_neg (by omega)]
  obtain ⟨p', paa, s₁, heq, hp', hstack, -, hlayers, hs₁, hc₁, hf₁, hb₁⟩ :=
    clearPath_spec hs hc hf hb₀ (lt_succ_self k) hp hleaf (.top rfl)
  rw [hk] at hlayers
  refine ⟨p', paa, s₁, ?_, hp', hlayers ▸ hstack, ?_, hs₁.modify ⟨rfl, rfl⟩, hc₁.modify rfl,
    hf₁.modify hp', (hb₁.clearBit hs₁ hp').congr (fun x p hp => ⟨hp, rfl⟩) fun l r hl => ?_⟩
  · rw [hk, Nat.add_sub_cancel, htop, heq]
  · rw [hb₁ 0 id p' hp', cleared, if_neg (by omega)]
  · obtain ⟨q, hq⟩ := isSome_iff_exists.mp hl
    have hlt := hs₁.lt_layers hq
    rw [hlayers] at hlt
    rw [cleared]
    by_cases hr : r = id / 64 ^ l
    · rcases Nat.eq_zero_or_pos l with rfl | hpos
      · simp
      · simp [hpos.ne', hlt, one_le_iff_ne_zero]
    · have : ¬ (l = 0 ∧ r = id) := by
        rintro ⟨rfl, rfl⟩
        simp at hr
      simp [hr, this]

theorem subRemove_spec (hs : Shape s node slot) (hc : Counts s node fun x => occ node slot x)
    (hf : Free s node) (hb : Bits s node F) (hid : (slot id).used = true) (hF : F 0 id) :
    ∃ s' node', subRemove s (s.layers - 1) id = some s' ∧
      Shape s' node' (update slot id .empty) ∧
      Counts s' node' (fun x => occ node' (update slot id .empty) x) ∧ Free s' node' ∧
      Bits s' node' fun k r => r ≠ id / 64 ^ k ∧ F k r := by
  obtain ⟨p, paa, s₁, heq, hp, hstack, hbit, hs₁, hc₁, hf₁, hb₁⟩ := clearPath_leaf hs hc hf hb hid
  rw [subRemove, heq]
  dsimp only
  rw [and_mask, if_pos (hbit.mpr hF)]
  refine freeLayers_spec id (hs₁.setAry hp fun _ => rfl) ?_ (hf₁.modify hp)
    (hb₁.modify rfl) ?_ hstack
  · refine (hc₁.modify rfl).congr (fun x p hp => ⟨hp, rfl⟩) fun x _ => ?_
    rw [occ_unuse hid, pow_one]
    split_ifs <;> rfl
  · exact hs.isSome_of_used hid

end SubRemove

section Shrink

/-- A top with one slot in use, the first one, leaves the tree. -/
theorem Tree.shrink (h : Tree s node slot) : ∃ node', Tree (shrink s) node' slot := by
  rw [Idr.shrink]
  rcases htop : s.top with _ | p
  · exact ⟨node, h⟩
  dsimp only
  split_ifs with hcond
  · obtain ⟨hcount, hlayers, hary⟩ := hcond
    obtain ⟨k, hk⟩ : ∃ k, s.layers = k + 2 := ⟨s.layers - 2, by omega⟩
    have hroot : node (k + 1, 0) = some p := ((h.shape.root hk.symm).trans (if_pos rfl)).trans htop
    obtain ⟨c, hc⟩ := isSome_iff_exists.mp hary
    have hchild {r} : node (k, r) = (node (k + 1, r / 64)).bind fun p => (s.mem p).ary (r % 64) :=
      h.shape.child (by omega)
    have hfirst : node (k, 0) = some c := by
      rw [hchild, Nat.zero_div, hroot]
      exact hc
    refine ⟨update node (k + 1, 0) none, h.dropTop hk htop hfirst (fun r hr => ?_) hc ?_ ?_ ?_⟩
    · have hone : occ node slot (k + 1, 0) = 1 := by
        have : (s.mem p).count = (occ node slot (k + 1, 0) : ℤ) := h.counts _ _ hroot
        rw [hcount] at this
        exact_mod_cast this.symm
      rcases hq : node (k + 1, r / 64) with _ | q
      · rw [hchild, hq]
        rfl
      · rw [h.shape.root hk.symm] at hq
        split at hq
        · rename_i hq0
          by_contra hsome
          refine hr (Word.tally_eq_one (w := 64) (n := 0) (k := r) (by omega) ?_
            hone (by omega) ?_)
          · simp [occupied, hfirst]
          · simpa [occupied, isSome_iff_ne_none] using hsome
        · cases hq
    · simp [hk]
    · exact fun p' hne => modify_mem_of_ne hne
    · have hf : Free (s.modify p fun y => { y with bitmap := 0, count := 0 }) node :=
        h.free.modify hroot
      refine hf.congr (Sublist.refl _) (fun _ _ => ⟨rfl, rfl, rfl⟩) fun x q hq _ => ⟨x, ?_⟩
      exact (update_none_eq_some.mp hq).2
  · exact ⟨node, h⟩

theorem trimFreeList_sublist (free : List ℕ) : (trimFreeList free).Sublist free := by
  induction free with
  | nil => exact Sublist.refl _
  | cons p rest ih =>
    rw [trimFreeList]
    split_ifs
    · exact ih.cons p
    · exact Sublist.refl _

theorem Tree.sublist {free : List ℕ} (h : Tree s node slot) (hfree : free.Sublist s.idFree) :
    Tree { s with idFree := free } node slot :=
  ⟨h.shape.congr rfl rfl fun _ _ _ => ⟨rfl, rfl⟩, h.bits, h.counts,
    h.free.congr hfree (fun _ _ => ⟨rfl, rfl, rfl⟩) fun x _ hx _ => ⟨x, hx⟩⟩

theorem Tree.removed (h : Tree s' node slot) (heq : subRemove s (s.layers - 1) id = some s')
    (hlt : id < 2 ^ 31) : ∃ s'' node', idrRemove s id = some s'' ∧ Tree s'' node' slot := by
  obtain ⟨node', ht⟩ := h.shrink
  refine ⟨_, node', ?_, ht.sublist (trimFreeList_sublist _)⟩
  rw [idrRemove, and_two_pow_sub_one_eq_mod, mod_eq_of_lt hlt, heq]
  rfl

theorem idrRemove_spec (hs : Shape s node slot) (hc : Counts s node fun x => occ node slot x)
    (hf : Free s node) (hb : Bits s node F) (hid : (slot id).used = true) (hF : F 0 id)
    (hfull : ∀ k r, (r ≠ id / 64 ^ k ∧ F k r) ↔ FullBlock (update slot id .empty) k r)
    (hlt : id < 2 ^ 31) :
    ∃ s' node', idrRemove s id = some s' ∧ Tree s' node' (update slot id .empty) := by
  obtain ⟨s₁, node₁, heq, hs₁, hc₁, hf₁, hb₁⟩ := subRemove_spec hs hc hf hb hid hF
  have ht₁ : Tree s₁ node₁ (update slot id .empty) :=
    ⟨hs₁, hb₁.congr (fun x p hp => ⟨hp, rfl⟩) fun k r _ => (hfull k r).symm, hc₁, hf₁⟩
  exact ht₁.removed heq hlt

theorem fullBlock_erase (hv : v.full = false) : FullBlock (update slot id v) k r ↔
    r ≠ id / 64 ^ k ∧ FullBlock slot k r := by
  have hfull : (fun x => (update slot id v x).full = true) =
      fun x => x ≠ id ∧ (slot x).full = true := by
    funext x
    rcases eq_or_ne x id with rfl | hne
    · simp [hv]
    · simp [hne]
  rw [FullBlock, FullBlock, hfull, full_erase]

theorem Tree.remove (h : Tree s node slot) (hid : (slot id).full = true) (hlt : id < 2 ^ 31) :
    ∃ s' node', idrRemove s id = some s' ∧ Tree s' node' (update slot id .empty) := by
  refine idrRemove_spec h.shape h.counts h.free h.bits ?_ ?_
    (fun k r => (fullBlock_erase rfl).symm) hlt
  · by_contra hused
    rw [h.shape.unused (by simpa using hused)] at hid
    cases hid
  · simpa [FullBlock] using hid

end Shrink

end LinuxKernel.Idr
