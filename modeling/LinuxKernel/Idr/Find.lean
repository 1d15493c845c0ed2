import LinuxKernel.Idr.Remove

/-! # Looking up an id

`idr_find` and `idr_replace` go down from the top to the slot of an id. The layers of the tree are
those that can be reached from the top in this way.
-/

namespace LinuxKernel.Idr

open Function Radix Nat Option

variable {s : Idr} {node : ℕ × ℕ → Option ℕ} {slot : ℕ → Slot} {k l q p id : ℕ} {ptr : Option ℕ}

section Layers

/-- The layer with the prefix `q` that is `d` levels below the top. -/
def descend (s : Idr) : ℕ → ℕ → Option ℕ
  | 0, q => if q = 0 then s.top else none
  | d + 1, q => (descend s d (q / 64)).bind fun p => (s.mem p).ary (q % 64)

def layerAt (s : Idr) (l q : ℕ) : Option ℕ :=
  if l < s.layers then descend s (s.layers - 1 - l) q else none

theorem Shape.descend_eq (h : Shape s node slot) {d : ℕ} (hl : l + d + 1 = s.layers) :
    descend s d q = node (l, q) := by
  induction d generalizing l q with
  | zero => rw [descend, h.root (by omega)]
  | succ d ih => rw [descend, ih (l := l + 1) (by omega), h.child (l := l) (by omega)]

theorem Shape.layerAt_eq (h : Shape s node slot) : layerAt s l q = node (l, q) := by
  rw [layerAt]
  split_ifs with hl
  · exact h.descend_eq (by omega)
  · rw [h.above (not_lt.mp hl)]

end Layers

section Find

section

variable (h : Shape s node slot)
include h

theorem Shape.ary_eq (hp : node (k + 1, id / 64 ^ (k + 2)) = some p) :
    (s.mem p).ary (id / 64 ^ (k + 1) % 64) = node (k, id / 64 ^ (k + 1)) := by
  rw [h.child (h.lt_layers hp), ← div_pow_succ, hp, bind_some]

theorem Shape.leaf_eq (hp : node (0, id / 64 ^ 1) = some p) :
    (s.mem p).ary (id % 64) = (slot id).ptr :=
  h.leaf (by rwa [pow_one] at hp)

theorem Shape.leaf_eq_none (hk : k < s.layers) (hp : node (k, id / 64 ^ (k + 1)) = none) :
    node (0, id / 64) = none := by
  rcases ht : node (0, id / 64) with _ | t
  · rfl
  · obtain ⟨p', hp'⟩ := h.exists_above ht (zero_le _) hk
    rw [hp] at hp'
    cases hp'

theorem findLoop_spec (hk : k < s.layers) :
    findLoop s id (k + 1) (node (k, id / 64 ^ (k + 1))) = some (slot id).ptr := by
  induction k with
  | zero =>
    rcases hp : node (0, id / 64 ^ 1) with _ | p
    · rw [h.absent_below hk hp]
      rfl
    · rw [findLoop, if_neg (not_not.mpr (h.layer hp).symm), findLoop, digit, pow_zero, Nat.div_one,
        h.leaf_eq hp]
  | succ k ih =>
    rcases hp : node (k + 1, id / 64 ^ (k + 2)) with _ | p
    · rw [h.absent_below hk hp]
      rfl
    · rw [findLoop, if_neg (not_not.mpr (h.layer hp).symm), digit, h.ary_eq hp]
      exact ih (by omega)

theorem leafLoop_spec (hk : k < s.layers) :
    leafLoop s id k (node (k, id / 64 ^ (k + 1))) = node (0, id / 64) := by
  induction k with
  | zero => rw [leafLoop, pow_one]
  | succ k ih =>
    rcases hp : node (k + 1, id / 64 ^ (k + 2)) with _ | p
    · rw [leafLoop, h.leaf_eq_none hk hp]
    · rw [leafLoop, digit, h.ary_eq hp]
      exact ih (by omega)

theorem Shape.top_layer (hp : s.top = some p) :
    (s.mem p).layer + 1 = s.layers ∧ node (s.layers - 1, 0) = some p := by
  have hpos : s.layers ≠ 0 := by
    intro hl
    rw [h.top_eq_none.mpr hl] at hp
    cases hp
  have hroot : node (s.layers - 1, 0) = some p := ((h.root (by omega)).trans (if_pos rfl)).trans hp
  exact ⟨by rw [h.layer hroot]; omega, hroot⟩

theorem Shape.root_of_lt (hp : s.top = some p) (hid : id < 64 ^ s.layers) :
    ∃ k, s.layers = k + 1 ∧ (s.mem p).layer = k ∧ node (k, id / 64 ^ (k + 1)) = some p := by
  obtain ⟨hlayer, hroot⟩ := h.top_layer hp
  refine ⟨_, hlayer.symm, rfl, ?_⟩
  rw [hlayer, div_eq_of_lt hid, ← hroot, ← hlayer, Nat.add_sub_cancel]

theorem idrFind_spec (hid : id < 2 ^ 31) : idrFind s id = some (slot id).ptr := by
  rw [idrFind]
  rcases hp : s.top with _ | p
  · have hl := h.top_eq_none.mp hp
    rw [h.absent (h.above (by omega))]
    rfl
  dsimp only
  rw [and_two_pow_sub_one_eq_mod, mod_eq_of_lt hid, one_shiftLeft_mul, (h.top_layer hp).1]
  split_ifs with hlt
  · rw [h.absent_beyond hlt]
    rfl
  · obtain ⟨k, hk, -, hroot⟩ := h.root_of_lt hp (not_le.mp hlt)
    rw [hk, ← hroot]
    exact findLoop_spec h (by omega)

end

/-- Replacing the pointer of an id. The one that it had is the result. -/
theorem Tree.replace (ptr : Option ℕ) (h : Tree s node slot) (hid : (slot id).full = true)
    (hlt : id < 2 ^ 31) :
    ∃ s', idrReplace s ptr id = (.ok (slot id).ptr, s') ∧
      Tree s' node (update slot id { slot id with ptr := ptr }) := by
  have hs := h.shape
  have hused : (slot id).used = true := by
    by_contra hused
    rw [hs.unused (by simpa using hused)] at hid
    cases hid
  obtain ⟨t, ht⟩ := isSome_iff_exists.mp (hs.isSome_of_used hused)
  have hidlt : id < 64 ^ s.layers := hs.id_lt ht
  have hpos := hs.lt_layers ht
  obtain ⟨p, hp⟩ : ∃ p, s.top = some p := by
    rw [← ne_none_iff_exists', Ne, hs.top_eq_none]
    omega
  obtain ⟨k, hk, hlayer, hroot⟩ := hs.root_of_lt hp hidlt
  have hbit : (s.mem t).bitmap.getLsbD (id % 64) = true := by
    rw [h.bits 0 id t ht]
    simpa [FullBlock] using hid
  refine ⟨s.setAry t (id % 64) ptr, ?_, ?_, ?_, ?_, h.free.modify ht⟩
  · rw [idrReplace, hp]
    dsimp only
    rw [and_two_pow_sub_one_eq_mod, mod_eq_of_lt hlt, one_shiftLeft_mul, hlayer, ← hk,
      if_neg (not_le.mpr hidlt), hk, Nat.add_sub_cancel, ← hroot, leafLoop_spec hs (by omega), ht]
    dsimp only
    rw [and_mask, if_pos hbit, hs.leaf ht]
  · exact hs.setAry (v := { slot id with ptr := ptr }) ht fun hfalse => by
      rw [hused] at hfalse
      cases hfalse
  · have hb : Bits s node (FullBlock (update slot id { slot id with ptr := ptr })) :=
      h.bits.congr (fun x p hp => ⟨hp, rfl⟩) fun l r _ => fullBlock_update rfl
    exact hb.modify rfl
  · have hc : Counts s node fun x => occ node (update slot id { slot id with ptr := ptr }) x :=
      h.counts.congr (fun x p hp => ⟨hp, rfl⟩) fun x _ => by
        rw [occ_update (v := { slot id with ptr := ptr }) rfl]
    exact hc.modify rfl

end Find

end LinuxKernel.Idr
