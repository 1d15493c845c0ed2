import LinuxKernel.Base.Radix
import LinuxKernel.Idr.Model

/-! # Radix trees of layers

What the layers in memory say about the ids. A layer of level `l` with the prefix `q` has the ids
that `64 ^ (l + 1)` divides with the quotient `q`, and each of its slots the ids of a block of level
`l`. The invariant has four parts: the pointers, the counts of the slots in use, the bits of the
full blocks, and the list of free layers. The last three are relative to what they should be, so
that they also describe the states in the middle of an operation.
-/

namespace LinuxKernel.Idr

open Function Radix Nat List Option

/-- What the tree knows about an id: no space is left in it, it counts in its layer, and its
pointer. -/
structure Slot where
  full : Bool
  used : Bool
  ptr : Option ℕ

def Slot.empty : Slot := ⟨false, false, none⟩

variable {s s' : Idr} {node node' : ℕ × ℕ → Option ℕ} {slot slot' : ℕ → Slot}
  {l l' q r r' p p' id i new n : ℕ} {x y : ℕ × ℕ} {F F' : ℕ → ℕ → Prop} {c c' : ℕ × ℕ → ℤ}
  {f : Layer → Layer}

section Modify

@[simp] theorem modify_mem_self : (s.modify p f).mem p = f (s.mem p) := update_self ..

theorem modify_mem_of_ne (h : p' ≠ p) : (s.modify p f).mem p' = s.mem p' := update_of_ne h ..

theorem modify_field {β : Type*} (g : Layer → β) (hf : g (f (s.mem p)) = g (s.mem p)) :
    g ((s.modify p f).mem p') = g (s.mem p') := by
  rcases eq_or_ne p' p with rfl | hne
  · rw [modify_mem_self, hf]
  · rw [modify_mem_of_ne hne]

@[simp] theorem modify_layers : (s.modify p f).layers = s.layers := rfl

@[simp] theorem modify_idFree : (s.modify p f).idFree = s.idFree := rfl

end Modify

section Shape

def FullBlock (slot : ℕ → Slot) (l r : ℕ) : Prop := Full (fun id => (slot id).full = true) 64 l r

theorem not_fullBlock_of_first (h : slot (r * 64 ^ l) = .empty) : ¬ FullBlock slot l r := by
  intro hfull
  have : (slot (r * 64 ^ l)).full = true := hfull _ (Nat.mul_div_cancel _ (Nat.pow_pos (by omega)))
  rw [h] at this
  cases this

/-- A slot of a layer is occupied by a layer below it, or by an id that is in use. -/
def occupied (node : ℕ × ℕ → Option ℕ) (slot : ℕ → Slot) : ℕ → ℕ → Bool
  | 0, r => (slot r).used
  | l + 1, r => (node (l, r)).isSome

/-- The pointers lay out a tree, with the layer `node (l, q)` at the level `l` and the prefix
`q`. -/
structure Shape (s : Idr) (node : ℕ × ℕ → Option ℕ) (slot : ℕ → Slot) : Prop where
  layers_le : s.layers ≤ 5
  top_eq_none : s.top = none ↔ s.layers = 0
  root {l q : ℕ} : l + 1 = s.layers → node (l, q) = if q = 0 then s.top else none
  above {l q : ℕ} : s.layers ≤ l → node (l, q) = none
  child {l r : ℕ} : l + 1 < s.layers →
    node (l, r) = (node (l + 1, r / 64)).bind fun p => (s.mem p).ary (r % 64)
  inj {x y : ℕ × ℕ} {p : ℕ} : node x = some p → node y = some p → x = y
  layer {l q p : ℕ} : node (l, q) = some p → (s.mem p).layer = l
  leaf {id p : ℕ} : node (0, id / 64) = some p → (s.mem p).ary (id % 64) = (slot id).ptr
  absent {id : ℕ} : node (0, id / 64) = none → slot id = .empty
  unused {id : ℕ} : (slot id).used = false → slot id = .empty

namespace Shape

section

variable (h : Shape s node slot)
include h

theorem congr (htop : s'.top = s.top) (hlayers : s'.layers = s.layers)
    (hmem : ∀ x p, node x = some p →
      (s'.mem p).ary = (s.mem p).ary ∧ (s'.mem p).layer = (s.mem p).layer) :
    Shape s' node slot where
  layers_le := hlayers ▸ h.layers_le
  top_eq_none := by rw [htop, hlayers, h.top_eq_none]
  root := by
    rw [htop, hlayers]
    exact h.root
  above := by
    rw [hlayers]
    exact h.above
  child := by
    intro l r hl
    rw [hlayers] at hl
    rw [h.child hl]
    exact bind_congr fun p hp => by rw [(hmem _ p hp).1]
  inj := h.inj
  layer := fun hp => (hmem _ _ hp).2 ▸ h.layer hp
  leaf := fun hp => (hmem _ _ hp).1 ▸ h.leaf hp
  absent := h.absent
  unused := h.unused

theorem modify
    (hf : (f (s.mem p)).ary = (s.mem p).ary ∧ (f (s.mem p)).layer = (s.mem p).layer) :
    Shape (s.modify p f) node slot :=
  h.congr rfl rfl fun _ _ _ => ⟨modify_field Layer.ary hf.1, modify_field Layer.layer hf.2⟩

theorem lt_layers (hp : node (l, q) = some p) : l < s.layers := by
  by_contra hl
  rw [h.above (not_lt.mp hl)] at hp
  cases hp

theorem exists_parent (hp : node (l, r) = some p) (hl : l + 1 < s.layers) :
    ∃ p', node (l + 1, r / 64) = some p' ∧ (s.mem p').ary (r % 64) = some p := by
  rw [h.child hl] at hp
  exact bind_eq_some_iff.mp hp

theorem exists_above (hp : node (l, id / 64 ^ (l + 1)) = some p) (hli : l ≤ i) (hi : i < s.layers) :
    ∃ p', node (i, id / 64 ^ (i + 1)) = some p' := by
  induction i, hli using le_induction with
  | base => exact ⟨p, hp⟩
  | succ i _ ih =>
    obtain ⟨p', hp'⟩ := ih (by omega)
    obtain ⟨p'', hp'', -⟩ := h.exists_parent hp' hi
    rw [← div_pow_succ] at hp''
    exact ⟨p'', hp''⟩

theorem id_lt (hp : node (l, id / 64 ^ (l + 1)) = some p) : id < 64 ^ s.layers := by
  have hl := h.lt_layers hp
  obtain ⟨k, hk⟩ : ∃ k, s.layers = k + 1 := ⟨s.layers - 1, by omega⟩
  obtain ⟨p', hp'⟩ := h.exists_above hp (i := k) (by omega) (by omega)
  rw [h.root hk.symm] at hp'
  split at hp'
  · rename_i hq
    rw [hk]
    exact (div_eq_zero_iff_lt (Nat.pow_pos (by omega))).mp hq
  · cases hp'

theorem absent_below (hl : l < s.layers) (hp : node (l, id / 64 ^ (l + 1)) = none) :
    slot id = .empty := by
  induction l with
  | zero => exact h.absent hp
  | succ l ih =>
    refine ih (by omega) ?_
    rw [h.child hl, ← div_pow_succ, hp]
    rfl

theorem absent_beyond (hid : 64 ^ s.layers ≤ id) : slot id = .empty := by
  rcases Nat.eq_zero_or_pos s.layers with hl | hl
  · exact h.absent (h.above (by omega))
  · refine h.absent_below (l := s.layers - 1) (by omega) ?_
    rw [h.root (by omega), if_neg]
    rw [Nat.sub_add_cancel hl]
    exact (div_pos hid (Nat.pow_pos (by omega))).ne'

variable (hl : l < s.layers)
include hl

theorem not_fullBlock (hp : node (l, r / 64) = none) : ¬ FullBlock slot l r := by
  refine not_fullBlock_of_first (h.absent_below hl ?_)
  rwa [div_pow_succ, Nat.mul_div_cancel _ (Nat.pow_pos (by omega))]

theorem occupied_eq_false (hp : node (l, r / 64) = none) : occupied node slot l r = false := by
  cases l with
  | zero =>
    rw [occupied, h.absent hp]
    rfl
  | succ l =>
    rw [occupied, h.child hl, hp]
    rfl

theorem empty_of_occupied (hid : occupied node slot l (id / 64 ^ l) = false) :
    slot id = .empty := by
  cases l with
  | zero => exact h.unused (by simpa [occupied] using hid)
  | succ l => exact h.absent_below (l := l) (by omega) (by simpa [occupied] using hid)

end

end Shape

end Shape

section Bits

/-- The bits of the layers are those of the blocks with the property `F`. -/
def Bits (s : Idr) (node : ℕ × ℕ → Option ℕ) (F : ℕ → ℕ → Prop) : Prop :=
  ∀ l r p, node (l, r / 64) = some p → ((s.mem p).bitmap.getLsbD (r % 64) = true ↔ F l r)

namespace Bits

section

variable (h : Bits s node F)
include h

theorem congr
    (hmem : ∀ x p, node' x = some p → node x = some p ∧ (s'.mem p).bitmap = (s.mem p).bitmap)
    (hF : ∀ l r, (node' (l, r / 64)).isSome → (F' l r ↔ F l r)) : Bits s' node' F' := by
  intro l r p hp
  obtain ⟨hp', hbitmap⟩ := hmem _ p hp
  rw [hbitmap, h l r p hp', hF l r (by rw [hp]; rfl)]

theorem modify (hf : (f (s.mem p)).bitmap = (s.mem p).bitmap) : Bits (s.modify p f) node F :=
  h.congr (fun _ _ hp => ⟨hp, modify_field Layer.bitmap hf⟩) fun _ _ _ => Iff.rfl

variable (hs : Shape s node slot) (hp : node (l, r / 64) = some p)
include hs hp

theorem write {b : Prop}
    (hf : ∀ n < 64, (f (s.mem p)).bitmap.getLsbD n = true ↔
      if n = r % 64 then b else (s.mem p).bitmap.getLsbD n = true) :
    Bits (s.modify p f) node fun l' r' => if l' = l ∧ r' = r then b else F l' r' := by
  intro l' r' p' hp'
  rcases eq_or_ne p' p with rfl | hne
  · obtain ⟨rfl, hq⟩ := Prod.mk.inj (hs.inj hp hp')
    rw [modify_mem_self, hf _ (mod_lt _ (by omega)), h _ r' _ hp']
    have : r' % 64 = r % 64 ↔ l = l ∧ r' = r := by omega
    simp only [this]
  · have : ¬ (l' = l ∧ r' = r) := by
      rintro ⟨rfl, rfl⟩
      exact hne (some.inj (hp'.symm.trans hp))
    rw [modify_mem_of_ne hne, h _ _ _ hp']
    simp only [this, if_false]

theorem setBit :
    Bits (s.setBit p (r % 64)) node fun l' r' => if l' = l ∧ r' = r then True else F l' r' :=
  h.write hs hp fun n hn => by
    rw [Word.getLsbD_set _ hn]
    by_cases hnr : n = r % 64 <;> simp [hnr]

theorem clearBit :
    Bits (s.clearBit p (r % 64)) node fun l' r' => if l' = l ∧ r' = r then False else F l' r' :=
  h.write hs hp fun n hn => by
    rw [Word.getLsbD_clear _ hn]
    by_cases hnr : n = r % 64 <;> simp

end

theorem allOnes_iff (h : Bits s node F) (hp : node (l, q) = some p) :
    (s.mem p).bitmap = .allOnes 64 ↔ ∀ n < 64, F l (64 * q + n) := by
  rw [Word.eq_allOnes_iff]
  refine forall₂_congr fun n hn => ?_
  have hq : (64 * q + n) / 64 = q := by omega
  have := h l (64 * q + n) p (by rwa [hq])
  rwa [mul_add_mod, mod_eq_of_lt hn] at this

theorem eq_allOnes_iff (h : Bits s node (FullBlock slot)) (hp : node (l, q) = some p) :
    (s.mem p).bitmap = .allOnes 64 ↔ FullBlock slot (l + 1) q :=
  (h.allOnes_iff hp).trans (full_succ (by omega)).symm

end Bits

end Bits

section Counts

def Counts (s : Idr) (node : ℕ × ℕ → Option ℕ) (c : ℕ × ℕ → ℤ) : Prop :=
  ∀ x p, node x = some p → (s.mem p).count = c x

def occ (node : ℕ × ℕ → Option ℕ) (slot : ℕ → Slot) (x : ℕ × ℕ) : ℕ :=
  Word.tally 64 fun n => occupied node slot x.1 (64 * x.2 + n)

theorem occ_congr (h : ∀ n < 64,
    occupied node' slot' l (64 * q + n) = occupied node slot l (64 * q + n)) :
    occ node' slot' (l, q) = occ node slot (l, q) :=
  Word.tally_congr h

theorem occ_eq_zero :
    occ node slot (l, q) = 0 ↔ ∀ n < 64, occupied node slot l (64 * q + n) = false :=
  Word.tally_eq_zero

theorem occ_add_one (h₀ : occupied node slot l r = false) (h₁ : occupied node' slot' l r = true)
    (h : ∀ r', r' ≠ r → occupied node' slot' l r' = occupied node slot l r') :
    occ node' slot' (l, r / 64) = occ node slot (l, r / 64) + 1 := by
  refine Word.tally_add_one (n := r % 64) (mod_lt _ (by omega)) ?_ ?_ fun n hn hne => ?_
  · rwa [div_add_mod]
  · rwa [div_add_mod]
  · exact h _ (by dsimp only; omega)

theorem occupied_update (v : Option ℕ) : occupied (update node (l, r) v) slot l' r' =
    if l' = l + 1 ∧ r' = r then v.isSome else occupied node slot l' r' := by
  cases l' with
  | zero => simp [occupied]
  | succ l' =>
    rw [occupied, update_apply]
    simp only [Prod.mk.injEq, add_right_cancel_iff]
    split <;> rfl

theorem occ_insert (h : node (l, r) = none) : occ (update node (l, r) (some new)) slot x =
    if x = (l + 1, r / 64) then occ node slot x + 1 else occ node slot x := by
  split_ifs with hx
  · subst hx
    refine occ_add_one ?_ ?_ fun r' hr' => ?_
    · rw [occupied, h]
      rfl
    · rw [occupied_update, if_pos ⟨rfl, rfl⟩]
      rfl
    · rw [occupied_update, if_neg fun hrr => hr' hrr.2]
  · refine occ_congr fun n hn => ?_
    rw [occupied_update, if_neg]
    rintro ⟨hl, hr⟩
    refine hx (Prod.ext hl ?_)
    omega

theorem occ_erase (h : node (l, r) = some p) : occ node slot x =
    if x = (l + 1, r / 64) then occ (update node (l, r) none) slot x + 1
    else occ (update node (l, r) none) slot x := by
  have heq : update (update node (l, r) none) (l, r) (some p) = node := by
    rw [update_idem, ← h, update_eq_self]
  have hnone : update node (l, r) none (l, r) = none := update_self ..
  rw [← occ_insert hnone, heq]

namespace Counts

variable (h : Counts s node c)
include h

theorem congr
    (hmem : ∀ x p, node' x = some p → node x = some p ∧ (s'.mem p).count = (s.mem p).count)
    (hc : ∀ x, (node' x).isSome → c' x = c x) : Counts s' node' c' := by
  intro x p hp
  obtain ⟨hp', hcount⟩ := hmem x p hp
  rw [hcount, h x p hp', hc x (by rw [hp]; rfl)]

theorem modify (hf : (f (s.mem p)).count = (s.mem p).count) : Counts (s.modify p f) node c :=
  h.congr (fun _ _ hp => ⟨hp, modify_field Layer.count hf⟩) fun _ _ => rfl

theorem addCount {d : ℤ} (hs : Shape s node slot) (hp : node x = some p) :
    Counts (s.addCount p d) node (update c x (c x + d)) := by
  intro y p' hp'
  rcases eq_or_ne p' p with rfl | hne
  · obtain rfl := hs.inj hp hp'
    rw [Idr.addCount, modify_mem_self, update_self, h x p' hp']
  · have hxy : y ≠ x := fun hxy => hne (some.inj (hp'.symm.trans (hxy ▸ hp)))
    rw [Idr.addCount, modify_mem_of_ne hne, update_of_ne hxy, h y p' hp']

end Counts

end Counts

section Free

/-- The layers of the free list are zeroed and not in the tree. -/
structure Free (s : Idr) (node : ℕ × ℕ → Option ℕ) : Prop where
  nodup : s.idFree.Nodup
  zero {p : ℕ} : p ∈ s.idFree →
    (s.mem p).bitmap = 0 ∧ (∀ n < 64, (s.mem p).ary n = none) ∧ (s.mem p).count = 0
  apart {p : ℕ} {x : ℕ × ℕ} : p ∈ s.idFree → node x ≠ some p

namespace Free

theorem congr (h : Free s node) (hfree : s'.idFree.Sublist s.idFree)
    (hmem : ∀ p ∈ s'.idFree, (s'.mem p).bitmap = (s.mem p).bitmap ∧
      (s'.mem p).ary = (s.mem p).ary ∧ (s'.mem p).count = (s.mem p).count)
    (hnode : ∀ x p, node' x = some p → p ∈ s'.idFree → ∃ y, node y = some p) :
    Free s' node' where
  nodup := h.nodup.sublist hfree
  zero := by
    intro p hp
    obtain ⟨h₁, h₂, h₃⟩ := hmem p hp
    rw [h₁, h₂, h₃]
    exact h.zero (hfree.subset hp)
  apart := by
    intro p x hp hx
    obtain ⟨y, hy⟩ := hnode x p hx hp
    exact h.apart (hfree.subset hp) hy

theorem modify (h : Free s node) (hp : node x = some p) : Free (s.modify p f) node := by
  refine h.congr (Sublist.refl _) (fun p' hp' => ?_) fun x _ hx _ => ⟨x, hx⟩
  rw [modify_mem_of_ne fun hpp => h.apart hp' (hpp ▸ hp)]
  exact ⟨rfl, rfl, rfl⟩

end Free

end Free

section Fresh

structure Fresh (s : Idr) (node : ℕ × ℕ → Option ℕ) (new : ℕ) : Prop where
  bitmap : (s.mem new).bitmap = 0
  ary {n : ℕ} : n < 64 → (s.mem new).ary n = none
  count : (s.mem new).count = 0
  not_mem : new ∉ s.idFree
  apart {x : ℕ × ℕ} : node x ≠ some new

theorem Fresh.ne (h : Fresh s node new) (hp : node x = some p) : p ≠ new :=
  fun hpn => h.apart (hpn ▸ hp)

theorem Fresh.update_cases (h : Fresh s node new) (hp : update node x (some new) y = some p) :
    (y = x ∧ new = p) ∨ node y = some p ∧ p ≠ new := by
  rw [update_apply] at hp
  split_ifs at hp with hy
  · exact .inl ⟨hy, some.inj hp⟩
  · exact .inr ⟨hp, h.ne hp⟩

theorem Fresh.update_inj {z : ℕ × ℕ} (h : Fresh s node new) (hs : Shape s' node slot)
    (hy : update node x (some new) y = some p) (hz : update node x (some new) z = some p) :
    y = z := by
  rcases h.update_cases hy with ⟨rfl, rfl⟩ | ⟨hy, hne⟩ <;>
    rcases h.update_cases hz with ⟨rfl, heq⟩ | ⟨hz, hne'⟩
  · rfl
  · exact absurd rfl hne'
  · exact absurd heq.symm hne
  · exact hs.inj hy hz

theorem update_none_eq_some : update node x none y = some p ↔ y ≠ x ∧ node y = some p := by
  rw [update_apply]
  split_ifs with h <;> simp [h]

end Fresh

structure Tree (s : Idr) (node : ℕ × ℕ → Option ℕ) (slot : ℕ → Slot) : Prop where
  shape : Shape s node slot
  bits : Bits s node (FullBlock slot)
  counts : Counts s node fun x => occ node slot x
  free : Free s node

theorem getFromFreeList_nil (hfree : s.idFree = []) : getFromFreeList s = none := by
  rw [getFromFreeList, hfree]

theorem getFromFreeList_cons {rest : List ℕ} (hfree : s.idFree = new :: rest) :
    getFromFreeList s = some (new, { s with idFree := rest }) := by
  rw [getFromFreeList, hfree]

theorem Tree.take {rest : List ℕ} (h : Tree s node slot) (hfree : s.idFree = new :: rest) :
    Tree { s with idFree := rest } node slot ∧ Fresh { s with idFree := rest } node new := by
  have hmem : new ∈ s.idFree := by simp [hfree]
  have hsub : rest.Sublist s.idFree := hfree ▸ sublist_cons_self new rest
  have hnodup := h.free.nodup
  rw [hfree] at hnodup
  obtain ⟨hbitmap, hary, hcount⟩ := h.free.zero hmem
  exact ⟨⟨h.shape.congr rfl rfl fun _ _ _ => ⟨rfl, rfl⟩, h.bits, h.counts,
    h.free.congr hsub (fun _ _ => ⟨rfl, rfl, rfl⟩) fun x _ hx _ => ⟨x, hx⟩⟩,
    ⟨hbitmap, hary _, hcount, (nodup_cons.mp hnodup).1, h.free.apart hmem⟩⟩

end LinuxKernel.Idr
