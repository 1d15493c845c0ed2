import Mathlib.Order.Bounds.Defs
import LinuxKernel.Base.Run
import LinuxKernel.Idr.Find

/-! # An idr is a map

The calls on an idr are compared with what they do to a map from ids to pointers. The free list may
run out at any time, since layers are put into it only when the allocator has some. Ids are given
out from the first free one on, as long as the tree has one that is free: it has `64 ^ 5` ids, and
when all of those from the wanted one on are taken, the search for a slot goes on from the beginning
of the tree.
-/

namespace LinuxKernel.Idr

open Function Radix List

section Map

/-- The pointer of each id that is allocated, which may be null. -/
abbrev Mapping := ℕ → Option (Option ℕ)

inductive Op where
  | preGet (new : List ℕ)
  | getNewAbove (ptr : Option ℕ) (startingId : ℕ) (res : Except Errno ℕ)
  | replace (ptr : Option ℕ) (id : ℕ)
  | remove (id : ℕ)

def Mapping.apply (M : Mapping) : Op → Mapping
  | .preGet _ => M
  | .getNewAbove ptr _ (.ok id) => update M id (some ptr)
  | .getNewAbove _ _ (.error _) => M
  | .replace ptr id => update M id (some ptr)
  | .remove id => update M id none

/-- Calls that the user may make. New layers are in no list and no tree. -/
def Allowed (s : Idr) (M : Mapping) : Op → Prop
  | .preGet new => new.Nodup ∧ ∀ p ∈ new, p ∉ s.idFree ∧ ∀ l q, layerAt s l q ≠ some p
  | .getNewAbove _ startingId _ => startingId < 2 ^ 30
  | .replace _ id | .remove id => id < 2 ^ 30 ∧ (M id).isSome

/-- The call returns with the result and the state. -/
def Returns (fuel : ℕ) (s : Idr) (s' : Idr) : Op → Prop
  | .preGet new => (idrPreGet new s).2 = s'
  | .getNewAbove ptr startingId res => idrGetNewAbove fuel s ptr startingId = some (res, s')
  | .replace ptr id => (idrReplace s ptr id).2 = s'
  | .remove id => idrRemove s id = some s'

/-- A call on the idr, next to its effect on the map. -/
def Step (fuel : ℕ) (c : Idr × Mapping) (op : Op) (c' : Idr × Mapping) : Prop :=
  Allowed c.1 c.2 op ∧ Returns fuel c.1 c'.1 op ∧ c'.2 = c.2.apply op

/-- An id from the wanted one on is free for each allocation. -/
def HasSpace (M : Mapping) : Op → Prop
  | .getNewAbove _ startingId _ => ∃ id, startingId ≤ id ∧ id < 2 ^ 30 ∧ M id = none
  | _ => True

/-- What the slots of the tree are for a map. -/
def Mapping.slots (M : Mapping) (id : ℕ) : Slot :=
  match M id with
  | none => .empty
  | some ptr => ⟨true, true, ptr⟩

structure Refines (fuel : ℕ) (s : Idr) (M : Mapping) : Prop where
  find {id : ℕ} : id < 2 ^ 31 → idrFind s id = some (M id).join
  getNewAbove {ptr : Option ℕ} {startingId : ℕ} :
    HasSpace M (.getNewAbove ptr startingId (.ok 0)) →
    ∃ res s', idrGetNewAbove fuel s ptr startingId = some (res, s') ∧
      (res = .error .eagain ∧ (∀ id, id < 2 ^ 31 → idrFind s' id = idrFind s id) ∨
        ∃ id, res = .ok id ∧ IsLeast {id | startingId ≤ id ∧ M id = none} id)
  replace {ptr : Option ℕ} {id : ℕ} : id < 2 ^ 31 → (M id).isSome →
    (idrReplace s ptr id).1 = .ok (M id).join
  remove {id : ℕ} : id < 2 ^ 31 → (M id).isSome → (idrRemove s id).isSome
  bit {l q p n : ℕ} : layerAt s l q = some p → n < 64 →
    ((s.mem p).bitmap.getLsbD n = true ↔ ∀ id, id / 64 ^ l = 64 * q + n → (M id).isSome)

end Map

variable {s s' : Idr} {node : ℕ × ℕ → Option ℕ} {slot : ℕ → Slot} {id fuel : ℕ} {M : Mapping}

section Slots

theorem slot_full : (M.slots id).full = (M id).isSome := by
  rw [Mapping.slots]
  cases M id <;> rfl

theorem slot_used : (M.slots id).used = (M.slots id).full := by
  rw [Mapping.slots]
  cases M id <;> rfl

theorem slot_ptr : (M.slots id).ptr = (M id).join := by
  rw [Mapping.slots]
  cases M id <;> rfl

theorem slot_update (v : Option (Option ℕ)) : Mapping.slots (update M id v) =
    update M.slots id (Mapping.slots (fun _ => v) id) := by
  funext x
  rcases eq_or_ne x id with rfl | hx
  · simp [Mapping.slots]
  · simp [Mapping.slots, update_of_ne hx]

end Slots

section PreGet

theorem Tree.give {new : ℕ} (h : Tree s node slot) (hfree : new ∉ s.idFree)
    (hnode : ∀ x, node x ≠ some new) :
    Tree (moveToFreeList { s with mem := update s.mem new .zero } new) node slot := by
  have hmem {x p} (hp : node x = some p) :
      (moveToFreeList { s with mem := update s.mem new .zero } new).mem p = s.mem p := by
    refine update_of_ne ?_ ..
    rintro rfl
    exact hnode x hp
  refine ⟨h.shape.congr rfl rfl fun x p hp => ?_, h.bits.congr (fun x p hp => ⟨hp, ?_⟩)
    fun _ _ _ => Iff.rfl, h.counts.congr (fun x p hp => ⟨hp, ?_⟩) fun _ _ => rfl, ?_, ?_, ?_⟩
  · rw [hmem hp]
    exact ⟨rfl, rfl⟩
  · rw [hmem hp]
  · rw [hmem hp]
  · exact nodup_cons.mpr ⟨hfree, h.free.nodup⟩
  · intro p hp
    dsimp only [moveToFreeList]
    rcases eq_or_ne p new with rfl | hne
    · rw [update_self]
      exact ⟨rfl, fun _ _ => rfl, rfl⟩
    · rw [update_of_ne hne]
      exact h.free.zero ((mem_cons.mp hp).resolve_left hne)
  · intro p x hp
    rcases mem_cons.mp hp with rfl | hp
    · exact hnode x
    · exact h.free.apart hp

theorem Tree.preGet {new : List ℕ} (h : Tree s node slot) (hnodup : new.Nodup)
    (hnew : ∀ p ∈ new, p ∉ s.idFree ∧ ∀ x, node x ≠ some p) :
    Tree (idrPreGet new s).2 node slot := by
  induction new generalizing s with
  | nil => exact h
  | cons p new ih =>
    rw [idrPreGet]
    split_ifs
    · obtain ⟨hp, hnodup⟩ := nodup_cons.mp hnodup
      obtain ⟨hfree, hnode⟩ := hnew p (mem_cons_self ..)
      refine ih (h.give hfree hnode) hnodup fun p' hp' => ?_
      obtain ⟨hfree', hnode'⟩ := hnew p' (mem_cons_of_mem _ hp')
      refine ⟨fun hmem => ?_, hnode'⟩
      rcases mem_cons.mp hmem with rfl | hmem
      · exact hp hp'
      · exact hfree' hmem
    · exact h

end PreGet

section Refine

theorem tree_init (mem : ℕ → Layer) : Tree (idrInit mem) (fun _ => none) fun _ => .empty where
  shape := ⟨Nat.zero_le _, iff_of_true rfl rfl, nofun, fun _ => rfl, nofun, nofun, nofun, nofun,
    fun _ => rfl, fun _ => rfl⟩
  bits := nofun
  counts := nofun
  free := ⟨nodup_nil, nofun, nofun⟩

theorem idrGetNewAbove_spec (ptr : Option ℕ) {start : ℕ} (h : Tree s node M.slots)
    (hspace : ∃ id, start ≤ id ∧ id < 2 ^ 30 ∧ M id = none) (hfuel : 2 ^ 33 ≤ fuel) :
    ∃ res s' node', idrGetNewAbove fuel s ptr start = some (res, s') ∧
      Tree s' node' (M.apply (.getNewAbove ptr start res)).slots ∧
      (res = .error .eagain ∨ ∃ id, res = .ok id ∧ IsLeast {id | start ≤ id ∧ M id = none} id) := by
  obtain ⟨x, hx, hlt, hfree⟩ := hspace
  have hex : ∃ x, start ≤ x ∧ x < 64 ^ 5 ∧ (M.slots x).full = false :=
    ⟨x, hx, hlt, by rw [slot_full, hfree]; rfl⟩
  rw [idrGetNewAbove]
  rcases idrGetNewAboveInt_spec ptr h (fun _ => slot_used) hex hfuel with
    ⟨s', node', heq, ht⟩ | ⟨id, s', node', heq, hstart, hid, hall, ht⟩
  · exact ⟨.error .eagain, s', node', by rw [heq]; rfl, ht, .inl rfl⟩
  · refine ⟨.ok id, s', node', by rw [heq]; rfl, ?_, .inr ⟨id, rfl, ⟨hstart, ?_⟩, ?_⟩⟩
    · rw [Mapping.apply, slot_update]
      exact ht
    · rw [slot_full] at hid
      simpa using hid
    · rintro y ⟨hy, hfree⟩
      by_contra hlt
      have := hall y hy (not_le.mp hlt)
      rw [slot_full, hfree] at this
      cases this

theorem Tree.step {c : Idr × Mapping} {op : Op} (h : Tree s node M.slots)
    (hstep : Step fuel (s, M) op c) (hspace : HasSpace M op) (hfuel : 2 ^ 33 ≤ fuel) :
    ∃ node', Tree c.1 node' c.2.slots := by
  obtain ⟨hallowed, hreturns, hM⟩ := hstep
  rw [hM]
  cases op with
  | preGet new =>
    obtain ⟨hnodup, hnew⟩ := hallowed
    rw [← hreturns]
    refine ⟨node, h.preGet hnodup fun p hp => ⟨(hnew p hp).1, fun x => ?_⟩⟩
    rw [← h.shape.layerAt_eq]
    exact (hnew p hp).2 _ _
  | getNewAbove ptr start res =>
    obtain ⟨res', s', node', heq, ht, -⟩ := idrGetNewAbove_spec ptr h hspace hfuel
    cases heq.symm.trans hreturns
    exact ⟨node', ht⟩
  | replace ptr id =>
    obtain ⟨s', heq, ht⟩ := h.replace ptr (by rw [slot_full]; exact hallowed.2)
      (show id < 2 ^ 31 by have := hallowed.1; omega)
    rw [← hreturns, heq, Mapping.apply, slot_update]
    obtain ⟨v, hv⟩ : ∃ v, M id = some v := Option.isSome_iff_exists.mp hallowed.2
    refine ⟨node, ?_⟩
    have : Mapping.slots M id = ⟨true, true, v⟩ := by rw [Mapping.slots, hv]
    rw [this] at ht
    exact ht
  | remove id =>
    obtain ⟨s', node', heq, ht⟩ := h.remove (by rw [slot_full]; exact hallowed.2)
      (show id < 2 ^ 31 by have := hallowed.1; omega)
    cases heq.symm.trans hreturns
    refine ⟨node', ?_⟩
    rw [Mapping.apply, slot_update]
    exact ht

theorem Tree.refines (h : Tree s node M.slots) (hfuel : 2 ^ 33 ≤ fuel) : Refines fuel s M where
  find hid := by rw [idrFind_spec h.shape hid, slot_ptr]
  getNewAbove {ptr _} hspace := by
    obtain ⟨res, s', _, heq, ht, hres⟩ := idrGetNewAbove_spec ptr h hspace hfuel
    refine ⟨res, s', heq, hres.imp_left ?_⟩
    rintro rfl
    refine ⟨rfl, fun id hid => ?_⟩
    rw [idrFind_spec ht.shape hid, idrFind_spec h.shape hid, Mapping.apply]
  replace {ptr id} hlt hid := by
    obtain ⟨s', heq, -⟩ := h.replace ptr (by rw [slot_full]; exact hid) hlt
    rw [heq, slot_ptr]
  remove hlt hid := by
    obtain ⟨s', _, heq, -⟩ := h.remove (by rw [slot_full]; exact hid) hlt
    rw [heq]
    rfl
  bit {l q p n} hp hn := by
    rw [h.shape.layerAt_eq] at hp
    have hq : (64 * q + n) / 64 = q := by omega
    have hbit := h.bits l (64 * q + n) p (by rwa [hq])
    rw [Nat.mul_add_mod, Nat.mod_eq_of_lt hn] at hbit
    rw [hbit, FullBlock, Full]
    simp only [slot_full]

end Refine

section Last

def afterNew (s : Idr) (ptr : Option ℕ) (startingId : ℕ) : Idr :=
  ((idrGetNewAbove (2 ^ 33) s ptr startingId).map Prod.snd).getD s

theorem step_afterNew {ptr : Option ℕ} {startingId : ℕ} (hstart : startingId < 2 ^ 30)
    (h : ((idrGetNewAbove (2 ^ 33) s ptr startingId).bind fun r => r.1.toOption) = some id) :
    Step (2 ^ 33) (s, M) (.getNewAbove ptr startingId (.ok id))
      (afterNew s ptr startingId, update M id (some ptr)) := by
  refine ⟨hstart, ?_, rfl⟩
  obtain ⟨⟨res, s'⟩, heq, hres⟩ := Option.bind_eq_some_iff.mp h
  rw [Returns, afterNew, heq]
  cases res with
  | ok id' => cases hres; rfl
  | error e => cases hres

def prepared : Idr := (idrPreGet (List.range 12) (idrInit fun _ => .zero)).2

theorem step_prepared (fuel : ℕ) : Step fuel (idrInit fun _ => .zero, fun _ => none)
    (.preGet (List.range 12)) (prepared, fun _ => none) :=
  ⟨⟨nodup_range, fun _ _ => ⟨not_mem_nil, fun _ _ => nofun⟩⟩, rfl, rfl⟩

def last : Idr × Mapping :=
  (afterNew prepared (some 7) (2 ^ 30 - 1), update (fun _ => none) (2 ^ 30 - 1) (some (some 7)))

theorem step_last : Step (2 ^ 33) (prepared, fun _ => none)
    (.getNewAbove (some 7) (2 ^ 30 - 1) (.ok (2 ^ 30 - 1))) last :=
  step_afterNew (by decide) (by decide +kernel)

def beyondLast : Idr × Mapping :=
  (afterNew last.1 (some 5) (2 ^ 30 - 1), update last.2 (2 ^ 30) (some (some 5)))

theorem step_beyondLast : Step (2 ^ 33) last (.getNewAbove (some 5) (2 ^ 30 - 1) (.ok (2 ^ 30)))
    beyondLast :=
  step_afterNew (by decide) (by decide +kernel)

end Last

/-- In each run whose allocations all find a free id, the idr answers as the map does. -/
theorem idr_refines_map {fuel : ℕ} (hfuel : 2 ^ 33 ≤ fuel) (mem : ℕ → Layer) {ops : List Op}
    {c : Idr × Mapping}
    (hrun : Run (fun c op c' => Step fuel c op c' ∧ HasSpace c.2 op)
      (idrInit mem, fun _ => none) ops c) : Refines fuel c.1 c.2 := by
  have hinv : ∃ node, Tree c.1 node c.2.slots :=
    Run.invariant (I := fun c : Idr × Mapping => ∃ node, Tree c.1 node c.2.slots)
      (fun hI hstep => hI.elim fun _ h => h.step hstep.1 hstep.2 hfuel) hrun ⟨_, tree_init mem⟩
  exact hinv.elim fun _ h => h.refines hfuel

theorem idr_refines_map_last :
    last.2 (2 ^ 30 - 1) = some (some 7) ∧ Refines (2 ^ 33) last.1 last.2 :=
  ⟨by decide +kernel, idr_refines_map (le_refl _) (fun _ => .zero)
    (.cons ⟨step_prepared _, trivial⟩
      (.cons ⟨step_last, 2 ^ 30 - 1, by decide, by decide, rfl⟩ (.nil _)))⟩

/-- With the last id taken, the next one to be given out is the slot of the first. -/
theorem id_beyond_last_takes_first :
    (∃ ops, Run (Step (2 ^ 33)) (idrInit fun _ => .zero, fun _ => none) ops beyondLast) ∧
      beyondLast.2 (2 ^ 30) = some (some 5) ∧ idrFind beyondLast.1 (2 ^ 30) = some none ∧
      beyondLast.2 0 = none ∧ idrFind beyondLast.1 0 = some (some 5) :=
  ⟨⟨_, .cons (step_prepared _) (.cons step_last (.cons step_beyondLast (.nil _)))⟩,
    by decide +kernel, by decide +kernel, by decide +kernel, by decide +kernel⟩

end LinuxKernel.Idr
