import Mathlib.Data.Fin.VecNotation
import Mathlib.Data.List.FinRange
import Mathlib.Order.CompletePartialOrder
import Mathlib.Order.Lattice.Nat

/-! # Taking a range out of an array of ranges

The slots of the array may overlap, and a slot whose end is 0 is free. One pass cuts the range out
of every slot; where that splits a slot, the upper part goes into the first free one, before or
behind the slot that the pass is at.
-/

namespace LinuxKernel.Range

open Function Set

structure Slot where
  start : ℕ
  stop : ℕ
  deriving DecidableEq

variable {az start stop : ℕ} {range range' range'' : Fin az → Slot} {i j : Fin az}
  {st : (Fin az → Slot) × List String}

/-- The body of the loop over the slots, with the messages that were printed. -/
def subtractSlot (start stop : ℕ) (st : (Fin az → Slot) × List String) (j : Fin az) :
    (Fin az → Slot) × List String :=
  let range := st.1
  if (range j).stop = 0 then st
  else if start ≤ (range j).start ∧ stop ≥ (range j).stop then (update range j ⟨0, 0⟩, st.2)
  else if start ≤ (range j).start ∧ stop < (range j).stop ∧ (range j).start < stop then
    (update range j { range j with start := stop }, st.2)
  else if start > (range j).start ∧ stop ≥ (range j).stop ∧ (range j).stop > start then
    (update range j { range j with stop := start }, st.2)
  else if start > (range j).start ∧ stop < (range j).stop then
    match (List.finRange az).find? fun i => (range i).stop = 0 with
    | some i =>
      let range' := update range i ⟨stop, (range j).stop⟩
      (update range' j { range' j with stop := start }, st.2)
    | none => (update range j { range j with stop := start }, st.2 ++ ["run of slot in ranges\n"])
  else st

def subtractRange (range : Fin az → Slot) (start stop : ℕ) : (Fin az → Slot) × List String :=
  if start ≥ stop then (range, [])
  else (List.finRange az).foldl (subtractSlot start stop) (range, [])

def Slot.covered (r : Slot) : Set ℕ := Ico r.start r.stop

def covered (range : Fin az → Slot) : Set ℕ := ⋃ j, (range j).covered

/-- Only addresses of the range are lost, and a slot without one gets none back. -/
structure Cuts (D : Set ℕ) (range range' : Fin az → Slot) : Prop where
  mem_iff : ∀ x ∉ D, x ∈ covered range' ↔ x ∈ covered range
  disjoint : ∀ j, Disjoint (range j).covered D → Disjoint (range' j).covered D

variable {D : Set ℕ}

theorem Cuts.refl : Cuts D range range := ⟨fun _ _ => Iff.rfl, fun _ => id⟩

theorem Cuts.trans (h : Cuts D range range') (h' : Cuts D range' range'') : Cuts D range range'' :=
  ⟨fun x hx => (h'.mem_iff x hx).trans (h.mem_iff x hx),
    fun j hj => h'.disjoint j (h.disjoint j hj)⟩

/-- A change to at most two slots that keeps what they cover outside of the range. -/
theorem Cuts.of_slots (i j : Fin az) (hrest : ∀ k, k ≠ i → k ≠ j → range' k = range k)
    (hi : Disjoint (range' i).covered D) (hj : Disjoint (range' j).covered D)
    (hiff : ∀ x ∉ D, x ∈ (range' i).covered ∨ x ∈ (range' j).covered ↔
      x ∈ (range i).covered ∨ x ∈ (range j).covered) : Cuts D range range' where
  mem_iff := by
    intro x hx
    simp only [covered, mem_iUnion]
    constructor
    · rintro ⟨k, hk⟩
      by_cases hne : k ≠ i ∧ k ≠ j
      · exact ⟨k, hrest k hne.1 hne.2 ▸ hk⟩
      · grind
    · rintro ⟨k, hk⟩
      by_cases hne : k ≠ i ∧ k ≠ j
      · exact ⟨k, (hrest k hne.1 hne.2).symm ▸ hk⟩
      · grind
  disjoint := by
    intro k hk
    by_cases hne : k ≠ i ∧ k ≠ j
    · rwa [hrest k hne.1 hne.2]
    · grind

/-- The step lemma of the pass: the slot at hand loses its part of the range. -/
theorem subtractSlot_spec (hlt : start < stop) (h : (subtractSlot start stop st j).2 = []) :
    st.2 = [] ∧ Cuts (Ico start stop) st.1 (subtractSlot start stop st j).1 ∧
      Disjoint ((subtractSlot start stop st j).1 j).covered (Ico start stop) := by
  obtain ⟨range, log⟩ := st
  have hone : ∀ r : Slot, Disjoint r.covered (Ico start stop) →
      (∀ x ∉ Ico start stop, x ∈ r.covered ↔ x ∈ (range j).covered) →
      Cuts (Ico start stop) range (update range j r) ∧
        Disjoint (update range j r j).covered (Ico start stop) := by
    intro r hd hiff
    rw [← update_self j r range] at hd hiff
    refine ⟨.of_slots j j (fun k hk _ => update_of_ne hk ..) hd hd fun x hx => ?_, hd⟩
    rw [or_self, or_self, hiff x hx]
  unfold subtractSlot at h ⊢
  dsimp only at h
  simp only [Slot.covered, disjoint_left, mem_Ico] at hone ⊢
  split_ifs at h ⊢ with h₀ h₁ h₂ h₃ h₄
  · exact ⟨h, .refl, by dsimp only; omega⟩
  · exact ⟨h, hone _ (by dsimp only; omega) (by dsimp only; omega)⟩
  · exact ⟨h, hone _ (by dsimp only; omega) (by dsimp only; omega)⟩
  · exact ⟨h, hone _ (by dsimp only; omega) (by dsimp only; omega)⟩
  · cases hfind : (List.finRange az).find? fun i => (range i).stop = 0 with
    | none => simp [hfind] at h
    | some i =>
      have hfree : (range i).stop = 0 := by simpa using List.find?_some hfind
      have hne : i ≠ j := by
        rintro rfl
        exact h₀ hfree
      rw [hfind] at h
      dsimp only
      rw [update_of_ne hne.symm, update_self]
      refine ⟨h, .of_slots i j (fun k hi hj => ?_) ?_ ?_ fun x hx => ?_, by dsimp only; omega⟩
      · rw [update_of_ne hj, update_of_ne hi]
      all_goals
        simp only [Slot.covered, disjoint_left, mem_Ico, update_of_ne hne, update_self] at *
        omega
  · exact ⟨h, .refl, by dsimp only; omega⟩

/-- A pass over some slots. -/
theorem foldl_subtractSlot_spec (hlt : start < stop) (l : List (Fin az))
    (h : (l.foldl (subtractSlot start stop) st).2 = []) :
    st.2 = [] ∧ Cuts (Ico start stop) st.1 (l.foldl (subtractSlot start stop) st).1 ∧
      ∀ j ∈ l, Disjoint ((l.foldl (subtractSlot start stop) st).1 j).covered (Ico start stop) := by
  induction l generalizing st with
  | nil => exact ⟨h, .refl, by simp⟩
  | cons j l ih =>
    obtain ⟨hlog, hcuts, hclear⟩ := ih h
    obtain ⟨hlog, hcut, hj⟩ := subtractSlot_spec hlt hlog
    exact ⟨hlog, hcut.trans hcuts, List.forall_mem_cons.mpr ⟨hcuts.disjoint j hj, hclear⟩⟩

/-- As long as a free slot is found for every split, exactly the range is taken out. -/
theorem subtract_range_covered (range : Fin az → Slot) (start stop : ℕ)
    (h : (subtractRange range start stop).2 = []) :
    covered (subtractRange range start stop).1 = covered range \ Ico start stop := by
  unfold subtractRange at h ⊢
  split_ifs at h ⊢ with hge
  · rw [Ico_eq_empty (by omega), sdiff_empty]
  · obtain ⟨-, hcuts, hclear⟩ := foldl_subtractSlot_spec (by omega) _ h
    ext x
    constructor
    · intro hx
      obtain ⟨j, hj⟩ := mem_iUnion.mp hx
      have hout := disjoint_left.mp (hclear j (List.mem_finRange j)) hj
      exact ⟨(hcuts.mem_iff x hout).mp hx, hout⟩
    · rintro ⟨hx, hout⟩
      exact (hcuts.mem_iff x hout).mpr hx

theorem subtract_range_covered_split :
    covered (subtractRange ![⟨10, 20⟩, ⟨0, 0⟩] 12 15).1 = covered ![⟨10, 20⟩, ⟨0, 0⟩] \ Ico 12 15 :=
  subtract_range_covered _ 12 15 (by decide)

end LinuxKernel.Range
