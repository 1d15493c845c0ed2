import LinuxKernel.Ebitmap.Compare

/-! # Bitmaps as sets

Bitmaps that are built from empty ones by `ebitmap_set_bit` and `ebitmap_cpy` are in canonical form
and have the bits of the sets that these calls make.
-/

namespace LinuxKernel.Selinux

open Function Option

variable {a : Arch}

section Runs

variable {ι : Type} {s t : Traced a ι} {action : Action ι} {actions : List (Action ι)}
  {alloc : ℕ → Bool}

def Represents (s : Traced a ι) : Prop :=
  ∀ i, Canonical (s.store i) ∧ ∀ b, Mem (s.store i).nodes b ↔ b ∈ s.sets i

theorem represents_initial : Represents (initial a ι) := fun _ =>
  ⟨canonical_init, fun _ => ⟨fun h => absurd h mem_nil, fun h => absurd h (by simp [initial])⟩⟩

theorem cpyLoop_eq_some {ns l : List (Node a)} {i : ℕ} (h : cpyLoop alloc ns i = some l) :
    l = ns := by
  induction ns generalizing i l with
  | nil => exact (some.inj h).symm
  | cons n ns ih =>
    rw [cpyLoop] at h
    split at h
    · obtain ⟨l', hl', rfl⟩ := map_eq_some_iff.mp h
      rw [ih hl']
    · exact absurd h (by simp)

variable [DecidableEq ι]

/-- A copy has the set of its source, unless it ran out of memory or overwrote its source. -/
theorem ebitmapCpy_spec (h : Represents s) {dst src : ι} {err : Option Errno} {e : Ebitmap a}
    (hcpy : ebitmapCpy s.store dst src alloc = (err, e)) :
    Canonical e ∧ ∀ b, Mem e.nodes b ↔ b ∈ if err.isSome ∨ dst = src then ∅ else s.sets src := by
  rw [ebitmapCpy] at hcpy
  split at hcpy
  · obtain ⟨rfl, rfl⟩ := Prod.mk.inj hcpy
    refine ⟨canonical_init, fun b => ?_⟩
    exact ⟨fun hmem => absurd hmem mem_nil, fun hmem => absurd hmem (Set.notMem_empty b)⟩
  · rename_i nodes hnodes
    obtain ⟨rfl, rfl⟩ := Prod.mk.inj hcpy
    rw [cpyLoop_eq_some hnodes]
    by_cases heq : dst = src
    · subst heq
      rw [update_self]
      refine ⟨canonical_init, fun b => ?_⟩
      rw [if_pos (.inr rfl)]
      exact ⟨fun hmem => absurd hmem mem_nil, fun hmem => absurd hmem (Set.notMem_empty b)⟩
    · rw [update_of_ne (Ne.symm heq)]
      refine ⟨(h src).1, fun b => ?_⟩
      rw [if_neg (by simp [heq])]
      exact (h src).2 b

theorem Represents.step (h : Represents s) (hstep : Step s action t) : Represents t := by
  intro j
  cases hstep with
  | @setBit i bit value alloc err e hbit hset =>
    by_cases hj : j = i
    · subst hj
      obtain ⟨hcan, hmem⟩ := h j
      obtain ⟨err', e', hset', hcan', hupd⟩ := ebitmapSetBit_spec hcan bit value alloc
      obtain ⟨rfl, rfl⟩ := Prod.mk.inj (some.inj (hset.symm.trans hset'))
      simp only [update_self]
      refine ⟨hcan', fun b => ?_⟩
      cases err with
      | some err =>
        obtain rfl : e = s.store j := hupd.1
        exact hmem b
      | none =>
        have hb := hupd b
        cases value with
        | true => exact hb.trans (or_congr_right (hmem b))
        | false => exact hb.trans (and_congr_left' (hmem b))
    · simp only [update_of_ne hj]
      exact h j
  | @cpy dst src alloc err e hcpy =>
    by_cases hj : j = dst
    · subst hj
      simp only [update_self]
      exact ebitmapCpy_spec h hcpy
    · simp only [update_of_ne hj]
      exact h j

/-- Bitmaps that were built by any calls are sets. -/
theorem ebitmaps_are_sets (hrun : Run Step (initial a ι) actions s) :
    (∀ i, Canonical (s.store i)) ∧
    (∀ i bit, ∃ v, ebitmapGetBit (s.store i) bit = some v ∧ (v = true ↔ bit ∈ s.sets i)) ∧
    (∀ i j, ebitmapCmp (s.store i) (s.store j) = true ↔ s.sets i = s.sets j) ∧
    (∀ i j, ebitmapContains (s.store i) (s.store j) = true ↔ s.sets j ⊆ s.sets i) ∧
    (∀ i, ∃ bits, Fuel.Ends (ebitmapForEachPositiveBit (s.store i)) bits ∧
      bits.Pairwise (· < ·) ∧ ∀ b, b ∈ bits ↔ b ∈ s.sets i) ∧
    ∀ i bit value alloc, ∃ err e, ebitmapSetBit (s.store i) bit value alloc = some (err, e) ∧
      (alloc = true → err = none) := by
  have h := hrun.invariant (I := Represents) Represents.step represents_initial
  refine ⟨fun i => (h i).1, fun i bit => ?_, fun i j => ?_, fun i j => ?_, fun i => ?_,
    fun i bit value alloc => ?_⟩
  · obtain ⟨v, hv, hiff⟩ := ebitmapGetBit_spec (h i).1 bit
    exact ⟨v, hv, hiff.trans ((h i).2 bit)⟩
  · rw [ebitmapCmp_iff (h i).1 (h j).1, Set.ext_iff]
    exact forall_congr' fun b => by rw [(h i).2, (h j).2]
  · rw [ebitmapContains_iff (h i).1 (h j).1]
    exact forall_congr' fun b => by rw [(h i).2, (h j).2]
  · refine ⟨_, ebitmapForEachPositiveBit_ends (h i).1, (h i).1.chain.pairwise_allBits, fun b => ?_⟩
    rw [mem_allBits, (h i).2]
  · obtain ⟨err, e, he, -, hupd⟩ := ebitmapSetBit_spec (h i).1 bit value alloc
    refine ⟨err, e, he, fun halloc => ?_⟩
    cases err with
    | none => rfl
    | some err => exact absurd hupd.2 (by simp [halloc])

/-- A set with two bits, and a copy of it that loses one of them. -/
theorem ebitmaps_are_sets_copy :
    ∃ s : Traced .bits64 Bool,
      Run Step (initial .bits64 Bool) [.setBit true 5 true true, .setBit true 200 true true,
        .cpy false true fun _ => true, .setBit false 5 false true] s ∧
      ebitmapGetBit (s.store false) 200 = some true ∧
      (ebitmapContains (s.store true) (s.store false) = true ↔ s.sets false ⊆ s.sets true) := by
  have hrun : ∃ s : Traced .bits64 Bool,
      Run Step (initial .bits64 Bool) [.setBit true 5 true true, .setBit true 200 true true,
        .cpy false true fun _ => true, .setBit false 5 false true] s ∧
      ebitmapGetBit (s.store false) 200 = some true := by
    refine ⟨_, .cons (.setBit (by decide) rfl) (.cons (.setBit (by decide) rfl)
      (.cons (.cpy rfl) (.cons (.setBit (by decide) rfl) (.nil _)))), ?_⟩
    decide
  obtain ⟨s, hrun, hbit⟩ := hrun
  exact ⟨s, hrun, hbit, (ebitmaps_are_sets hrun).2.2.2.1 true false⟩

end Runs

end LinuxKernel.Selinux
