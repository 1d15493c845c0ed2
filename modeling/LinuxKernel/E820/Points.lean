import Mathlib.Data.List.Nodup
import LinuxKernel.E820.Model

/-! # Change points and the overlap list

The points are sorted by their address, with the starts before the ends, and the overlap list has
the entries whose start was met and whose end was not.
-/

namespace LinuxKernel.E820

open List

variable {biosmap : Map} {n : ℕ}

section Points

/-- The start or the end of an entry that is not empty. -/
def IsPoint (biosmap : Map) (n : ℕ) (p : ChangeMember) : Prop :=
  p.pbios < n ∧ (biosmap p.pbios).size ≠ 0 ∧
    (p.addr = (biosmap p.pbios).addr ∨ p.addr = (biosmap p.pbios).addr + (biosmap p.pbios).size)

/-- The order of the points. -/
def key (biosmap : Map) (p : ChangeMember) : ℕ :=
  2 * p.addr + if p.addr = (biosmap p.pbios).addr then 0 else 1

theorem swapped_iff (a b : ChangeMember) :
    swapped biosmap a b = true ↔ key biosmap a < key biosmap b := by
  simp only [swapped, decide_eq_true_eq, key]
  split <;> split <;> omega

theorem key_of_start {p : ChangeMember} (h : p.addr = (biosmap p.pbios).addr) :
    key biosmap p = 2 * p.addr := by
  rw [key, if_pos h, add_zero]

theorem key_of_stop {p : ChangeMember} (h : p.addr ≠ (biosmap p.pbios).addr) :
    key biosmap p = 2 * p.addr + 1 := by
  rw [key, if_neg h]

theorem key_div_two (biosmap : Map) (p : ChangeMember) : key biosmap p / 2 = p.addr := by
  rw [key]
  split <;> omega

theorem sortedPoints_pairwise (oldNr : ℕ) :
    (sortedPoints biosmap oldNr).Pairwise (key biosmap · ≤ key biosmap ·) := by
  have hle : ∀ a b, swapped biosmap b a = false ↔ key biosmap a ≤ key biosmap b := fun a b => by
    rw [← Bool.not_eq_true, swapped_iff, not_lt]
  have h := Bubble.sort_pairwise (swapped_asymm biosmap)
    (fun a b c hab hbc => by rw [hle] at hab hbc ⊢; exact le_trans hab hbc)
    (changePoints biosmap oldNr)
  exact h.imp fun hab => (hle _ _).mp hab

section

variable (hwrap : ∀ i < n, (biosmap i).addr + (biosmap i).size < 2 ^ 64)
include hwrap

theorem mem_sortedPoints (p : ChangeMember) : p ∈ sortedPoints biosmap n ↔ IsPoint biosmap n p := by
  rw [sortedPoints, (Bubble.sort_perm _ _).mem_iff, changePoints, mem_flatMap]
  constructor
  · rintro ⟨i, hi, hp⟩
    rw [mem_range] at hi
    split at hp
    · next hs =>
      rw [Nat.mod_eq_of_lt (hwrap i hi)] at hp
      rcases mem_pair.mp hp with rfl | rfl
      · exact ⟨hi, hs, .inl rfl⟩
      · exact ⟨hi, hs, .inr rfl⟩
    · simp at hp
  · rintro ⟨hi, hs, hp⟩
    refine ⟨p.pbios, mem_range.mpr hi, ?_⟩
    rw [if_pos hs, Nat.mod_eq_of_lt (hwrap _ hi)]
    obtain ⟨i, a⟩ := p
    dsimp only at hp
    rcases hp with rfl | rfl <;> simp

theorem sortedPoints_nodup : (sortedPoints biosmap n).Nodup := by
  rw [sortedPoints, (Bubble.sort_perm _ _).nodup_iff, changePoints, nodup_flatMap]
  constructor
  · intro i hi
    split
    · next hs =>
      rw [Nat.mod_eq_of_lt (hwrap i (mem_range.mp hi))]
      simpa using hs
    · exact .nil
  · refine nodup_range.imp fun {i j} hij p hi hj => hij ?_
    have hpb : ∀ k, (p ∈ if (biosmap k).size ≠ 0 then [⟨k, (biosmap k).addr⟩,
        ⟨k, ((biosmap k).addr + (biosmap k).size) % 2 ^ 64⟩] else []) → p.pbios = k := by
      intro k hk
      split at hk
      · rcases mem_pair.mp hk with rfl | rfl <;> rfl
      · simp at hk
    exact (hpb i hi).symm.trans (hpb j hj)

end

end Points

section Overlap

variable {overlap : List ℕ} {p : ℕ}

theorem currentType_foldl (l : List ℕ) (c : ℕ) :
    c ≤ l.foldl (fun current i =>
        if (biosmap i).type > current then (biosmap i).type else current) c ∧
      (∀ i ∈ l, (biosmap i).type ≤ l.foldl (fun current i =>
        if (biosmap i).type > current then (biosmap i).type else current) c) ∧
      (l.foldl (fun current i =>
        if (biosmap i).type > current then (biosmap i).type else current) c = c ∨
        ∃ i ∈ l, (biosmap i).type = l.foldl (fun current i =>
          if (biosmap i).type > current then (biosmap i).type else current) c) := by
  induction l generalizing c with
  | nil => simp
  | cons i l ih =>
    rw [foldl_cons]
    obtain ⟨hle, hall, hex⟩ := ih (if (biosmap i).type > c then (biosmap i).type else c)
    have hc : c ≤ (if (biosmap i).type > c then (biosmap i).type else c) := by split <;> omega
    have hi : (biosmap i).type ≤ (if (biosmap i).type > c then (biosmap i).type else c) := by
      split <;> omega
    refine ⟨le_trans hc hle, ?_, ?_⟩
    · intro j hj
      rcases mem_cons.mp hj with rfl | hj
      · exact le_trans hi hle
      · exact hall j hj
    · rcases hex with heq | ⟨j, hj, heq⟩
      · rw [heq]
        split
        · exact .inr ⟨i, mem_cons_self, rfl⟩
        · exact .inl rfl
      · exact .inr ⟨j, mem_cons_of_mem _ hj, heq⟩

theorem type_le_currentType (biosmap : Map) (h : p ∈ overlap) :
    (biosmap p).type ≤ currentType biosmap overlap :=
  (currentType_foldl overlap 0).2.1 p h

theorem exists_currentType (h : currentType biosmap overlap ≠ 0) :
    ∃ i ∈ overlap, (biosmap i).type = currentType biosmap overlap :=
  (currentType_foldl overlap 0).2.2.resolve_left h

theorem currentType_le_iff {c : ℕ} :
    currentType biosmap overlap ≤ c ↔ ∀ i ∈ overlap, (biosmap i).type ≤ c := by
  constructor
  · intro h i hi
    exact le_trans (type_le_currentType biosmap hi) h
  · intro h
    by_cases h0 : currentType biosmap overlap = 0
    · omega
    · obtain ⟨i, hi, heq⟩ := exists_currentType h0
      rw [← heq]
      exact h i hi

theorem removeOverlap_append (l : List ℕ) (last : ℕ) :
    removeOverlap (l ++ [last]) p = l.map fun i => if i = p then last else i := by
  simp [removeOverlap]

theorem mem_removeOverlap (hn : overlap.Nodup) (hp : p ∈ overlap) {i : ℕ} :
    i ∈ removeOverlap overlap p ↔ i ∈ overlap ∧ i ≠ p := by
  obtain ⟨l, last, rfl⟩ : ∃ l last, overlap = l ++ [last] :=
    ⟨_, _, (dropLast_append_getLast (ne_nil_of_mem hp)).symm⟩
  rw [removeOverlap_append, mem_map]
  rw [nodup_append] at hn
  have hlast : last ∉ l := fun h => hn.2.2 last h last (mem_singleton.mpr rfl) rfl
  rw [mem_append, mem_singleton] at hp
  constructor
  · rintro ⟨j, hj, rfl⟩
    split
    · next hjp =>
      subst hjp
      exact ⟨by simp, fun h => hlast (h ▸ hj)⟩
    · next hjp => exact ⟨mem_append_left _ hj, hjp⟩
  · rintro ⟨hi, hip⟩
    rcases mem_append.mp hi with hi | hi
    · exact ⟨i, hi, if_neg hip⟩
    · rw [mem_singleton] at hi
      subst hi
      exact ⟨p, hp.resolve_right (Ne.symm hip), if_pos rfl⟩

theorem removeOverlap_nodup (hn : overlap.Nodup) (hp : p ∈ overlap) :
    (removeOverlap overlap p).Nodup := by
  obtain ⟨l, last, rfl⟩ : ∃ l last, overlap = l ++ [last] :=
    ⟨_, _, (dropLast_append_getLast (ne_nil_of_mem hp)).symm⟩
  rw [removeOverlap_append]
  rw [nodup_append] at hn
  have hlast : last ∉ l := fun h => hn.2.2 last h last (mem_singleton.mpr rfl) rfl
  refine List.Nodup.map_on (fun i hi j hj hij => ?_) hn.1
  split at hij <;> split at hij
  · omega
  · exact absurd (hij ▸ hj) hlast
  · exact absurd (hij ▸ hi) hlast
  · exact hij

end Overlap

end LinuxKernel.E820
