import LinuxKernel.Buddy.Lists

/-! # Freeing a block

The merging loop takes every buddy that is free off its list, so that the block which is
linked at the end has no free buddy.
-/

namespace LinuxKernel.Buddy

open Aligned Nat

variable {c : Config} {z z' : Zone} {p q o k : ℕ} {mt : MigrateType}

/-- The test of `page_is_buddy` finds exactly the free blocks of the zone. -/
theorem pageIsBuddy_iff (h : Inv c z) (hp : c.InZone p) :
    pageIsBuddy c z p q o = true ↔ Free z q o := by
  constructor
  · intro hb
    rw [pageIsBuddy] at hb
    split_ifs at hb with hvalid hzone
    rw [Bool.and_eq_true, beq_iff_eq] at hb
    have hz : c.InZone q := (not_not.mp hzone).symm.trans hp
    exact hb.2 ▸ h.only hz hb.1
  · intro hq
    obtain ⟨hz, hvalid⟩ := h.usable hq q (start_mem_block q o)
    obtain ⟨hbuddy, hpriv⟩ := h.flag hq
    have hzone : c.pageZoneId p = c.pageZoneId q := hp.trans hz.symm
    simp [pageIsBuddy, hvalid, hzone, hbuddy, hpriv]

section Merge

/-- The zone after the merging loop, which has made the block `(q, k)` of `(p, o)`. -/
structure Merged (c : Config) (z : Zone) (p o : ℕ) (z' : Zone) (q k : ℕ) : Prop where
  inv : Inv c z'
  loose : Loose c z' q k
  alone : k + 1 < c.maxOrder → ¬ Free z' (buddy q k) k
  pages : ∀ x, x ∈ pages (blocks z') ∨ x ∈ block q k ↔ x ∈ pages (blocks z) ∨ x ∈ block p o
  surplus : ∀ n, surplus z' n = surplus z n

theorem Loose.zone (h : Loose c z p o) : c.InZone p := (h.usable p (start_mem_block p o)).1

theorem Loose.merge (hp : Loose c z p o) (h : Inv c z) (ho : o + 1 < c.maxOrder)
    (hb : Free z (buddy p o) o) : Loose c (z.unlink (buddy p o)) (parent p o) (o + 1) where
  order_lt := ho
  aligned := dvd_parent hp.aligned
  usable x hx := by
    rcases (mem_parent hp.aligned).mp hx with hx | hx
    · exact hp.usable x hx
    · exact h.usable hb x hx
  out x hx hmem := by
    rw [blocks_unlink h hb, h.canonical.mem_pages_diff (p := buddy p o) hb] at hmem
    rcases (mem_parent hp.aligned).mp hx with hx | hx
    · exact hp.out x hx hmem.1
    · exact hmem.2 hx

theorem mem_pages_merge (h : Inv c z) (hp : Loose c z p o) (hb : Free z (buddy p o) o) (x : ℕ) :
    x ∈ pages (blocks (z.unlink (buddy p o))) ∨ x ∈ block (parent p o) (o + 1) ↔
      x ∈ pages (blocks z) ∨ x ∈ block p o := by
  have hin : x ∈ block (buddy p o) o → x ∈ pages (blocks z) := fun hx => ⟨_, _, hb, hx⟩
  rw [blocks_unlink h hb, h.canonical.mem_pages_diff (p := buddy p o) hb, mem_parent hp.aligned]
  tauto

theorem mergeLoop_spec (rounds : ℕ) : ∀ {z p o}, Inv c z → Loose c z p o →
    rounds = c.maxOrder - 1 - o → ∃ z' q k,
      mergeLoop c rounds z p (p % 2 ^ c.maxOrder) o = (z', q, q % 2 ^ c.maxOrder, k) ∧
        Merged c z p o z' q k := by
  induction rounds with
  | zero =>
    intro z p o h hp hr
    refine ⟨z, p, o, rfl, h, hp, fun ho => ?_, fun _ => Iff.rfl, fun _ => rfl⟩
    omega
  | succ rounds ih =>
    intro z p o h hp hr
    have hlt := hp.order_lt
    rw [mergeLoop]
    simp only [findBuddyIndex, buddy_index hlt, ← parent_mod hlt, parent_index hlt]
    by_cases hb : pageIsBuddy c z p (buddy p o) o = true
    · rw [if_neg (by rw [hb]; exact Bool.noConfusion)]
      rw [pageIsBuddy_iff h hp.zone] at hb
      have ho : o + 1 < c.maxOrder := by omega
      have hz := (h.unlink hb).addNrFree o (-1)
      obtain ⟨z', q, k, heq, hm⟩ := ih hz ((hp.merge h ho hb).congr (addNrFree_freeList (-1)))
        (by omega)
      refine ⟨z', q, k, heq, hm.inv, hm.loose, hm.alone, fun x => ?_, fun n => ?_⟩
      · exact (hm.pages x).trans (mem_pages_merge h hp hb x)
      · rw [hm.surplus, surplus_addNrFree, surplus_unlink h hb]
        split_ifs <;> ring
    · rw [if_pos (by simpa using hb)]
      rw [pageIsBuddy_iff h hp.zone] at hb
      exact ⟨z, p, o, rfl, h, hp, fun _ => hb, fun _ => Iff.rfl, fun _ => rfl⟩

end Merge

structure Freed (c : Config) (z : Zone) (p o : ℕ) (z' : Zone) : Prop where
  inv : Inv c z'
  pages : ∀ x, x ∈ pages (blocks z') ↔ x ∈ pages (blocks z) ∨ x ∈ block p o
  surplus : ∀ n, surplus z' n = surplus z n

theorem link_eq (z : Zone) (p i o : ℕ) (mt : MigrateType) :
    ∃ l, l.Perm (p :: z.freeList o mt) ∧ link c z p i o mt = (z.linkAs p o mt l).addNrFree o 1 := by
  rw [link]
  by_cases hb : higherIsBuddy c (z.setPageOrder p o) p i o = true
  · rw [if_pos hb]
    exact ⟨z.freeList o mt ++ [p], List.perm_append_singleton _ _, rfl⟩
  · rw [if_neg hb]
    exact ⟨p :: z.freeList o mt, .refl _, rfl⟩

theorem Merged.link (h : Merged c z p o z' q k) (i : ℕ) (mt : MigrateType) :
    Freed c z p o (link c z' q i k mt) := by
  obtain ⟨l, hl, heq⟩ := link_eq (c := c) z' q i k mt
  rw [heq]
  refine ⟨(h.inv.linkAs h.loose h.alone hl).addNrFree k 1, fun x => ?_, fun n => ?_⟩
  · rw [blocks_congr (addNrFree_freeList 1), blocks_linkAs hl, mem_pages_insert, or_comm, h.pages x]
  · rw [surplus_addNrFree, surplus_linkAs hl, h.surplus]
    split_ifs <;> ring

theorem freeOnePage_spec (h : Inv c z) (hp : Loose c z p o) (mt : MigrateType) :
    Freed c z p o (freeOnePage c z p o mt) := by
  rw [freeOnePage]
  simp only [h.plain hp.zone, Bool.false_eq_true, if_false,
    and_two_pow_sub_one_eq_mod]
  obtain ⟨z', q, k, heq, hm⟩ := mergeLoop_spec _ h hp rfl
  rw [heq]
  exact hm.link _ mt

section Place

/-- The block and its buddy may soon be merged with the buddy of their parent. -/
def MergesSoon (c : Config) (z : Zone) (p o : ℕ) : Prop :=
  c.pfnValidWithin (buddy p o) = true ∧ Free z (buddy (parent p o) (o + 1)) (o + 1)

/-- The heads of the blocks of all zones are aligned. -/
def Heads (z : Zone) : Prop := ∀ x, (z.page x).buddy = true → 2 ^ (z.page x).priv ∣ x

theorem pageIsBuddy_setPageOrder {x : ℕ} (hne : x ≠ p) :
    pageIsBuddy c (z.setPageOrder p o) q x k = pageIsBuddy c z q x k := by
  simp only [pageIsBuddy, Zone.setPageOrder, Zone.setPage, Function.update_of_ne hne]

theorem Heads.dvd (h : Heads z) (hb : pageIsBuddy c z q p o = true) : 2 ^ o ∣ p := by
  rw [pageIsBuddy] at hb
  split_ifs at hb
  rw [Bool.and_eq_true, beq_iff_eq] at hb
  exact hb.2 ▸ h p hb.1

theorem mergeLoop_heads (h : Heads z) (rounds i : ℕ) : Heads (mergeLoop c rounds z p i o).1 := by
  induction rounds generalizing z p i o with
  | zero => exact h
  | succ rounds ih =>
    rw [mergeLoop]
    split_ifs
    · exact h
    · refine ih (fun x => ?_) _
      rw [Zone.rmvPageOrder, Zone.setPage]
      dsimp only
      rw [Function.update_apply]
      split_ifs
      · nofun
      · exact h x

/-- For an upper half the page that is looked at cannot be the head of a block. -/
theorem higherIsBuddy_iff (h : Inv c z) (hz : Heads z) (hp : Loose c z p o)
    (ho : o < c.maxOrder - 2) :
    higherIsBuddy c (z.setPageOrder p o) p (p % 2 ^ c.maxOrder) o = true ↔
      2 ^ (o + 1) ∣ p ∧ MergesSoon c z p o := by
  have hlt := hp.order_lt
  have hlt' : o + 1 < c.maxOrder := by omega
  have hidx := buddy_index (p := parent p o) hlt'
  have hmod := mod_le (parent p o) (2 ^ c.maxOrder)
  have hne := buddy_ne (parent p o) (o + 1)
  rw [higherIsBuddy, MergesSoon]
  simp only [findBuddyIndex, buddy_index hlt, ← parent_mod hlt, parent_index hlt, ho, true_and]
  split_ifs with hv
  · rcases eq_parent_or hp.aligned with ⟨hd, heq⟩ | ⟨hd, heq⟩
    · have hx : p + (parent p o % 2 ^ c.maxOrder ^^^ 2 ^ (o + 1)) -
          parent p o % 2 ^ c.maxOrder = buddy (parent p o) (o + 1) := by omega
      rw [hx, pageIsBuddy_setPageOrder (by omega), ← heq, pageIsBuddy_iff h hp.zone]
      simp [hd, hv]
    · have hx : p + (parent p o % 2 ^ c.maxOrder ^^^ 2 ^ (o + 1)) -
          parent p o % 2 ^ c.maxOrder = buddy (parent p o) (o + 1) + 2 ^ o := by omega
      rw [hx, pageIsBuddy_setPageOrder (by omega)]
      refine iff_of_false (fun hb => ?_) fun hd' => hd hd'.1
      have := (Nat.dvd_add_right (dvd_buddy (dvd_parent hp.aligned))).mp (hz.dvd hb)
      exact absurd (le_of_dvd (Nat.two_pow_pos o) this)
        (not_le.mpr (Nat.pow_lt_pow_right one_lt_two (lt_succ_self o)))
  · simp [hv]

theorem link_freeList (z : Zone) (p i o : ℕ) (mt : MigrateType) :
    (link c z p i o mt).freeList o mt = if higherIsBuddy c (z.setPageOrder p o) p i o then
      z.freeList o mt ++ [p] else p :: z.freeList o mt := by
  rw [link]
  split_ifs <;> simp [Zone.listAddTail, Zone.listAdd, Zone.setList, Zone.setPageOrder, Zone.setPage]

end Place

end LinuxKernel.Buddy
