import LinuxKernel.Buddy.Lists

/-! # Allocating a block

A free block is unlinked and its upper halves are linked again. Before that the fallback may
move free blocks from one list to another, which leaves the set of free blocks as it is.
-/

namespace LinuxKernel.Buddy

open Aligned List Nat

variable {c : Config} {z z' : Zone} {p q o k : ℕ} {mt start : MigrateType}

section Expand

theorem mem_block_succ (p o x : ℕ) :
    x ∈ block p (o + 1) ↔ x ∈ block p o ∨ x ∈ block (p + 2 ^ o) o := by
  rw [mem_block, mem_block, mem_block]
  omega

theorem not_mem_upper {x : ℕ} (h : x ∈ block p o) : x ∉ block (p + 2 ^ o) o := by
  rw [mem_block] at *
  omega

theorem block_mono (h : o ≤ k) : block p o ⊆ block p k :=
  Finset.Ico_subset_Ico_right (Nat.add_le_add_left (Nat.pow_le_pow_right two_pos h) p)

theorem Loose.upper (h : Loose c z p (o + 1)) : Loose c z (p + 2 ^ o) o where
  order_lt := lt_of_succ_lt h.order_lt
  aligned := ((pow_dvd_pow 2 (le_succ o)).trans h.aligned).add dvd_rfl
  usable x hx := h.usable x ((mem_block_succ p o x).mpr (.inr hx))
  out x hx := h.out x ((mem_block_succ p o x).mpr (.inr hx))

theorem expand_step (h : Inv c z) (hp : Loose c z p (o + 1)) {l : List ℕ}
    (hl : l.Perm ((p + 2 ^ o) :: z.freeList o mt)) :
    Inv c (z.linkAs (p + 2 ^ o) o mt l) ∧ Loose c (z.linkAs (p + 2 ^ o) o mt l) p o := by
  constructor
  · apply h.linkAs hp.upper _ hl
    rw [buddy_add hp.aligned]
    exact fun _ => hp.not_free
  · constructor
    · exact lt_of_succ_lt hp.order_lt
    · exact (pow_dvd_pow 2 (le_succ o)).trans hp.aligned
    · exact fun x hx => hp.usable x ((mem_block_succ p o x).mpr (.inl hx))
    · intro x hx
      rw [blocks_linkAs hl, mem_pages_insert, not_or]
      exact ⟨not_mem_upper hx, hp.out x ((mem_block_succ p o x).mpr (.inl hx))⟩

/-- The zone after the rest of an unlinked block has been linked. -/
structure Expanded (c : Config) (z : Zone) (p low high : ℕ) (z' : Zone) : Prop where
  inv : Inv c z'
  pages : ∀ x, x ∈ pages (blocks z') ↔ x ∈ pages (blocks z) ∨ (x ∈ block p high ∧ x ∉ block p low)
  surplus : ∀ n, surplus z' n = surplus z n

theorem expand_spec (low : ℕ) (mt : MigrateType) (high : ℕ) : ∀ {z}, Inv c z →
    Loose c z p high → low ≤ high → Expanded c z p low high (expand p low mt high z) := by
  induction high with
  | zero =>
    intro z h hp hle
    obtain rfl := le_zero.mp hle
    refine ⟨h, fun x => ?_, fun _ => rfl⟩
    tauto
  | succ high ih =>
    intro z h hp hle
    rw [expand]
    by_cases hlow : low < high + 1
    · rw [if_pos hlow]
      obtain ⟨hinv, hloose⟩ := expand_step h hp
        (.refl _)
      have he := ih (hinv.addNrFree high 1) (hloose.congr (addNrFree_freeList 1))
        (le_of_lt_succ hlow)
      refine ⟨he.inv, fun x => ?_, fun n => (he.surplus n).trans ?_⟩
      · have hlower : x ∈ block p low → x ∈ block p high := fun hx =>
          block_mono (le_of_lt_succ hlow) hx
        have hupper : x ∈ block p high → x ∉ block (p + 2 ^ high) high := not_mem_upper
        refine (he.pages x).trans ?_
        rw [blocks_congr (addNrFree_freeList 1), blocks_linkAs (.refl _), mem_pages_insert,
          mem_block_succ]
        tauto
      · rw [surplus_addNrFree, surplus_linkAs (.refl _)]
        split_ifs <;> ring
    · rw [if_neg hlow]
      obtain rfl : low = high + 1 := by omega
      refine ⟨h, fun x => ?_, fun _ => rfl⟩
      tauto

end Expand

/-- The zone after the block `(p, o)` has been handed out. -/
structure Allocated (c : Config) (z : Zone) (p o : ℕ) (z' : Zone) : Prop where
  inv : Inv c z'
  order_lt : o < c.maxOrder
  aligned : 2 ^ o ∣ p
  free : ∀ x ∈ block p o, x ∈ pages (blocks z)
  usable : ∀ x ∈ block p o, c.InZone x ∧ c.pfnValidWithin x = true
  pages : ∀ x, x ∈ pages (blocks z') ↔ x ∈ pages (blocks z) ∧ x ∉ block p o
  surplus : ∀ n, surplus z' n = surplus z n

/-- Unlinking a block and expanding it hands out its lower end. `y` is the zone before and `w`
the one after the unlinking. -/
theorem allocated_of_expand {y w : Zone} (h : Inv c y) (hblocks : blocks y = blocks z)
    (hp : Free y p k) (hle : o ≤ k) (hlist : w.freeList = (y.unlink p).freeList)
    (hpage : w.page = (y.unlink p).page) (hsurplus : ∀ n, surplus w n = surplus z n)
    (mt : MigrateType) : Allocated c z p o (expand p o mt k w) := by
  have hw : Inv c w := (h.unlink hp).congr hlist hpage
  have hloose := loose_unlink h hp
  have he := expand_spec o mt k hw (hloose.congr hlist) hle
  have hsub : ∀ x ∈ block p o, x ∈ block p k := fun x hx => block_mono hle hx
  have hin : ∀ x ∈ block p k, x ∈ pages (blocks z) := fun x hx => hblocks ▸ ⟨p, k, hp, hx⟩
  refine ⟨he.inv, hle.trans_lt hloose.order_lt, (pow_dvd_pow 2 hle).trans hloose.aligned,
    fun x hx => hin x (hsub x hx), fun x hx => hloose.usable x (hsub x hx), fun x => ?_,
    fun n => (he.surplus n).trans (hsurplus n)⟩
  rw [he.pages, blocks_congr hlist, blocks_unlink h hp, h.canonical.mem_pages_diff hp,
    hblocks]
  tauto

theorem mem_orders : k ∈ orders c o ↔ o ≤ k ∧ k < c.maxOrder := by
  rw [orders, mem_range'_1]
  omega

theorem rmqueueSmallest_spec (h : Inv c z) (hr : rmqueueSmallest c z o mt = some (p, z')) :
    Allocated c z p o z' := by
  obtain ⟨k, hk, hsome⟩ := exists_of_findSome?_eq_some hr
  have hfree : ∀ {q l}, z.freeList k mt = q :: l → Free z q k := fun hl =>
    ⟨mt, hl ▸ mem_cons_self⟩
  split at hsome
  · cases hsome
  · rename_i q l hl
    cases hsome
    refine allocated_of_expand (w := (z.unlink p).addNrFree k (-1)) h rfl (hfree hl)
      (mem_orders.mp hk).1 rfl rfl (fun n => ?_) mt
    rw [surplus_addNrFree, surplus_unlink h (hfree hl)]
    split_ifs <;> ring

section Fallback

/-- The lists may be reordered, but the same blocks are free. -/
structure Same (c : Config) (z z' : Zone) : Prop where
  inv : Inv c z'
  blocks : blocks z' = blocks z
  surplus : ∀ n, surplus z' n = surplus z n

theorem Same.trans {w : Zone} (h : Same c z z') (h' : Same c z' w) : Same c z w where
  inv := h'.inv
  blocks := h'.blocks.trans h.blocks
  surplus n := (h'.surplus n).trans (h.surplus n)

theorem Same.free_iff (h : Same c z z') : Free z' p o ↔ Free z p o := Set.ext_iff.mp h.blocks (p, o)

theorem Same.pageblockType (h : Inv c z) (t : ℕ → MigrateType) :
    Same c z { z with pageblockType := t } :=
  ⟨h.congr rfl rfl, rfl, fun _ => rfl⟩

theorem moveLoop_same (mt : MigrateType) (endPage : ℕ) (z : Zone) (moved page : ℕ) (h : Inv c z)
    (hzone : ∀ x, page ≤ x → x ≤ endPage → c.pfnValidWithin x = true → c.InZone x) :
    Same c z (moveLoop c mt endPage z moved page).2 := by
  fun_induction moveLoop c mt endPage z moved page with
  | case1 z moved page hle hvalid ih => exact ih h fun x hx => hzone x (by omega)
  | case2 z moved page hle hvalid hbuddy ih => exact ih h fun x hx => hzone x (by omega)
  | case3 z moved page hle hvalid hbuddy order ih =>
    have hfree : Free z page order :=
      h.only (hzone page le_rfl hle (by simpa using hvalid)) (by simpa using hbuddy)
    have hmove : Same c z ((z.listDel page).listAdd page order mt) :=
      ⟨h.move hfree mt, blocks_move h hfree mt, surplus_move h hfree mt⟩
    exact hmove.trans (ih hmove.inv fun x hx => hzone x (le_of_add_right_le hx))
  | case4 z moved page hle => exact ⟨h, rfl, fun _ => rfl⟩

/-- The pages that `move_freepages_block` walks over belong to the zone. -/
theorem pageblock_inZone (hp : c.InZone p) {x : ℕ}
    (hlow : p / 2 ^ c.pageblockOrder * 2 ^ c.pageblockOrder ≤ x)
    (hhigh : x ≤ p / 2 ^ c.pageblockOrder * 2 ^ c.pageblockOrder + 2 ^ c.pageblockOrder - 1)
    (hstart : c.zoneStartPfn ≤ x) (hend : x < c.zoneStartPfn + c.spannedPages)
    (hvalid : c.pfnValidWithin x = true) : c.InZone x := by
  have hpos := Nat.two_pow_pos c.pageblockOrder
  have hdiv : x / 2 ^ c.pageblockOrder = p / 2 ^ c.pageblockOrder := by
    rw [Nat.div_eq_iff hpos]
    omega
  exact c.pageblock_zone p x hp hdiv hstart hend hvalid

/-- The `BUG_ON` of `move_freepages` is not reached. -/
theorem moveFreepagesBlock_same (h : Inv c z) (hp : c.InZone p) (mt : MigrateType) :
    ∃ pages z', moveFreepagesBlock c z p mt = some (pages, z') ∧ Same c z z' := by
  have hspan := c.in_span p hp
  have hdiv := div_add_mod' p (2 ^ c.pageblockOrder)
  have hzone := @pageblock_inZone c p hp
  rw [moveFreepagesBlock]
  generalize p / 2 ^ c.pageblockOrder * 2 ^ c.pageblockOrder = s at hdiv hzone ⊢
  by_cases hend : s + 2 ^ c.pageblockOrder - 1 ≥ c.zoneStartPfn + c.spannedPages
  · rw [if_pos hend]
    exact ⟨0, z, rfl, h, rfl, fun _ => rfl⟩
  rw [if_neg hend, moveFreepages]
  have hfirst : s ≤ (if s < c.zoneStartPfn then p else s) ∧
      c.zoneStartPfn ≤ (if s < c.zoneStartPfn then p else s) ∧
      (if s < c.zoneStartPfn then p else s) ≤ p := by
    split_ifs <;> omega
  generalize (if s < c.zoneStartPfn then p else s) = f at hfirst
  have hrange : ∀ x, f ≤ x → x ≤ s + 2 ^ c.pageblockOrder - 1 → c.pfnValidWithin x = true →
      c.InZone x := fun x hx hx' => hzone (by omega) hx' (by omega) (by omega)
  have hbug : ¬ (!c.holesInZone ∧
      c.pageZoneId f ≠ c.pageZoneId (s + 2 ^ c.pageblockOrder - 1)) := by
    rintro ⟨hholes, hne⟩
    have hvalid : ∀ x, c.pfnValidWithin x = true := fun x => by
      rw [Config.pfnValidWithin, hholes, Bool.true_or]
    exact hne ((hrange f le_rfl (by omega) (hvalid f)).trans
      (hrange _ (by omega) le_rfl (hvalid _)).symm)
  rw [if_neg hbug]
  exact ⟨_, _, rfl, moveLoop_same mt _ z 0 f h hrange⟩

theorem takeOwnership_same (h : Inv c z) (hp : c.InZone p) (k : ℕ) (start mt : MigrateType) :
    ∃ mt' z', takeOwnership c z p k start mt = some (mt', z') ∧ Same c z z' := by
  rw [takeOwnership]
  split_ifs
  · obtain ⟨n, z', heq, hsame⟩ := moveFreepagesBlock_same h hp start
    rw [heq]
    refine ⟨start, _, rfl, ?_⟩
    split_ifs
    · exact hsame.trans (.pageblockType hsame.inv _)
    · exact hsame
  · exact ⟨mt, z, rfl, h, rfl, fun _ => rfl⟩

theorem changePageblockRange_eq (z : Zone) (p k : ℕ) (mt : MigrateType) :
    ∃ t, changePageblockRange c z p k mt = { z with pageblockType := t } := by
  rw [changePageblockRange]
  induction range (2 ^ (k - c.pageblockOrder)) generalizing z with
  | nil => exact ⟨z.pageblockType, rfl⟩
  | cons i l ih => exact ih (setPageblockMigratetype c z (p + i * 2 ^ c.pageblockOrder) mt)

theorem steal_spec (h : Inv c z) (hp : Free z p k) (hle : o ≤ k) (start mt : MigrateType) :
    ∃ z', steal c z p o k start mt = some (p, z') ∧ Allocated c z p o z' := by
  have hzone := (h.usable hp p (start_mem_block p k)).1
  obtain ⟨mt', w, heq, hsame⟩ := takeOwnership_same (h.addNrFree k (-1)) hzone k start mt
  have hw : Free w p k := hsame.free_iff.mpr hp
  have hblocks : blocks w = blocks z := hsame.blocks
  have hsurplus : ∀ n, surplus (w.unlink p) n = surplus z n := by
    intro n
    rw [surplus_unlink hsame.inv hw, hsame.surplus, surplus_addNrFree]
    split_ifs <;> ring
  rw [steal, heq]
  refine ⟨_, rfl, ?_⟩
  split_ifs
  · obtain ⟨t, ht⟩ := changePageblockRange_eq (w.unlink p) p k start
    show Allocated c z p o (expand p o mt' k (changePageblockRange c (w.unlink p) p k start))
    rw [ht]
    exact allocated_of_expand (w := { w.unlink p with pageblockType := t }) hsame.inv hblocks hw
      hle rfl rfl hsurplus mt'
  · exact allocated_of_expand hsame.inv hblocks hw hle rfl rfl hsurplus mt'

theorem rmqueueFallback_spec {r : Option (ℕ × Zone)} (h : Inv c z)
    (hr : rmqueueFallback c z o start = some r) :
    ∃ p z', r = some (p, z') ∧ Allocated c z p o z' := by
  obtain ⟨k, hk, hsome⟩ := exists_of_findSome?_eq_some hr
  obtain ⟨mt, -, hsome⟩ := exists_of_findSome?_eq_some hsome
  split_ifs at hsome
  split at hsome
  · cases hsome
  · rename_i p l hl
    have hle := (mem_orders.mp (mem_reverse.mp hk)).1
    obtain ⟨z', heq, ha⟩ := steal_spec h ⟨mt, hl ▸ mem_cons_self⟩ hle start mt
    exact ⟨p, z', (Option.some.inj hsome).symm.trans heq, ha⟩

end Fallback

/-- No `BUG_ON` is reached, and the zone only changes when a block is handed out. -/
theorem rmqueue_spec (h : Inv c z) (o : ℕ) (mt : MigrateType) :
    rmqueue c z o mt = some (none, z) ∨
      ∃ p z', rmqueue c z o mt = some (some p, z') ∧ Allocated c z p o z' := by
  rw [rmqueue]
  rcases hs : rmqueueSmallest c z o mt with _ | ⟨p, z'⟩
  · by_cases hmt : mt = .reserve
    · rw [if_pos hmt]
      exact .inl rfl
    rw [if_neg hmt]
    rcases hf : rmqueueFallback c z o mt with _ | r
    · rcases hs' : rmqueueSmallest c z o .reserve with _ | ⟨p, z'⟩
      · exact .inl rfl
      · exact .inr ⟨p, z', rfl, rmqueueSmallest_spec h hs'⟩
    · obtain ⟨p, z', rfl, ha⟩ := rmqueueFallback_spec h hf
      exact .inr ⟨p, z', rfl, ha⟩
  · exact .inr ⟨p, z', rfl, rmqueueSmallest_spec h hs⟩

end LinuxKernel.Buddy
