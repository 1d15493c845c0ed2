import LinuxKernel.Base.Run
import LinuxKernel.Buddy.Allocate
import LinuxKernel.Buddy.Coalesce

/-! # Runs of the allocator

Whatever is freed and allocated, the pages that were ever freed are in exactly one free block or
one block that has been handed out, and the free blocks are merged as far as they can be. So
the free blocks only depend on the free pages, not on how it came to them.
-/

namespace LinuxKernel.Buddy

open Aligned Finset Function

variable {c : Config} {z z' : Zone} {p q o k : ℕ} {mt : MigrateType}

/-- A zone, with the pages of the blocks that are handed out and all pages ever freed. -/
structure Sys where
  zone : Zone
  out : List (Finset ℕ)
  seen : Finset ℕ

inductive Act where
  | free (p o : ℕ) (mt : MigrateType)
  | rmqueue (o : ℕ) (mt : MigrateType)

/-- The calls. Only blocks that are aligned, in the zone and not free are freed; they need not
be those that were handed out. -/
inductive Step (c : Config) : Sys → Act → Sys → Prop where
  | free {s : Sys} {p o : ℕ} (mt : MigrateType) (ho : o < c.maxOrder) (hp : 2 ^ o ∣ p)
      (hz : ∀ x ∈ block p o, c.InZone x ∧ c.pfnValidWithin x = true)
      (hout : ∀ x ∈ block p o, x ∉ pages (blocks s.zone)) :
      Step c s (.free p o mt)
        ⟨freeOnePage c s.zone p o mt, s.out.map (· \ block p o), s.seen ∪ block p o⟩
  | rmqueue {s : Sys} {o p : ℕ} {mt : MigrateType} {z : Zone}
      (h : Buddy.rmqueue c s.zone o mt = some (some p, z)) :
      Step c s (.rmqueue o mt) ⟨z, block p o :: s.out, s.seen⟩
  | fail {s : Sys} {o : ℕ} {mt : MigrateType} {z : Zone}
      (h : Buddy.rmqueue c s.zone o mt = some (none, z)) :
      Step c s (.rmqueue o mt) ⟨z, s.out, s.seen⟩

structure Initial (c : Config) (s : Sys) : Prop where
  freeList : ∀ o mt, s.zone.freeList o mt = []
  nrFree : ∀ o, s.zone.nrFree o = 0
  buddy : ∀ p, c.InZone p → (s.zone.page p).buddy = false
  compound : ∀ p, c.InZone p → (s.zone.page p).compound = false
  out : s.out = []
  seen : s.seen = ∅

/-- The blocks on the lists, as often as they are listed. -/
def freeBlocks (c : Config) (z : Zone) : List (ℕ × ℕ) :=
  (List.range c.maxOrder).flatMap fun o =>
    MigrateType.all.flatMap fun mt => (z.freeList o mt).map (·, o)

/-- The pages of all blocks, free or handed out. -/
def holders (c : Config) (s : Sys) : List (Finset ℕ) :=
  ((freeBlocks c s.zone).map fun b => block b.1 b.2) ++ s.out

section Holders

theorem mem_all (mt : MigrateType) : mt ∈ MigrateType.all := by cases mt <;> decide

theorem mem_freeBlocks (h : Inv c z) {b : ℕ × ℕ} : b ∈ freeBlocks c z ↔ b ∈ blocks z := by
  obtain ⟨p, o⟩ := b
  simp only [freeBlocks, List.mem_flatMap, List.mem_range, List.mem_map, Prod.mk.injEq]
  constructor
  · rintro ⟨k, -, mt, -, q, hq, rfl, rfl⟩
    exact ⟨mt, hq⟩
  · rintro ⟨mt, hmem⟩
    exact ⟨o, (h.loose_of_free ⟨mt, hmem⟩).1, mt, mem_all mt, p, hmem, rfl, rfl⟩

theorem nodup_freeBlocks (h : Inv c z) : (freeBlocks c z).Nodup := by
  refine List.nodup_flatMap.mpr ⟨fun o _ => List.nodup_flatMap.mpr ⟨fun mt _ => ?_, ?_⟩, ?_⟩
  · exact (h.nodup o mt).map fun p q heq => (Prod.mk.inj heq).1
  · refine List.Pairwise.imp ?_ (by decide : MigrateType.all.Nodup)
    rintro mt mt' hne ⟨p, k⟩ hm hm'
    obtain ⟨q, hq, heq⟩ := List.mem_map.mp hm
    obtain ⟨q', hq', heq'⟩ := List.mem_map.mp hm'
    cases heq
    cases heq'
    exact hne (h.one hq hq')
  · refine List.Pairwise.imp ?_ List.nodup_range
    rintro o o' hne ⟨p, k⟩ hm hm'
    obtain ⟨mt, -, hm⟩ := List.mem_flatMap.mp hm
    obtain ⟨mt', -, hm'⟩ := List.mem_flatMap.mp hm'
    obtain ⟨q, -, heq⟩ := List.mem_map.mp hm
    obtain ⟨q', -, heq'⟩ := List.mem_map.mp hm'
    exact hne ((Prod.mk.inj heq).2.trans (Prod.mk.inj heq').2.symm)

theorem pairwise_freeBlocks (h : Inv c z) :
    ((freeBlocks c z).map fun b => block b.1 b.2).Pairwise Disjoint := by
  rw [List.pairwise_map]
  refine (nodup_freeBlocks h).imp_of_mem ?_
  rintro ⟨p, o⟩ ⟨q, k⟩ hp hq hne
  rw [disjoint_left]
  intro x hx hx'
  obtain ⟨rfl, rfl⟩ :=
    h.canonical.disjoint ((mem_freeBlocks h).mp hp) ((mem_freeBlocks h).mp hq) hx hx'
  exact hne rfl

theorem countP_eq_one {l : List (Finset ℕ)} {x : ℕ} (hl : l.Pairwise Disjoint)
    (hx : ∃ b ∈ l, x ∈ b) : l.countP (x ∈ ·) = 1 := by
  induction l with
  | nil =>
    obtain ⟨b, hb, -⟩ := hx
    cases hb
  | cons b l ih =>
    rw [List.pairwise_cons] at hl
    by_cases hxb : x ∈ b
    · have hzero : l.countP (x ∈ ·) = 0 := by
        rw [List.countP_eq_zero]
        intro b' hb'
        rw [decide_eq_true_eq]
        exact disjoint_left.mp (hl.1 b' hb') hxb
      simp [hzero, hxb]
    · obtain ⟨b', hb', hxb'⟩ := hx
      rcases List.mem_cons.mp hb' with rfl | hb'
      · exact (hxb hxb').elim
      · simp [ih hl.2 ⟨b', hb', hxb'⟩, hxb]

end Holders

structure SysInv (c : Config) (s : Sys) : Prop where
  inv : Inv c s.zone
  counted : ∀ n, surplus s.zone n = 0
  outside : ∀ b ∈ s.out, ∀ x ∈ b, x ∉ pages (blocks s.zone)
  apart : s.out.Pairwise Disjoint
  covered : ∀ x ∈ s.seen, x ∈ pages (blocks s.zone) ∨ ∃ b ∈ s.out, x ∈ b

namespace SysInv

variable {s t : Sys} {a : Act}

theorem of_initial (h : Initial c s) : SysInv c s := by
  have hfree : ∀ p o, ¬ Free s.zone p o := by
    rintro p o ⟨mt, hmem⟩
    rw [h.freeList] at hmem
    cases hmem
  have hblocks : blocks s.zone = ∅ := Set.eq_empty_of_forall_notMem fun b => hfree b.1 b.2
  constructor
  · constructor
    · intro o mt
      rw [h.freeList]
      exact List.nodup_nil
    · intro p o mt mt' hmem
      exact (hfree p o ⟨mt, hmem⟩).elim
    · exact fun hp => (hfree _ _ hp).elim
    · intro p hz hb
      rw [h.buddy p hz] at hb
      cases hb
    · exact fun hp => (hfree _ _ hp).elim
    · exact fun hz => h.compound _ hz
    · rw [hblocks]
      exact .empty _
  · intro n
    rw [surplus, total, h.nrFree]
    simp [h.freeList]
  · rw [h.out]
    exact fun b hb => by cases hb
  · rw [h.out]
    exact .nil
  · rw [h.seen]
    exact fun x hx => by cases hx

theorem free (h : SysInv c s) (hp : Loose c s.zone p o) (mt : MigrateType) :
    SysInv c ⟨freeOnePage c s.zone p o mt, s.out.map (· \ block p o), s.seen ∪ block p o⟩ := by
  have hf := freeOnePage_spec h.inv hp mt
  constructor
  · exact hf.inv
  · exact fun n => (hf.surplus n).trans (h.counted n)
  · intro b hb x hx
    obtain ⟨b', hb', rfl⟩ := List.mem_map.mp hb
    rw [mem_sdiff] at hx
    rw [hf.pages, not_or]
    exact ⟨h.outside b' hb' x hx.1, hx.2⟩
  · rw [List.pairwise_map]
    exact h.apart.imp fun hd => hd.mono sdiff_subset sdiff_subset
  · intro x hx
    rw [hf.pages]
    by_cases hin : x ∈ block p o
    · exact .inl (.inr hin)
    · rcases h.covered x ((mem_union.mp hx).resolve_right hin) with hx | ⟨b, hb, hx⟩
      · exact .inl (.inl hx)
      · exact .inr ⟨b \ block p o, List.mem_map_of_mem hb, mem_sdiff.mpr ⟨hx, hin⟩⟩

theorem loose_free (h : SysInv c s) (hq : Loose c s.zone q k) (hp : Loose c s.zone p o)
    (hd : Disjoint (block p o) (block q k)) (mt : MigrateType) :
    Loose c (freeOnePage c s.zone q k mt) p o := by
  refine ⟨hp.order_lt, hp.aligned, hp.usable, fun x hx hmem => ?_⟩
  rw [(freeOnePage_spec h.inv hq mt).pages] at hmem
  exact hmem.elim (hp.out x hx) (disjoint_left.mp hd hx)

theorem allocate (h : SysInv c s) (ha : Allocated c s.zone p o z) :
    SysInv c ⟨z, block p o :: s.out, s.seen⟩ := by
  constructor
  · exact ha.inv
  · exact fun n => (ha.surplus n).trans (h.counted n)
  · intro b hb x hx hmem
    rw [ha.pages] at hmem
    rcases List.mem_cons.mp hb with rfl | hb
    · exact hmem.2 hx
    · exact h.outside b hb x hx hmem.1
  · refine List.pairwise_cons.mpr ⟨fun b hb => ?_, h.apart⟩
    rw [disjoint_left]
    exact fun x hx hx' => h.outside b hb x hx' (ha.free x hx)
  · intro x hx
    rw [ha.pages]
    by_cases hin : x ∈ block p o
    · exact .inr ⟨_, List.mem_cons_self, hin⟩
    · rcases h.covered x hx with hx | ⟨b, hb, hx⟩
      · exact .inl ⟨hx, hin⟩
      · exact .inr ⟨b, List.mem_cons_of_mem _ hb, hx⟩

theorem step (h : SysInv c s) (hs : Step c s a t) : SysInv c t := by
  cases hs with
  | free mt ho hp hz hout => exact h.free ⟨ho, hp, hz, hout⟩ mt
  | rmqueue heq =>
    rcases rmqueue_spec h.inv _ _ with hr | ⟨p, z', hr, ha⟩
    · rw [hr] at heq
      cases heq
    · rw [hr] at heq
      cases heq
      exact h.allocate ha
  | fail heq =>
    rcases rmqueue_spec h.inv _ _ with hr | ⟨p, z', hr, ha⟩
    · rw [hr] at heq
      cases heq
      exact h
    · rw [hr] at heq
      cases heq

theorem run {acts : List Act} (hs : Initial c s) (h : Run (Step c) s acts t) : SysInv c t :=
  h.invariant step (of_initial hs)

theorem pairwise_holders (h : SysInv c s) : (holders c s).Pairwise Disjoint := by
  refine List.pairwise_append.mpr ⟨pairwise_freeBlocks h.inv, h.apart, ?_⟩
  intro b hb b' hb'
  obtain ⟨⟨p, o⟩, hmem, rfl⟩ := List.mem_map.mp hb
  rw [disjoint_left]
  exact fun x hx hx' => h.outside b' hb' x hx' ⟨p, o, (mem_freeBlocks h.inv).mp hmem, hx⟩

theorem mem_holders (h : SysInv c s) {x : ℕ} (hx : x ∈ s.seen) : ∃ b ∈ holders c s, x ∈ b := by
  rcases h.covered x hx with ⟨p, o, hp, hx⟩ | ⟨b, hb, hx⟩
  · refine ⟨block p o, List.mem_append_left _ ?_, hx⟩
    exact List.mem_map_of_mem ((mem_freeBlocks h.inv).mpr hp)
  · exact ⟨b, List.mem_append_right _ hb, hx⟩

end SysInv

section Small

def smallConfig : Config where
  maxOrder := 3
  pageblockOrder := 1
  holesInZone := false
  pageGroupByMobilityDisabled := false
  pfnValid _ := true
  pageZoneId p := if p < 8 then 0 else 1
  zone := 0
  zoneStartPfn := 0
  spannedPages := 8
  two_le_maxOrder := by decide
  pageblockOrder_pos := by decide
  in_span p hp := by
    split_ifs at hp
    omega
  pageblock_zone p q hp heq hstart hend hvalid := if_pos (by omega)

def emptyZone : Sys where
  zone := ⟨fun _ _ => [], fun _ => 0, fun _ => ⟨false, 0, false, false, 0, 0⟩, fun _ => .movable⟩
  out := []
  seen := ∅

theorem emptyZone_initial : Initial smallConfig emptyZone :=
  ⟨fun _ _ => rfl, fun _ => rfl, fun _ _ => rfl, fun _ _ => rfl, rfl, rfl⟩

theorem not_mem_pages_empty (x : ℕ) : x ∉ pages (blocks emptyZone.zone) := by
  rintro ⟨p, o, ⟨mt, hmem⟩, -⟩
  cases hmem

theorem small_run : ∃ t, Run (Step smallConfig) emptyZone
    [.free 0 2 .movable, .rmqueue 0 .movable] t ∧ t.out = [{0}] ∧
      t.zone.freeList 1 .movable = [2] := by
  refine ⟨_, .cons (.free .movable (by decide) (by decide) ?_ ?_)
    (.cons (.rmqueue rfl) (.nil _)), rfl, rfl⟩
  · decide
  · exact fun x _ => not_mem_pages_empty x

theorem loose_small {p o : ℕ} (ho : o < 3) (hp : 2 ^ o ∣ p) (hlt : ∀ x ∈ block p o, x < 8) :
    Loose smallConfig emptyZone.zone p o :=
  ⟨ho, hp, fun x hx => ⟨if_pos (hlt x hx), rfl⟩, fun x _ => not_mem_pages_empty x⟩

def afterTwo : Sys :=
  ⟨freeOnePage smallConfig (freeOnePage smallConfig emptyZone.zone 2 1 .movable) 4 0 .movable,
    [], ∅ ∪ block 2 1 ∪ block 4 0⟩

theorem afterTwo_reached : Run (Step smallConfig) emptyZone
    [.free 2 1 .movable, .free 4 0 .movable] afterTwo ∧ Heads afterTwo.zone ∧
      Loose smallConfig afterTwo.zone 0 0 ∧ Loose smallConfig afterTwo.zone 1 0 := by
  have h₀ : SysInv smallConfig emptyZone := .of_initial emptyZone_initial
  have hp : Loose smallConfig emptyZone.zone 2 1 := loose_small (by decide) (by decide) (by decide)
  have hq := h₀.loose_free hp (loose_small (p := 4) (o := 0) (by decide) (by decide) (by decide))
    (by decide) .movable
  have hloose {p} (h : Loose smallConfig emptyZone.zone p 0) (h₁ : Disjoint (block p 0) (block 2 1))
      (h₂ : Disjoint (block p 0) (block 4 0)) : Loose smallConfig afterTwo.zone p 0 :=
    (h₀.free hp .movable).loose_free hq (h₀.loose_free hp h h₁ .movable) h₂ .movable
  refine ⟨.cons (.free _ hp.1 hp.2 hp.3 hp.4) (.cons (.free _ hq.1 hq.2 hq.3 hq.4) (.nil _)),
    ?_, hloose (loose_small (by decide) (by decide) (by decide)) (by decide) (by decide),
    hloose (loose_small (by decide) (by decide) (by decide)) (by decide) (by decide)⟩
  have hpage : afterTwo.zone.page = update (update emptyZone.zone.page 2
    ⟨true, 1, false, false, 0, 0⟩) 4 ⟨true, 0, false, false, 0, 0⟩ := rfl
  intro x
  rw [hpage, update_apply, update_apply]
  split_ifs with h h
  · exact fun _ => one_dvd x
  · subst h
    decide
  · nofun

end Small

section Main

variable {s t : Sys} {acts : List Act}

/-- Nothing is lost and nothing handed out twice. -/
theorem buddy_allocator_safe (hs : Initial c s) (h : Run (Step c) s acts t) :
    (∀ o mt p, p ∈ t.zone.freeList o mt → o < c.maxOrder ∧ 2 ^ o ∣ p ∧
      (t.zone.page p).buddy = true ∧ (t.zone.page p).priv = o) ∧
    (∀ p, c.InZone p → (t.zone.page p).buddy = true → ∃ o mt, p ∈ t.zone.freeList o mt) ∧
    (holders c t).Pairwise Disjoint ∧
    (∀ x ∈ t.seen, (holders c t).countP (x ∈ ·) = 1) ∧
    ∀ o, t.zone.nrFree o = total t.zone o := by
  have hinv := SysInv.run hs h
  refine ⟨fun o mt p hp => ?_, fun p hz hb => ?_, hinv.pairwise_holders, fun x hx => ?_,
    fun o => ?_⟩
  · obtain ⟨ho, hal⟩ := hinv.inv.loose_of_free ⟨mt, hp⟩
    exact ⟨ho, hal, hinv.inv.flag ⟨mt, hp⟩⟩
  · exact ⟨_, hinv.inv.only hz hb⟩
  · exact countP_eq_one hinv.pairwise_holders (hinv.mem_holders hx)
  · exact sub_eq_zero.mp (hinv.counted o)

theorem buddy_allocator_safe_small : ∃ t, t.out = [{0}] ∧
    (holders smallConfig t).Pairwise Disjoint ∧ ∀ o, t.zone.nrFree o = total t.zone o := by
  obtain ⟨t, ht, hout, -⟩ := small_run
  obtain ⟨-, -, hdisj, -, hcount⟩ := buddy_allocator_safe emptyZone_initial ht
  exact ⟨t, hout, hdisj, hcount⟩

/-- The free blocks are determined by the free pages. -/
theorem buddy_coalescing_canonical (hs : Initial c s) (h : Run (Step c) s acts t) :
    (∀ p o, o + 1 < c.maxOrder → Free t.zone p o → ¬ Free t.zone (buddy p o) o) ∧
    (∀ s' acts' t', Initial c s' → Run (Step c) s' acts' t' →
      pages (blocks t'.zone) = pages (blocks t.zone) → blocks t'.zone = blocks t.zone) ∧
    ∀ o mt mt' p z, rmqueue c t.zone o mt = some (some p, z) →
      blocks (freeOnePage c z p o mt') = blocks t.zone := by
  have hinv := (SysInv.run hs h).inv
  refine ⟨fun p o ho hp => hinv.canonical.coalesced hp ho, ?_, ?_⟩
  · intro s' acts' t' hs' h' heq
    exact (SysInv.run hs' h').inv.canonical.eq_of_pages hinv.canonical heq
  · intro o mt mt' p z hr
    have ha : Allocated c t.zone p o z := by
      rcases rmqueue_spec hinv o mt with hr' | ⟨p', z', hr', ha⟩
      · rw [hr'] at hr
        cases hr
      · rw [hr'] at hr
        cases hr
        exact ha
    have hloose : Loose c z p o :=
      ⟨ha.order_lt, ha.aligned, ha.usable, fun x hx hmem => ((ha.pages x).mp hmem).2 hx⟩
    have hf := freeOnePage_spec ha.inv hloose mt'
    apply hf.inv.canonical.eq_of_pages hinv.canonical
    ext x
    have hfree := ha.free x
    rw [hf.pages, ha.pages]
    tauto

theorem buddy_coalescing_canonical_small : ∃ t : Sys, t.zone.freeList 1 .movable = [2] ∧
    ¬ Free t.zone 0 1 := by
  obtain ⟨t, ht, -, hfree⟩ := small_run
  obtain ⟨halone, -, -⟩ := buddy_coalescing_canonical emptyZone_initial ht
  exact ⟨t, hfree, halone 2 1 (by decide) ⟨.movable, hfree ▸ List.mem_cons_self⟩⟩

/-- A block is put where it should be, except an upper half whose parent may soon be merged. -/
theorem free_one_page_placed_iff (hs : Initial c s) (h : Run (Step c) s acts t)
    (hz : Heads t.zone) (hp : Loose c t.zone p o) {i : ℕ}
    (heq : mergeLoop c (c.maxOrder - 1 - o) t.zone p (p &&& (2 ^ c.maxOrder - 1)) o = (z', q, i, k))
    (hk : k < c.maxOrder - 2) (mt : MigrateType) :
    ((MergesSoon c z' q k → (freeOnePage c t.zone p o mt).freeList k mt = z'.freeList k mt ++ [q]) ∧
      (¬ MergesSoon c z' q k →
        (freeOnePage c t.zone p o mt).freeList k mt = q :: z'.freeList k mt)) ↔
      2 ^ (k + 1) ∣ q ∨ ¬ MergesSoon c z' q k ∨ z'.freeList k mt = [] := by
  have hinv := (SysInv.run hs h).inv
  have hz' : Heads z' := by
    have := mergeLoop_heads (c := c) (p := p) (o := o) hz (c.maxOrder - 1 - o)
      (p &&& (2 ^ c.maxOrder - 1))
    rwa [heq] at this
  obtain ⟨_, _, _, heq', hm⟩ := mergeLoop_spec _ hinv hp rfl
  rw [← Nat.and_two_pow_sub_one_eq_mod, heq] at heq'
  cases heq'
  have hfree : (freeOnePage c t.zone p o mt).freeList k mt =
      (link c z' q (q % 2 ^ c.maxOrder) k mt).freeList k mt := by
    rw [freeOnePage]
    simp only [hinv.plain hp.zone, Bool.false_eq_true, if_false, ne_eq, not_true_eq_false, heq]
  rw [hfree, link_freeList]
  have hhigh := higherIsBuddy_iff hm.inv hz' hm.loose hk
  by_cases hs : MergesSoon c z' q k
  · by_cases hd : 2 ^ (k + 1) ∣ q
    · simp [hhigh, hs, hd]
    · rcases hl : z'.freeList k mt with _ | ⟨x, l⟩
      · simp
      · have hne : q ≠ x := by
          rintro rfl
          exact hm.loose.out q (start_mem_block q k)
            ⟨q, k, ⟨mt, hl ▸ List.mem_cons_self⟩, start_mem_block q k⟩
        simp [hhigh, hd, hne]
  · simp [hhigh, hs]

theorem free_one_page_placed_lower :
    (freeOnePage smallConfig afterTwo.zone 0 0 .movable).freeList 0 .movable = [4, 0] := by
  obtain ⟨hrun, hz, hp, -⟩ := afterTwo_reached
  exact ((free_one_page_placed_iff emptyZone_initial hrun hz hp rfl (by decide) .movable).mpr
    (.inl (by decide))).1 ⟨rfl, .movable, by decide⟩

theorem free_one_page_upper_at_head :
    (∃ acts, Run (Step smallConfig) emptyZone acts afterTwo) ∧ Heads afterTwo.zone ∧
      Loose smallConfig afterTwo.zone 1 0 ∧ MergesSoon smallConfig afterTwo.zone 1 0 ∧
      afterTwo.zone.freeList 0 .movable = [4] ∧
      (freeOnePage smallConfig afterTwo.zone 1 0 .movable).freeList 0 .movable = [1, 4] :=
  ⟨⟨_, afterTwo_reached.1⟩, afterTwo_reached.2.1, afterTwo_reached.2.2.2,
    ⟨rfl, .movable, by decide⟩, rfl, rfl⟩

end Main

end LinuxKernel.Buddy
