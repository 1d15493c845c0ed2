import LinuxKernel.Buddy.Model

/-! # The free lists of a zone

All that the allocator does to its lists is to unlink a free block, to link a block whose
pages are not free, or to move a block between two lists. The three operations keep the lists,
the page flags and the set of free blocks consistent.
-/

namespace LinuxKernel.Buddy

open Aligned List Function Set

variable {c : Config} {z : Zone} {p q o k : ℕ} {mt : MigrateType}

/-- Is a block on one of the lists of its order? -/
def Free (z : Zone) (p o : ℕ) : Prop := ∃ mt, p ∈ z.freeList o mt

def blocks (z : Zone) : Set (ℕ × ℕ) := {b | Free z b.1 b.2}

def total (z : Zone) (o : ℕ) : ℤ :=
  (MigrateType.all.map fun mt => ((z.freeList o mt).length : ℤ)).sum

/-- How far `nr_free` is from the lists. -/
def surplus (z : Zone) (o : ℕ) : ℤ := z.nrFree o - total z o

/-- The lists, the flags of the pages and the free blocks agree. -/
structure Inv (c : Config) (z : Zone) : Prop where
  nodup : ∀ o mt, (z.freeList o mt).Nodup
  one : ∀ {p o mt mt'}, p ∈ z.freeList o mt → p ∈ z.freeList o mt' → mt = mt'
  flag : ∀ {p o}, Free z p o → (z.page p).buddy = true ∧ (z.page p).priv = o
  only : ∀ {p}, c.InZone p → (z.page p).buddy = true → Free z p (z.page p).priv
  usable : ∀ {p o}, Free z p o → ∀ x ∈ block p o, c.InZone x ∧ c.pfnValidWithin x = true
  plain : ∀ {p}, c.InZone p → (z.page p).compound = false
  canonical : Canonical c.maxOrder (blocks z)

structure Loose (c : Config) (z : Zone) (p o : ℕ) : Prop where
  order_lt : o < c.maxOrder
  aligned : 2 ^ o ∣ p
  usable : ∀ x ∈ block p o, c.InZone x ∧ c.pfnValidWithin x = true
  out : ∀ x ∈ block p o, x ∉ pages (blocks z)

namespace Zone

def unlink (z : Zone) (p : ℕ) : Zone := (z.listDel p).rmvPageOrder p

/-- Put a block on a list, which becomes `l`. -/
def linkAs (z : Zone) (p o : ℕ) (mt : MigrateType) (l : List ℕ) : Zone :=
  (z.setList o mt l).setPageOrder p o

end Zone

section Basic

@[simp] theorem addNrFree_freeList (n : ℤ) : (z.addNrFree o n).freeList = z.freeList := rfl

theorem surplus_addNrFree (z : Zone) (o k : ℕ) (n : ℤ) :
    surplus (z.addNrFree o n) k = surplus z k + if k = o then n else 0 := by
  show update z.nrFree o (z.nrFree o + n) k - total z k = z.nrFree k - total z k + _
  by_cases hk : k = o
  · subst hk
    rw [update_self, if_pos rfl]
    ring
  · rw [update_of_ne hk, if_neg hk, add_zero]

theorem sum_all_eq {f g : MigrateType → ℤ} {d : ℤ} (mt : MigrateType) (h : g mt = f mt + d)
    (hne : ∀ mt', mt' ≠ mt → g mt' = f mt') :
    (MigrateType.all.map g).sum = (MigrateType.all.map f).sum + d := by
  cases mt <;> simp only [MigrateType.all, map_cons, map_nil, sum_cons] <;> rw [h] <;>
    simp only [hne, ne_eq, reduceCtorEq, not_false_eq_true] <;> ring

theorem Inv.congr {z' : Zone} (h : Inv c z) (hlist : z'.freeList = z.freeList)
    (hpage : z'.page = z.page) : Inv c z' := by
  obtain ⟨freeList, nrFree, page, pageblockType⟩ := z
  cases hlist
  cases hpage
  exact ⟨h.nodup, h.one, h.flag, h.only, h.usable, h.plain, h.canonical⟩

theorem Inv.addNrFree (h : Inv c z) (o : ℕ) (n : ℤ) : Inv c (z.addNrFree o n) := h.congr rfl rfl

theorem blocks_congr {z' : Zone} (h : z'.freeList = z.freeList) : blocks z' = blocks z := by
  ext ⟨p, o⟩
  simp only [blocks, Free, h]

theorem Loose.congr {z' : Zone} (h : Loose c z p o) (hlist : z'.freeList = z.freeList) :
    Loose c z' p o :=
  ⟨h.order_lt, h.aligned, h.usable, (blocks_congr hlist).symm ▸ h.out⟩

theorem Inv.order_unique (h : Inv c z) (ho : Free z p o) (hk : Free z p k) : o = k :=
  (h.flag ho).2.symm.trans (h.flag hk).2

theorem Inv.loose_of_free (h : Inv c z) (hp : Free z p o) : o < c.maxOrder ∧ 2 ^ o ∣ p :=
  ⟨h.canonical.order_lt hp, h.canonical.aligned hp⟩

end Basic

section Unlink

theorem mem_unlink (h : Inv c z) : q ∈ (z.unlink p).freeList o mt ↔ q ≠ p ∧ q ∈ z.freeList o mt :=
  (h.nodup o mt).mem_erase_iff

theorem free_unlink (h : Inv c z) : Free (z.unlink p) q k ↔ q ≠ p ∧ Free z q k := by
  simp only [Free, mem_unlink h, exists_and_left]

theorem blocks_unlink (h : Inv c z) (hp : Free z p o) :
    blocks (z.unlink p) = blocks z \ {(p, o)} := by
  ext ⟨q, k⟩
  simp only [blocks, free_unlink h, mem_sdiff, mem_singleton_iff,
    Prod.mk.injEq, not_and]
  constructor
  · rintro ⟨hne, hq⟩
    exact ⟨hq, fun heq => (hne heq).elim⟩
  · rintro ⟨hq, hne⟩
    refine ⟨fun heq => ?_, hq⟩
    subst heq
    exact hne rfl (h.order_unique hq hp)

theorem unlink_page_self : (z.unlink p).page p = { z.page p with buddy := false, priv := 0 } :=
  update_self ..

theorem unlink_page_of_ne (h : q ≠ p) : (z.unlink p).page q = z.page q := update_of_ne h ..

theorem unlink_compound : ((z.unlink p).page q).compound = (z.page q).compound := by
  by_cases h : q = p
  · subst h
    rw [unlink_page_self]
    rfl
  · rw [unlink_page_of_ne h]

theorem Inv.unlink (h : Inv c z) (hp : Free z p o) : Inv c (z.unlink p) where
  nodup o mt := (h.nodup o mt).erase p
  one := by
    intro q k mt mt' hq hq'
    exact h.one ((mem_unlink h).mp hq).2 ((mem_unlink h).mp hq').2
  flag := by
    intro q k hq
    obtain ⟨hne, hq⟩ := (free_unlink h).mp hq
    rw [unlink_page_of_ne hne]
    exact h.flag hq
  only := by
    intro q hz hb
    by_cases hne : q = p
    · subst hne
      rw [unlink_page_self] at hb
      cases hb
    · rw [unlink_page_of_ne hne] at hb ⊢
      exact (free_unlink h).mpr ⟨hne, h.only hz hb⟩
  usable := by
    intro q k hq
    exact h.usable ((free_unlink h).mp hq).2
  plain := by
    intro q hz
    rw [unlink_compound]
    exact h.plain hz
  canonical := by
    rw [blocks_unlink h hp]
    exact h.canonical.subset sdiff_subset

theorem total_unlink (h : Inv c z) (hp : Free z p o) (k : ℕ) :
    total (z.unlink p) k = total z k - if k = o then 1 else 0 := by
  by_cases hk : k = o
  · subst hk
    obtain ⟨mt, hmem⟩ := hp
    apply sum_all_eq mt
    · have hpos := length_pos_of_mem hmem
      show (((z.freeList k mt).erase p).length : ℤ) = _
      rw [length_erase_of_mem hmem]
      omega
    · intro mt' hne
      show (((z.freeList k mt').erase p).length : ℤ) = _
      rw [erase_of_not_mem fun hmem' => hne (h.one hmem' hmem)]
  · rw [if_neg hk, sub_zero]
    have hlist : ∀ mt, (z.unlink p).freeList k mt = z.freeList k mt := fun mt =>
      erase_of_not_mem fun hmem => hk (h.order_unique ⟨mt, hmem⟩ hp)
    simp only [total, hlist]

theorem surplus_unlink (h : Inv c z) (hp : Free z p o) (k : ℕ) :
    surplus (z.unlink p) k = surplus z k + if k = o then 1 else 0 := by
  rw [surplus, surplus, total_unlink h hp]
  show z.nrFree k - _ = _
  ring

end Unlink

section Link

variable {l : List ℕ}

theorem linkAs_freeList_self : (z.linkAs p o mt l).freeList o mt = l := by
  show update z.freeList o _ o mt = l
  rw [update_self, update_self]

theorem linkAs_freeList_of_ne {mt' : MigrateType} (h : k ≠ o ∨ mt' ≠ mt) :
    (z.linkAs p o mt l).freeList k mt' = z.freeList k mt' := by
  show update z.freeList o _ k mt' = _
  by_cases hk : k = o
  · subst hk
    rw [update_self, update_of_ne (h.resolve_left (not_not.mpr rfl))]
  · rw [update_of_ne hk]

section

variable (hl : l.Perm (p :: z.freeList o mt))
include hl

theorem mem_linkAs {mt' : MigrateType} :
    q ∈ (z.linkAs p o mt l).freeList k mt' ↔ (q = p ∧ k = o ∧ mt' = mt) ∨ q ∈ z.freeList k mt' := by
  by_cases h : k = o ∧ mt' = mt
  · obtain ⟨rfl, rfl⟩ := h
    rw [linkAs_freeList_self, hl.mem_iff, mem_cons]
    tauto
  · rw [linkAs_freeList_of_ne (by tauto)]
    tauto

theorem free_linkAs : Free (z.linkAs p o mt l) q k ↔ (q = p ∧ k = o) ∨ Free z q k := by
  simp only [Free, mem_linkAs hl, exists_or, exists_and_left, exists_eq, and_true]

theorem blocks_linkAs : blocks (z.linkAs p o mt l) = insert (p, o) (blocks z) := by
  ext ⟨q, k⟩
  simp only [blocks, mem_ofPred_eq, free_linkAs hl, mem_insert_iff, Prod.mk.injEq]

end

theorem linkAs_page_self :
    (z.linkAs p o mt l).page p = { z.page p with buddy := true, priv := o } :=
  update_self ..

theorem linkAs_page_of_ne (h : q ≠ p) : (z.linkAs p o mt l).page q = z.page q := update_of_ne h ..

theorem linkAs_compound : ((z.linkAs p o mt l).page q).compound = (z.page q).compound := by
  by_cases h : q = p
  · subst h
    rw [linkAs_page_self]
    rfl
  · rw [linkAs_page_of_ne h]

theorem Loose.not_free (h : Loose c z p o) : ¬ Free z p k := fun hp =>
  h.out p (start_mem_block p o) ⟨p, k, hp, start_mem_block p k⟩

theorem Inv.linkAs (h : Inv c z) (hp : Loose c z p o)
    (hb : o + 1 < c.maxOrder → ¬ Free z (buddy p o) o) (hl : l.Perm (p :: z.freeList o mt)) :
    Inv c (z.linkAs p o mt l) where
  nodup k mt' := by
    by_cases heq : k = o ∧ mt' = mt
    · obtain ⟨rfl, rfl⟩ := heq
      rw [linkAs_freeList_self, hl.nodup_iff, nodup_cons]
      exact ⟨fun hmem => hp.not_free ⟨mt', hmem⟩, h.nodup k mt'⟩
    · rw [linkAs_freeList_of_ne (by tauto)]
      exact h.nodup k mt'
  one := by
    intro q k mt₁ mt₂ h₁ h₂
    rcases (mem_linkAs hl).mp h₁ with ⟨heq, -, heq₁⟩ | hm₁ <;>
      rcases (mem_linkAs hl).mp h₂ with ⟨heq', -, heq₂⟩ | hm₂
    · exact heq₁.trans heq₂.symm
    · exact (hp.not_free ⟨mt₂, heq ▸ hm₂⟩).elim
    · exact (hp.not_free ⟨mt₁, heq' ▸ hm₁⟩).elim
    · exact h.one hm₁ hm₂
  flag := by
    intro q k hq
    rcases (free_linkAs hl).mp hq with ⟨rfl, rfl⟩ | hq
    · rw [linkAs_page_self]
      exact ⟨rfl, rfl⟩
    · rw [linkAs_page_of_ne fun heq => hp.not_free (heq ▸ hq)]
      exact h.flag hq
  only := by
    intro q hz hbuddy
    apply (free_linkAs hl).mpr
    by_cases hne : q = p
    · subst hne
      rw [linkAs_page_self]
      exact .inl ⟨rfl, rfl⟩
    · rw [linkAs_page_of_ne hne] at hbuddy ⊢
      exact .inr (h.only hz hbuddy)
  usable := by
    intro q k hq
    rcases (free_linkAs hl).mp hq with ⟨rfl, rfl⟩ | hq
    · exact hp.usable
    · exact h.usable hq
  plain := by
    intro q hz
    rw [linkAs_compound]
    exact h.plain hz
  canonical := by
    rw [blocks_linkAs hl]
    exact h.canonical.insert hp.order_lt hp.aligned hp.out hb

variable (hl : l.Perm (p :: z.freeList o mt))
include hl

theorem total_linkAs (k : ℕ) :
    total (z.linkAs p o mt l) k = total z k + if k = o then 1 else 0 := by
  by_cases hk : k = o
  · subst hk
    rw [if_pos rfl]
    apply sum_all_eq mt
    · rw [linkAs_freeList_self, hl.length_eq]
      rfl
    · intro mt' hne
      rw [linkAs_freeList_of_ne (.inr hne)]
  · simp only [total, linkAs_freeList_of_ne (.inl hk), if_neg hk, add_zero]

theorem surplus_linkAs (k : ℕ) :
    surplus (z.linkAs p o mt l) k = surplus z k - if k = o then 1 else 0 := by
  rw [surplus, surplus, total_linkAs hl]
  show z.nrFree k - _ = _
  ring

end Link

section Move

theorem move_eq (h : (z.page p).buddy = true ∧ (z.page p).priv = o) :
    (z.listDel p).listAdd p o mt =
      (z.unlink p).linkAs p o mt (p :: (z.unlink p).freeList o mt) := by
  have hpage : z.page p = { z.page p with buddy := true, priv := o } := by
    obtain ⟨hbuddy, hpriv⟩ := h
    cases hpg : z.page p
    rw [hpg] at hbuddy hpriv
    subst hbuddy hpriv
    rfl
  have hupdate : z.page = ((z.unlink p).linkAs p o mt (p :: (z.unlink p).freeList o mt)).page := by
    funext q
    by_cases hq : q = p
    · subst hq
      rw [linkAs_page_self, unlink_page_self]
      exact hpage
    · rw [linkAs_page_of_ne hq, unlink_page_of_ne hq]
  show Zone.mk _ _ z.page _ = _
  rw [hupdate]
  rfl

variable (h : Inv c z) (hp : Free z p o)
include h hp

theorem loose_unlink : Loose c (z.unlink p) p o where
  order_lt := (h.loose_of_free hp).1
  aligned := (h.loose_of_free hp).2
  usable := h.usable hp
  out x hx hmem := by
    rw [blocks_unlink h hp, h.canonical.mem_pages_diff hp] at hmem
    exact hmem.2 hx

theorem Inv.move (mt : MigrateType) : Inv c ((z.listDel p).listAdd p o mt) := by
  rw [move_eq (h.flag hp)]
  apply (h.unlink hp).linkAs (loose_unlink h hp) _ (.refl _)
  intro ho hb
  exact h.canonical.coalesced hp ho ((free_unlink h).mp hb).2

theorem blocks_move (mt : MigrateType) : blocks ((z.listDel p).listAdd p o mt) = blocks z := by
  rw [move_eq (h.flag hp), blocks_linkAs (.refl _), blocks_unlink h hp, insert_sdiff_singleton]
  exact insert_eq_of_mem hp

theorem surplus_move (mt : MigrateType) (k : ℕ) :
    surplus ((z.listDel p).listAdd p o mt) k = surplus z k := by
  rw [move_eq (h.flag hp), surplus_linkAs (.refl _), surplus_unlink h hp]
  ring

end Move

end LinuxKernel.Buddy
