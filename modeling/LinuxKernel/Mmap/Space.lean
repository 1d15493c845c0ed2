import LinuxKernel.Mmap.Model

/-! # Well formed address spaces

The list, the tree and the count of areas agree, and the areas are ordered by address and disjoint.
Then `find_vma` gives the first area that ends above an address.
-/

namespace LinuxKernel.Mmap

open Dlist List Option

section Words

theorem uadd_of_lt {a b : ℕ} (h : a + b < 2 ^ 64) : uadd a b = a + b := Nat.mod_eq_of_lt h

theorem usub_of_le {a b : ℕ} (h : b ≤ a) (ha : a < 2 ^ 64) : usub a b = a - b := by
  rw [usub, show a + 2 ^ 64 - b = a - b + 2 ^ 64 by omega, Nat.add_mod_right,
    Nat.mod_eq_of_lt (by omega)]

end Words

def Mm.areas (mm : Mm) : List ℕ := mm.mmRb.inorder

structure Vma.Proper (v : Vma) : Prop where
  nonempty : v.vmStart < v.vmEnd
  start_aligned : pageSize ∣ v.vmStart
  end_aligned : pageSize ∣ v.vmEnd
  end_lt : v.vmEnd < 2 ^ 64

structure Mm.Agrees (mm : Mm) : Prop where
  head : mm.mmap = mm.areas.head?
  links : Seg mm.vmNext mm.vmPrev none mm.areas none
  count : mm.mapCount = mm.areas.length
  cache : ∀ c, mm.mmapCache = some c → c ∈ mm.areas

structure Mm.WellFormed (mm : Mm) : Prop extends mm.Agrees where
  proper : ∀ x ∈ mm.areas, (mm.vma x).Proper
  sorted : mm.areas.Pairwise fun x y => (mm.vma x).vmEnd ≤ (mm.vma y).vmStart

structure Arch.Valid (arch : Arch) : Prop where
  taskSize_lt : arch.taskSize < 2 ^ 64
  taskSize_aligned : pageSize ∣ arch.taskSize
  base_aligned : pageSize ∣ arch.taskUnmappedBase
  base_le : arch.taskUnmappedBase ≤ arch.taskSize

structure Mm.Hinted (arch : Arch) (mm : Mm) : Prop where
  free_aligned : pageSize ∣ mm.freeAreaCache
  free_le : mm.freeAreaCache ≤ arch.taskSize
  base_aligned : pageSize ∣ mm.mmapBase
  base_le : mm.mmapBase ≤ arch.taskSize

section Find

variable {mm : Mm} {addr : ℕ} {x : ℕ}

theorem Mm.WellFormed.nodup (h : mm.WellFormed) : mm.areas.Nodup := by
  refine List.Pairwise.imp_of_mem (fun {x y} hx _ hxy hne => ?_) h.sorted
  subst hne
  have := (h.proper x hx).nonempty
  omega

theorem Mm.WellFormed.before_le (h : mm.WellFormed) {a b : List ℕ} (hl : mm.areas = a ++ x :: b) :
    (∀ y ∈ a, (mm.vma y).vmEnd ≤ (mm.vma x).vmStart) ∧
      ∀ y ∈ b, (mm.vma x).vmEnd ≤ (mm.vma y).vmStart := by
  have hs := h.sorted
  rw [hl] at hs
  obtain ⟨-, hb, hab⟩ := pairwise_append.mp hs
  exact ⟨fun y hy => hab y hy x mem_cons_self, fun y hy => (pairwise_cons.mp hb).1 y hy⟩

/-- An element of two joined lists is in the second one or in the first one. -/
theorem split_cases {a m a₁ b₁ : List ℕ} {y : ℕ} (h : a ++ m = a₁ ++ y :: b₁) :
    (∃ c, a₁ = a ++ c ∧ m = c ++ y :: b₁) ∨ ∃ c, a = a₁ ++ y :: c ∧ b₁ = c ++ m := by
  rcases append_eq_append_iff.mp h with ⟨c, ha₁, hm⟩ | ⟨c, ha, hm⟩
  · exact .inl ⟨c, ha₁, hm⟩
  · cases c with
    | nil => exact .inl ⟨[], by simpa using ha.symm, hm.symm⟩
    | cons z c =>
      obtain ⟨rfl, hb₁⟩ := cons.inj (hm.trans (cons_append ..))
      exact .inr ⟨c, ha, hb₁⟩

theorem Mm.WellFormed.le_start (h : mm.WellFormed) {a b : List ℕ} {s : ℕ}
    (hl : mm.areas = a ++ x :: b) (hs : s ≤ (mm.vma x).vmStart) :
    ∀ y ∈ x :: b, s ≤ (mm.vma y).vmStart := by
  have hx := (h.proper x (by simp [hl])).nonempty
  refine forall_mem_cons.mpr ⟨hs, fun y hy => ?_⟩
  have := (h.before_le hl).2 y hy
  omega

theorem Mm.Agrees.next_eq (h : mm.Agrees) {a b : List ℕ} (hl : mm.areas = a ++ b) :
    a.getLast?.elim mm.mmap mm.vmNext = b.head? := by
  rcases eq_nil_or_concat a with rfl | ⟨a', x, rfl⟩
  · rw [h.head, hl]
    rfl
  · rw [concat_eq_append] at hl
    have hlinks := h.links
    rw [hl, append_assoc] at hlinks
    simpa using hlinks.at.2

inductive Found (vma : ℕ → Vma) (l : List ℕ) (addr : ℕ) : Option ℕ → Prop
  | none : (∀ y ∈ l, (vma y).vmEnd ≤ addr) → Found vma l addr none
  | some {a b : List ℕ} {x : ℕ} : l = a ++ x :: b → (∀ y ∈ a, (vma y).vmEnd ≤ addr) →
      addr < (vma x).vmEnd → Found vma l addr (some x)

theorem rbFind_found {vma : ℕ → Vma} (addr : ℕ) : ∀ {t : SearchTree ℕ},
    t.inorder.Pairwise (fun x y => (vma x).vmEnd ≤ (vma y).vmStart) →
    (∀ x ∈ t.inorder, (vma x).vmStart < (vma x).vmEnd) →
    Found vma t.inorder addr (rbFind vma addr t)
  | .leaf, _, _ => .none (by simp)
  | .node _ l x r, hs, hne => by
    rw [SearchTree.inorder_node] at hs hne ⊢
    obtain ⟨hsl, hsr, hlr⟩ := pairwise_append.mp hs
    have hl := rbFind_found addr hsl fun y hy => hne y (mem_append_left _ hy)
    have hr := rbFind_found addr (pairwise_cons.mp hsr).2
      fun y hy => hne y (mem_append_right _ (mem_cons_of_mem _ hy))
    have hlx : ∀ y ∈ l.inorder, (vma y).vmEnd ≤ (vma x).vmStart :=
      fun y hy => hlr y hy x mem_cons_self
    rw [rbFind]
    split
    · rename_i hend
      split
      · rename_i hstart
        exact .some rfl (fun y hy => le_trans (hlx y hy) hstart) hend
      · generalize rbFind vma addr l = res at hl
        cases hl with
        | none hall => exact .some rfl hall hend
        | some heq ha hy =>
          rw [heq, append_assoc]
          exact .some rfl ha hy
    · rename_i hend
      -- the node and everything on its left end at or below the address
      have hlow : ∀ y ∈ l.inorder ++ [x], (vma y).vmEnd ≤ addr := fun y hy => by
        rcases mem_append.mp hy with hy | hy
        · have h1 := hlx y hy
          have h2 := hne x (by simp)
          omega
        · rw [mem_singleton.mp hy]
          omega
      have hmem : ∀ {a : List ℕ}, (∀ y ∈ a, (vma y).vmEnd ≤ addr) →
          ∀ y ∈ l.inorder ++ x :: a, (vma y).vmEnd ≤ addr := fun ha y hy => by
        rw [← singleton_append, ← append_assoc] at hy
        exact (mem_append.mp hy).elim (hlow y) (ha y)
      generalize rbFind vma addr r = res at hr
      cases hr with
      | none hall => exact .none (hmem hall)
      | some heq ha hy =>
        rw [heq, ← cons_append, ← append_assoc]
        exact .some rfl (hmem ha) hy

def Mm.withHints (mm : Mm) (cache : Option ℕ) (hole free : ℕ) : Mm :=
  { mm with mmapCache := cache, cachedHoleSize := hole, freeAreaCache := free }

theorem Mm.WellFormed.withHints (h : mm.WellFormed) {c : Option ℕ}
    (hc : ∀ x, c = some x → x ∈ mm.areas) (hole free : ℕ) : (mm.withHints c hole free).WellFormed :=
  { h with cache := hc }

theorem findVma_found (h : mm.WellFormed) (addr : ℕ) :
    ∃ c r, findVma mm addr = ({ mm with mmapCache := c }, r) ∧
      (∀ x, c = some x → x ∈ mm.areas) ∧ Found mm.vma mm.areas addr r := by
  cases hhit : cacheHit mm addr with
  | some c =>
    obtain ⟨hc, hcond⟩ := filter_eq_some_iff.mp hhit
    simp only [decide_eq_true_eq] at hcond
    obtain ⟨a, b, hl⟩ := append_of_mem (h.cache c hc)
    refine ⟨mm.mmapCache, some c, by rw [findVma, hhit], h.cache, ?_⟩
    exact .some hl (fun y hy => le_trans ((h.before_le hl).1 y hy) hcond.2) hcond.1
  | none =>
    have hfound := rbFind_found addr h.sorted fun x hx => (h.proper x hx).nonempty
    rw [findVma, hhit]
    generalize rbFind mm.vma addr mm.mmRb = r at hfound
    cases hfound with
    | none hall => exact ⟨mm.mmapCache, none, rfl, h.cache, .none hall⟩
    | some hl ha hx =>
      refine ⟨some _, some _, rfl, ?_, .some hl ha hx⟩
      rintro _ ⟨⟩
      rw [Mm.areas, hl]
      simp

end Find

section Pages

structure Mapping where
  file : Option ℕ
  pgoff : ℕ
  flags : BitVec 64

def Vma.covers (v : Vma) (addr : ℕ) : Prop := v.vmStart ≤ addr ∧ addr < v.vmEnd

instance (v : Vma) (addr : ℕ) : Decidable (v.covers addr) :=
  inferInstanceAs (Decidable (v.vmStart ≤ addr ∧ addr < v.vmEnd))

def Vma.mapping (v : Vma) (addr : ℕ) : Mapping :=
  ⟨v.vmFile, uadd v.vmPgoff (pages (addr - v.vmStart)), v.vmFlags⟩

def Mm.mapping (mm : Mm) (addr : ℕ) : Option Mapping :=
  (mm.areas.find? fun x => (mm.vma x).covers addr).map fun x => (mm.vma x).mapping addr

variable {mm mm' : Mm} {addr : ℕ} {m : Mapping}

theorem Mm.WellFormed.mapping_eq_some (h : mm.WellFormed) : mm.mapping addr = some m ↔
    ∃ x ∈ mm.areas, (mm.vma x).covers addr ∧ (mm.vma x).mapping addr = m := by
  rw [Mm.mapping, map_eq_some_iff]
  refine ⟨?_, ?_⟩
  · rintro ⟨x, hx, hm⟩
    exact ⟨x, mem_of_find?_eq_some hx, by simpa using find?_some hx, hm⟩
  · rintro ⟨x, hx, hcov, hm⟩
    refine ⟨x, ?_, hm⟩
    -- no other area has the address
    obtain ⟨a, b, hl⟩ := append_of_mem hx
    rw [hl, find?_append, find?_eq_none.mpr, none_or, find?_cons_of_pos]
    · simpa using hcov
    · intro y hy hcov'
      have h1 := (h.before_le hl).1 y hy
      have h2 : (mm.vma y).covers addr := by simpa using hcov'
      have h3 := hcov.1
      have h4 := h2.2
      omega

theorem mapping_eq_none : mm.mapping addr = none ↔ ∀ x ∈ mm.areas, ¬(mm.vma x).covers addr := by
  rw [Mm.mapping, map_eq_none_iff]
  simp

theorem Mm.WellFormed.mapping_congr (h : mm.WellFormed) (h' : mm'.WellFormed)
    (heq : ∀ m, (∃ x ∈ mm'.areas, (mm'.vma x).covers addr ∧ (mm'.vma x).mapping addr = m) ↔
      ∃ x ∈ mm.areas, (mm.vma x).covers addr ∧ (mm.vma x).mapping addr = m) :
    mm'.mapping addr = mm.mapping addr :=
  ext fun m => by rw [h'.mapping_eq_some, h.mapping_eq_some, heq]

end Pages

end LinuxKernel.Mmap
