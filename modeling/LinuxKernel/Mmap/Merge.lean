import LinuxKernel.Mmap.Adjust

/-! # Merging a range with its neighbours

`vma_merge` extends a neighbour of the range over it, so that the range gets the file and the file
offsets of the request. The pages of the neighbours stay where they are. If the range is a whole
area that takes over its successor, the pages of the successor have the old flags of that area until
the caller stores the requested ones.
-/

namespace LinuxKernel.Mmap

open List Option

section Situation

/-- The flags differ at most in `VM_CAN_NONLINEAR`. -/
def SameFlags (f g : BitVec 64) : Prop := f &&& ~~~vmCanNonlinear = g &&& ~~~vmCanNonlinear

structure Request.Proper (r : Request) : Prop where
  nonempty : r.addr < r.stop
  addr_aligned : pageSize ∣ r.addr
  stop_aligned : pageSize ∣ r.stop
  stop_lt : r.stop < 2 ^ 64

def Request.covers (r : Request) (p : ℕ) : Prop := r.addr ≤ p ∧ p < r.stop

/-- The file offset that the request gives a page. -/
def Request.pgoffAt (r : Request) (p : ℕ) : ℕ := uadd r.pgoff (pages (p - r.addr))

/-- What the callers guarantee: nothing is mapped in the range and `prev` is the last area before
it, or the range lies in an area with its file and its offset, which is `prev` or starts with the
range. The second index is the area that the range lies in. -/
inductive Situation (mm : Mm) (r : Request) : Option ℕ → Option ℕ → Prop
  | unmapped {a b : List ℕ} : mm.areas = a ++ b → (∀ y ∈ a, (mm.vma y).vmEnd ≤ r.addr) →
      (∀ y ∈ b, r.stop ≤ (mm.vma y).vmStart) → Situation mm r a.getLast? none
  | inside {a b : List ℕ} {v : ℕ} : mm.areas = a ++ v :: b → (mm.vma v).vmStart < r.addr →
      r.stop ≤ (mm.vma v).vmEnd → (mm.vma v).vmFile = r.file →
      ((mm.vma v).mapping r.addr).pgoff = r.pgoff → Situation mm r (some v) (some v)
  | starting {a b : List ℕ} {v : ℕ} : mm.areas = a ++ v :: b → (mm.vma v).vmStart = r.addr →
      r.stop ≤ (mm.vma v).vmEnd → (mm.vma v).vmFile = r.file →
      ((mm.vma v).mapping r.addr).pgoff = r.pgoff → Situation mm r a.getLast? (some v)

structure Kept (mm' : Mm) (r : Request) (owner : Option ℕ) (w p : ℕ) (m m' : Mapping) : Prop where
  file : m'.file = m.file
  pgoff : m'.pgoff = m.pgoff
  flags : SameFlags m'.flags m.flags ∨
    owner = some w ∧ (mm'.vma w).covers p ∧ SameFlags r.vmFlags m.flags

structure Merged (mm mm' : Mm) (r : Request) (owner : Option ℕ) (w : ℕ) : Prop where
  wellFormed : mm'.WellFormed
  mem : w ∈ mm'.areas
  covers : ∀ p, r.covers p → (mm'.vma w).covers p
  inside : ∀ p, r.covers p → ∃ m, mm'.mapping p = some m ∧ m.file = r.file ∧ m.pgoff = r.pgoffAt p
  outside : ∀ p, ¬r.covers p → Option.Rel (Kept mm' r owner w p) (mm.mapping p) (mm'.mapping p)

end Situation

section Kept

variable {mm mm' : Mm} {r : Request} {owner : Option ℕ} {w p x y : ℕ} {a b mid mid' : List ℕ}

theorem Kept.of_eq {m m' : Mapping} (h : m' = m) : Kept mm' r owner w p m m' := by
  subst h
  exact ⟨rfl, rfl, .inl rfl⟩

/-- Pages outside the range, by the areas that were replaced. -/
theorem Local.outside (hloc : Local mm mm' a mid mid' b) (h : mm.WellFormed) (h' : mm'.WellFormed)
    (hold : ∀ x ∈ mid, (mm.vma x).covers p → ∃ y ∈ mid', (mm'.vma y).covers p ∧
      Kept mm' r owner w p ((mm.vma x).mapping p) ((mm'.vma y).mapping p))
    (hnew : ∀ y ∈ mid', (mm'.vma y).covers p → ∃ x ∈ mid, (mm.vma x).covers p) :
    Option.Rel (Kept mm' r owner w p) (mm.mapping p) (mm'.mapping p) := by
  have hparts : ∀ {l m : List ℕ}, l = a ++ (m ++ b) → ∀ {z}, z ∈ l ↔ z ∈ a ++ b ∨ z ∈ m := by
    rintro _ m rfl z
    simp only [mem_append]
    tauto
  have hmem := @hparts _ _ hloc.areas
  have hmem' := @hparts _ _ hloc.areas'
  cases hm : mm.mapping p with
  | none =>
    rw [mapping_eq_none] at hm
    have hnone : mm'.mapping p = none := by
      refine mapping_eq_none.mpr fun z hz hcov => ?_
      rcases hmem'.mp hz with hz | hz
      · exact hm z (hmem.mpr (.inl hz)) ((hloc.others z hz).covers.mp hcov)
      · obtain ⟨x, hx, hxcov⟩ := hnew z hz hcov
        exact hm x (hmem.mpr (.inr hx)) hxcov
    rw [hnone]
    exact .none
  | some m =>
    obtain ⟨x, hx, hcov, rfl⟩ := h.mapping_eq_some.mp hm
    rcases hmem.mp hx with hx | hx
    · have halike := hloc.others x hx
      rw [h'.mapping_eq_some.mpr ⟨x, hmem'.mpr (.inl hx), halike.covers.mpr hcov, halike.mapping⟩]
      exact .some (.of_eq rfl)
    · obtain ⟨y, hy, hycov, hkept⟩ := hold x hx hcov
      rw [h'.mapping_eq_some.mpr ⟨y, hmem'.mpr (.inr hy), hycov, rfl⟩]
      exact .some hkept

theorem Vma.Is.mapping_eq {u v : Vma} {stop : ℕ} (h : u.Is v.vmStart stop v.vmPgoff v) :
    u.mapping p = v.mapping p := by
  rw [Vma.mapping, Vma.mapping, h.start, h.pgoff, h.flags, h.file]

theorem Vma.Is.mapping_rest {u v : Vma} {start stop : ℕ}
    (h : u.Is start stop (uadd v.vmPgoff (pages (start - v.vmStart))) v) (hv : v.Proper)
    (hle : v.vmStart ≤ start) (hal : pageSize ∣ start) (hp : start ≤ p) :
    u.mapping p = v.mapping p := by
  rw [Vma.mapping, Vma.mapping, h.start, h.pgoff, h.flags, h.file,
    uadd_pages hle hp hv.start_aligned hal]

structure Takes (mm' : Mm) (r : Request) (owner : Option ℕ) (w : ℕ) : Prop where
  start_le : (mm'.vma w).vmStart ≤ r.addr
  le_end : r.stop ≤ (mm'.vma w).vmEnd
  file : (mm'.vma w).vmFile = r.file
  flags : SameFlags (mm'.vma w).vmFlags r.vmFlags ∨ owner = some w
  pgoff : ∀ p, r.addr ≤ p → ((mm'.vma w).mapping p).pgoff = r.pgoffAt p

theorem Takes.merged (ht : Takes mm' r owner w) (h' : mm'.WellFormed) (hw : w ∈ mm'.areas)
    (hout : ∀ p, ¬r.covers p → Option.Rel (Kept mm' r owner w p) (mm.mapping p) (mm'.mapping p)) :
    Merged mm mm' r owner w := by
  have hcov : ∀ p, r.covers p → (mm'.vma w).covers p := fun p hp =>
    ⟨le_trans ht.start_le hp.1, lt_of_lt_of_le hp.2 ht.le_end⟩
  exact ⟨h', hw, hcov, fun p hp => ⟨_, h'.mapping_eq_some.mpr ⟨w, hw, hcov p hp, rfl⟩, ht.file,
    ht.pgoff p hp.1⟩, hout⟩

end Kept

section Neighbours

variable {mm mm' : Mm} {r : Request} {owner : Option ℕ} {w p x y : ℕ} {e : ℕ}

structure Before (mm : Mm) (r : Request) (x : ℕ) : Prop where
  stop : (mm.vma x).vmEnd = r.addr
  file : (mm.vma x).vmFile = r.file
  flags : SameFlags (mm.vma x).vmFlags r.vmFlags
  pgoff : uadd (mm.vma x).vmPgoff (pages (r.addr - (mm.vma x).vmStart)) = r.pgoff

structure Behind (mm : Mm) (r : Request) (y : ℕ) : Prop where
  start : (mm.vma y).vmStart = r.stop
  file : (mm.vma y).vmFile = r.file
  flags : SameFlags (mm.vma y).vmFlags r.vmFlags
  pgoff : (mm.vma y).vmPgoff = r.pgoffAt r.stop

theorem isMergeableVma_spec {v : Vma} {file : Option ℕ} {flags : BitVec 64}
    (h : isMergeableVma v file flags = true) : SameFlags v.vmFlags flags ∧ v.vmFile = file := by
  unfold isMergeableVma at h
  split at h
  · simp at h
  · rename_i hflags
    split at h
    · simp at h
    · rename_i hfile
      refine ⟨?_, not_not.mp hfile⟩
      rw [not_not] at hflags
      refine BitVec.xor_eq_zero_iff.mp (Eq.trans ?_ hflags)
      ext i
      simp only [BitVec.getElem_xor, BitVec.getElem_and, Bool.and_xor_distrib_right]

theorem mergesAfter_spec (hx : (mm.vma x).Proper) (h : mergesAfter mm r x = true) :
    Before mm r x := by
  simp only [mergesAfter, canVmaMergeAfter, Bool.and_eq_true, decide_eq_true_eq] at h
  obtain ⟨⟨hstop, -⟩, ⟨hmerge, -⟩, hpgoff⟩ := h
  obtain ⟨hflags, hfile⟩ := isMergeableVma_spec hmerge
  rw [usub_of_le hx.nonempty.le hx.end_lt, hstop] at hpgoff
  exact ⟨hstop, hfile, hflags, hpgoff⟩

theorem mergesBefore_spec (hr : r.Proper) (h : mergesBefore mm r y = true) : Behind mm r y := by
  simp only [mergesBefore, canVmaMergeBefore, Bool.and_eq_true, decide_eq_true_eq] at h
  obtain ⟨⟨hstart, -⟩, ⟨hmerge, -⟩, hpgoff⟩ := h
  obtain ⟨hflags, hfile⟩ := isMergeableVma_spec hmerge
  rw [usub_of_le hr.nonempty.le hr.stop_lt] at hpgoff
  exact ⟨hstart.symm, hfile, hflags, hpgoff⟩

theorem Before.takes (hb : Before mm r x) (hx : (mm.vma x).Proper) (hr : r.Proper)
    (his : (mm'.vma x).Is (mm.vma x).vmStart e (mm.vma x).vmPgoff (mm.vma x)) (he : r.stop ≤ e) :
    Takes mm' r owner x := by
  have hle : (mm.vma x).vmStart ≤ r.addr := hb.stop ▸ hx.nonempty.le
  refine ⟨his.start ▸ hle, his.stop ▸ he, his.file.trans hb.file, .inl (his.flags ▸ hb.flags),
    fun p hp => ?_⟩
  rw [his.mapping_eq, Request.pgoffAt, ← hb.pgoff,
    uadd_pages hle hp hx.start_aligned hr.addr_aligned]
  rfl

theorem mod_uadd (a b : ℕ) : uadd (a % 2 ^ 64) b = uadd a b := Nat.mod_add_mod ..

theorem takes_of_start (his : (mm'.vma x).Is r.addr e (r.pgoff % 2 ^ 64) (mm.vma x))
    (hfile : (mm.vma x).vmFile = r.file)
    (hflags : SameFlags (mm.vma x).vmFlags r.vmFlags ∨ owner = some x) (he : r.stop ≤ e) :
    Takes mm' r owner x := by
  refine ⟨his.start.le, his.stop ▸ he, his.file.trans hfile, his.flags ▸ hflags, fun p _ => ?_⟩
  simp only [Vma.mapping, his.start, his.pgoff, mod_uadd, Request.pgoffAt]

variable (hb : Behind mm r y)
include hb

theorem Behind.usub_pgoff (hr : r.Proper) :
    usub (mm.vma y).vmPgoff (pages (usub r.stop r.addr)) = r.pgoff % 2 ^ 64 := by
  have hlt := hr.stop_lt
  rw [hb.pgoff, Request.pgoffAt, usub_of_le hr.nonempty.le hlt, usub, uadd, pages, pageSize]
  omega

theorem Behind.sub_pgoff :
    (((mm.vma y).vmPgoff - (pages (r.stop - r.addr) : ℕ) : ℤ) % 2 ^ 64).toNat =
      r.pgoff % 2 ^ 64 := by
  rw [hb.pgoff, Request.pgoffAt, uadd]
  omega

theorem Behind.kept (hr : r.Proper) (ht : Takes mm' r owner w) (hp : (mm.vma y).covers p)
    (hw : (mm'.vma w).covers p) :
    Kept mm' r owner w p ((mm.vma y).mapping p) ((mm'.vma w).mapping p) := by
  have hsp : r.stop ≤ p := hb.start ▸ hp.1
  refine ⟨ht.file.trans hb.file.symm, ?_, ?_⟩
  · rw [ht.pgoff p (hr.nonempty.le.trans hsp)]
    simp only [Vma.mapping, hb.start, hb.pgoff]
    exact (uadd_pages hr.nonempty.le hsp hr.addr_aligned hr.stop_aligned _).symm
  · rcases ht.flags with hflags | howner
    · exact .inl (Eq.trans hflags hb.flags.symm)
    · exact .inr ⟨howner, hw, hb.flags.symm⟩

end Neighbours

section Parts

variable {mm mm' : Mm} {r : Request} {owner : Option ℕ} {w x y : ℕ} {a b mid mid' : List ℕ}

inductive Part (mm mm' : Mm) (r : Request) (w : ℕ) (mid' : List ℕ) (z : ℕ) : Prop
  | range : (mm.vma z).vmStart = r.addr → (mm.vma z).vmEnd = r.stop → Part mm mm' r w mid' z
  | before : (mm.vma z).vmEnd = r.addr → (mm'.vma w).vmStart = (mm.vma z).vmStart →
      (∀ p, (mm'.vma w).mapping p = (mm.vma z).mapping p) → Part mm mm' r w mid' z
  | behind : Behind mm r z → (mm'.vma w).vmEnd = (mm.vma z).vmEnd → Part mm mm' r w mid' z
  | cut : z ∈ mid' → (∀ p, (mm.vma z).covers p → ¬r.covers p →
      (mm'.vma z).covers p ∧ (mm'.vma z).mapping p = (mm.vma z).mapping p) → Part mm mm' r w mid' z

theorem Part.kept (hz : Part mm mm' r w mid' x) (ht : Takes mm' r owner w) (hr : r.Proper)
    (hw : w ∈ mid') {p : ℕ} (hcov : (mm.vma x).covers p) (hout : ¬r.covers p) :
    ∃ y ∈ mid', (mm'.vma y).covers p ∧
      Kept mm' r owner w p ((mm.vma x).mapping p) ((mm'.vma y).mapping p) := by
  cases hz with
  | range hstart hstop => exact absurd ⟨hstart ▸ hcov.1, hstop ▸ hcov.2⟩ hout
  | before hstop hstart hmap =>
    have h1 : p < r.addr := hstop ▸ hcov.2
    have h2 := hr.nonempty
    exact ⟨w, hw, ⟨hstart ▸ hcov.1, by have := ht.le_end; omega⟩, .of_eq (hmap p)⟩
  | behind hb hstop =>
    have h1 : r.stop ≤ p := hb.start ▸ hcov.1
    have h2 := hr.nonempty
    have hwp : (mm'.vma w).covers p := ⟨by have := ht.start_le; omega, hstop ▸ hcov.2⟩
    exact ⟨w, hw, hwp, hb.kept hr ht hcov hwp⟩
  | cut hz hkeep => exact ⟨x, hz, (hkeep p hcov hout).1, .of_eq (hkeep p hcov hout).2⟩

variable (ht : Takes mm' r owner w) (hr : r.Proper) (h : mm.WellFormed)
  (hs : (mm'.vma w).vmStart = r.addr ∨
    ∃ z ∈ mid, (mm.vma z).vmStart = (mm'.vma w).vmStart ∧ (mm.vma z).vmEnd = r.addr)
  (he : (mm'.vma w).vmEnd = r.stop ∨
    ∃ z ∈ mid, (mm.vma z).vmStart = r.stop ∧ (mm.vma z).vmEnd = (mm'.vma w).vmEnd)
include ht hr h hs he

/-- The replaced areas and the new ones have the same pages outside the range. -/
theorem Takes.merged_of_parts (h' : mm'.WellFormed) (hloc : Local mm mm' a mid mid' b)
    (hw : w ∈ mid') (hmid : ∀ z ∈ mid, Part mm mm' r w mid' z)
    (hcut : ∀ y ∈ mid', y ≠ w → y ∈ mid ∧ ∀ p, (mm'.vma y).covers p → (mm.vma y).covers p) :
    Merged mm mm' r owner w := by
  have hmem : w ∈ mm'.areas := by
    rw [hloc.areas']
    simp [hw]
  refine ht.merged h' hmem fun p hp => hloc.outside h h' ?_ ?_
  · exact fun x hx hcov => (hmid x hx).kept ht hr hw hcov hp
  · intro y hy hcov
    by_cases hyw : y = w
    · subst hyw
      obtain ⟨h1, h2⟩ := hcov
      -- the page is in front of the range or behind it
      by_cases hlt : p < r.addr
      · rcases hs with hs | ⟨z, hz, hz1, hz2⟩
        · omega
        · exact ⟨z, hz, by omega, by omega⟩
      · have hge : r.stop ≤ p := by
          by_contra hcon
          exact hp ⟨by omega, by omega⟩
        rcases he with he | ⟨z, hz, hz1, hz2⟩
        · omega
        · exact ⟨z, hz, by omega, by omega⟩
    · obtain ⟨hy', hsub⟩ := hcut y hy hyw
      exact ⟨y, hy', hsub p hcov⟩

theorem Takes.merged_one (hloc : Local mm mm' a mid [w] b) (hprop : (mm'.vma w).Proper)
    (hmid : ∀ z ∈ mid, Part mm mm' r w [w] z)
    (ha : ∀ y ∈ a, (mm.vma y).vmEnd ≤ (mm'.vma w).vmStart)
    (hb : ∀ y ∈ b, (mm'.vma w).vmEnd ≤ (mm.vma y).vmStart) : Merged mm mm' r owner w := by
  have h' : mm'.WellFormed := by
    refine hloc.wellFormed h ha hb (fun y hy => ?_) hprop.nonempty.le (pairwise_singleton ..)
    rw [mem_singleton.mp hy]
    exact ⟨hprop, le_refl _, le_refl _⟩
  refine ht.merged_of_parts hr h hs he h' hloc mem_cons_self hmid fun y hy hne => ?_
  exact absurd (mem_singleton.mp hy) hne

end Parts

section Cases

variable (bal : SearchTree.Balance ℕ) {clone : ℕ → Bool} {mm : Mm} {r : Request} {x v y : ℕ}
  {a b : List ℕ} {owner : Option ℕ} (fuel : ℕ) {mm' : Mm}

theorem Vma.Is.proper {u v : Vma} {start stop pgoff : ℕ} (his : u.Is start stop pgoff v)
    (hlt : start < stop) (hstart : pageSize ∣ start) (hstop : pageSize ∣ stop)
    (hend : stop < 2 ^ 64) : u.Proper :=
  ⟨by rw [his.start, his.stop]; exact hlt, by rw [his.start]; exact hstart,
    by rw [his.stop]; exact hstop, by rw [his.stop]; exact hend⟩

/-- The area before the range was extended, perhaps over other areas. -/
theorem Before.merged {rest : List ℕ} {e : ℕ} (hx : Before mm r x) (h : mm.WellFormed)
    (hr : r.Proper) (hloc : Local mm mm' a (x :: rest) [x] b)
    (his : (mm'.vma x).Is (mm.vma x).vmStart e (mm.vma x).vmPgoff (mm.vma x))
    (hrest : ∀ z ∈ rest, (mm.vma z).vmStart = r.addr ∧ (mm.vma z).vmEnd = r.stop ∨
      Behind mm r z ∧ (mm.vma z).vmEnd = e)
    (he : e = r.stop ∨ ∃ z ∈ rest, (mm.vma z).vmStart = r.stop ∧ (mm.vma z).vmEnd = e)
    (hb : ∀ y ∈ b, e ≤ (mm.vma y).vmStart) : Merged mm mm' r owner x := by
  have hmem : ∀ z ∈ x :: rest, z ∈ mm.areas := fun z hz => by
    rw [hloc.areas]
    simp only [mem_append]
    exact .inr (.inl hz)
  have hxp := h.proper x (hmem x mem_cons_self)
  have hlt := hxp.nonempty
  have hlt' := hr.nonempty
  obtain ⟨hse, hal, hend⟩ : r.stop ≤ e ∧ pageSize ∣ e ∧ e < 2 ^ 64 := by
    rcases he with rfl | ⟨z, hz, hz1, rfl⟩
    · exact ⟨le_refl _, hr.stop_aligned, hr.stop_lt⟩
    · have hzp := h.proper z (hmem z (mem_cons_of_mem x hz))
      exact ⟨hz1 ▸ hzp.nonempty.le, hzp.end_aligned, hzp.end_lt⟩
  have hstop := hx.stop
  refine (hx.takes hxp hr his hse).merged_one hr h
    (.inr ⟨x, mem_cons_self, his.start.symm, hstop⟩) ?_ hloc
    (his.proper (by omega) hxp.start_aligned hal hend) (fun z hz => ?_) ?_ ?_
  · rw [his.stop]
    exact he.imp_right fun ⟨z, hz, hz'⟩ => ⟨z, mem_cons_of_mem x hz, hz'⟩
  · rcases mem_cons.mp hz with rfl | hz
    · exact .before hstop his.start fun p => his.mapping_eq
    · rcases hrest z hz with ⟨hz1, hz2⟩ | ⟨hz1, hz2⟩
      · exact .range hz1 hz2
      · exact .behind hz1 (by rw [his.stop, hz2])
  · rw [his.start]
    exact (h.before_le hloc.areas).1
  · rwa [his.stop]

theorem Takes.merged_start {mid : List ℕ} {w pgoff : ℕ} {old : Vma} (ht : Takes mm' r owner w)
    (h : mm.WellFormed) (hr : r.Proper) (hloc : Local mm mm' a mid [w] b) (hy : y ∈ mid)
    (hbehind : Behind mm r y) (his : (mm'.vma w).Is r.addr (mm.vma y).vmEnd pgoff old)
    (hmid : ∀ z ∈ mid, z = y ∨ (mm.vma z).vmStart = r.addr ∧ (mm.vma z).vmEnd = r.stop)
    (ha : ∀ y ∈ a, (mm.vma y).vmEnd ≤ r.addr)
    (hb : ∀ z ∈ b, (mm.vma y).vmEnd ≤ (mm.vma z).vmStart) : Merged mm mm' r owner w := by
  have hyp := h.proper y (by rw [hloc.areas]; simp [hy])
  have h1 := hyp.nonempty
  have h2 := hr.nonempty
  have h3 := hbehind.start
  refine ht.merged_one hr h (.inl his.start) (.inr ⟨y, hy, h3, his.stop.symm⟩) hloc
    (his.proper (by omega) hr.addr_aligned hyp.end_aligned hyp.end_lt) (fun z hz => ?_)
    (by rwa [his.start]) (by rwa [his.stop])
  rcases hmid z hz with rfl | ⟨hz1, hz2⟩
  · exact .behind hbehind his.stop
  · exact .range hz1 hz2

theorem Local.wellFormed_pair {m : ℕ} (hloc : Local mm mm' a [x, y] [x, y] b) (h : mm.WellFormed)
    (hx : (mm'.vma x).Proper) (hy : (mm'.vma y).Proper)
    (hs : (mm'.vma x).vmStart = (mm.vma x).vmStart) (hm : (mm'.vma x).vmEnd = m)
    (hm' : (mm'.vma y).vmStart = m) (he : (mm'.vma y).vmEnd = (mm.vma y).vmEnd) :
    mm'.WellFormed := by
  have h1 := hx.nonempty
  have h2 := hy.nonempty
  have hl : mm.areas = a ++ x :: y :: b := hloc.areas
  have hb := (h.before_le (a := a ++ [x]) (x := y) (b := b) (by simp [hl])).2
  refine hloc.wellFormed h (h.before_le hl).1 hb (fun z hz => ?_) (by omega) (by simp; omega)
  rcases mem_cons.mp hz with rfl | hz
  · exact ⟨hx, by omega, by omega⟩
  · rw [mem_singleton.mp hz]
    exact ⟨hy, by omega, by omega⟩

/-- The call of `vma_adjust` merges the range into the area `w`. -/
def Merges (bal : SearchTree.Balance ℕ) (clone : ℕ → Bool) (fuel : ℕ) (mm : Mm) (r : Request)
    (owner : Option ℕ) (w x start stop pgoff : ℕ) : Prop :=
  ∃ mm', vmaAdjust bal clone fuel mm x start stop pgoff none = some (none, mm') ∧
    Merged mm mm' r owner w

variable (h : mm.WellFormed) (hr : r.Proper) (hclone : ∀ e, clone e = true)

include h

theorem Mm.WellFormed.behind_le (hl : mm.areas = a ++ x :: y :: b) :
    ∀ z ∈ b, (mm.vma y).vmEnd ≤ (mm.vma z).vmStart :=
  (h.before_le (a := a ++ [x]) (by simp [hl])).2

include hr

/-- Case 2: the area before is extended over a hole. -/
theorem merge_extend (hx : Before mm r x) (hl : mm.areas = a ++ x :: b)
    (hb : ∀ y ∈ b, r.stop ≤ (mm.vma y).vmStart) :
    Merges bal clone fuel mm r owner x x (mm.vma x).vmStart r.stop (mm.vma x).vmPgoff := by
  have hlt := hr.nonempty
  obtain ⟨mm', hadj, hloc, his⟩ := vmaAdjust_keep bal clone fuel (mm.vma x).vmStart
    (mm.vma x).vmPgoff h hl hb (by rw [hx.stop]; omega)
  exact ⟨mm', hadj, hx.merged h hr hloc his (by simp) (.inl rfl) hb⟩

/-- Case 3: the area behind is extended over a hole. -/
theorem merge_extend_down (hy : Behind mm r y) (hl : mm.areas = a ++ y :: b)
    (ha : ∀ z ∈ a, (mm.vma z).vmEnd ≤ r.addr) :
    Merges bal clone fuel mm r owner y y r.addr (mm.vma y).vmEnd
      (usub (mm.vma y).vmPgoff (pages (usub r.stop r.addr))) := by
  have hb := (h.before_le hl).2
  have hyp := h.proper y (by simp [hl])
  obtain ⟨mm', hadj, hloc, his⟩ := vmaAdjust_keep bal clone fuel r.addr
    (usub (mm.vma y).vmPgoff (pages (usub r.stop r.addr))) h hl hb (le_refl _)
  rw [hy.usub_pgoff hr] at his
  have ht : Takes mm' r owner y :=
    takes_of_start his hy.file (.inl hy.flags) (hy.start ▸ hyp.nonempty.le)
  exact ⟨mm', hadj, ht.merged_start h hr hloc mem_cons_self hy his
    (fun z hz => .inl (mem_singleton.mp hz)) ha hb⟩

include hclone

/-- Cases 1 and 7: the area before takes over the one behind, or the one that is the range. -/
theorem merge_next (hx : Before mm r x)
    (hy : (mm.vma y).vmStart = r.addr ∧ (mm.vma y).vmEnd = r.stop ∨ Behind mm r y)
    (hl : mm.areas = a ++ x :: y :: b) :
    Merges bal clone (fuel + 1) mm r owner x x (mm.vma x).vmStart (mm.vma y).vmEnd
      (mm.vma x).vmPgoff := by
  obtain ⟨mm', hadj, hloc, his⟩ := vmaAdjust_one bal fuel (mm.vma x).vmStart (mm.vma x).vmPgoff h
    hclone hl
  have hb := h.behind_le hl
  refine ⟨mm', hadj, hx.merged h hr hloc his (fun z hz => ?_) (hy.imp (·.2) fun hy => ?_) hb⟩
  · rw [mem_singleton.mp hz]
    exact hy.imp_right (⟨·, rfl⟩)
  · exact ⟨y, mem_cons_self, hy.start, rfl⟩

/-- Case 6: the range is an area that the one before takes over together with the one behind. -/
theorem merge_whole_fill (hx : Before mm r x) (hy : Behind mm r y)
    (hv : (mm.vma v).vmStart = r.addr) (hv' : (mm.vma v).vmEnd = r.stop)
    (hl : mm.areas = a ++ x :: v :: y :: b) :
    Merges bal clone (fuel + 2) mm r owner x x (mm.vma x).vmStart (mm.vma y).vmEnd
      (mm.vma x).vmPgoff := by
  obtain ⟨mm', hadj, hloc, his⟩ := vmaAdjust_two bal fuel (mm.vma x).vmStart (mm.vma x).vmPgoff h
    hclone hl
  have hb := h.behind_le (a := a ++ [x]) (by simpa using hl)
  refine ⟨mm', hadj, hx.merged h hr hloc his (fun z hz => ?_) (.inr ⟨y, by simp, hy.start, rfl⟩) hb⟩
  rcases mem_cons.mp hz with rfl | hz
  · exact .inl ⟨hv, hv'⟩
  · rw [mem_singleton.mp hz]
    exact .inr ⟨hy, rfl⟩

/-- Case 8: the range is an area that takes over the one behind. -/
theorem merge_whole_next (hy : Behind mm r y) (hv : (mm.vma v).vmStart = r.addr)
    (hv' : (mm.vma v).vmEnd = r.stop) (hfile : (mm.vma v).vmFile = r.file)
    (hl : mm.areas = a ++ v :: y :: b) :
    Merges bal clone (fuel + 1) mm r (some v) v v r.addr (mm.vma y).vmEnd
      (usub (mm.vma y).vmPgoff (pages (usub r.stop r.addr))) := by
  have hyp := h.proper y (by simp [hl])
  obtain ⟨mm', hadj, hloc, his⟩ := vmaAdjust_one bal fuel r.addr
    (usub (mm.vma y).vmPgoff (pages (usub r.stop r.addr))) h hclone hl
  rw [hy.usub_pgoff hr] at his
  have ht : Takes mm' r (some v) v :=
    takes_of_start his hfile (.inr rfl) (hy.start ▸ hyp.nonempty.le)
  refine ⟨mm', hadj, ht.merged_start h hr hloc (by simp) hy his (fun z hz => ?_) ?_ ?_⟩
  · rcases mem_cons.mp hz with rfl | hz
    · exact .inr ⟨hv, hv'⟩
    · exact .inl (mem_singleton.mp hz)
  · exact hv ▸ (h.before_le hl).1
  · exact h.behind_le hl

/-- Case 5: the area before takes over the first part of the next one. -/
theorem merge_up (hx : Before mm r x) (hv : (mm.vma v).vmStart = r.addr)
    (hv' : r.stop < (mm.vma v).vmEnd) (hl : mm.areas = a ++ x :: v :: b) :
    Merges bal clone fuel mm r owner x x (mm.vma x).vmStart r.stop (mm.vma x).vmPgoff := by
  have hlt := hr.nonempty
  have hxp := h.proper x (by simp [hl])
  have hvp := h.proper v (by simp [hl])
  obtain ⟨mm', hadj, hloc, hx', hn'⟩ := vmaAdjust_up bal fuel (mm.vma x).vmStart
    (mm.vma x).vmPgoff h hclone hl (by omega) hv' hr.stop_aligned
  have hstop := hx.stop
  have hne := hxp.nonempty
  have h' := hloc.wellFormed_pair h
    (hx'.proper (by omega) hxp.start_aligned hr.stop_aligned hr.stop_lt)
    (hn'.proper hv' hr.stop_aligned hvp.end_aligned hvp.end_lt) hx'.start hx'.stop hn'.start
    hn'.stop
  refine ⟨mm', hadj, (hx.takes hxp hr hx' (le_refl _)).merged_of_parts hr h
    (.inr ⟨x, mem_cons_self, hx'.start.symm, hstop⟩) (.inl hx'.stop) h' hloc
    mem_cons_self (fun z hz => ?_) fun z hz hne => ?_⟩
  · rcases mem_cons.mp hz with rfl | hz
    · exact .before hstop hx'.start fun p => hx'.mapping_eq
    · rw [mem_singleton.mp hz]
      refine .cut (by simp) fun p hcov hout => ?_
      have h1 := hcov.1
      have hp : r.stop ≤ p := by
        by_contra hcon
        exact hout ⟨by omega, by omega⟩
      exact ⟨⟨hn'.start ▸ hp, hn'.stop ▸ hcov.2⟩,
        hn'.mapping_rest hvp (by omega) hr.stop_aligned hp⟩
  · obtain rfl : z = v := by simpa [hne] using hz
    refine ⟨by simp, fun p hcov => ?_⟩
    rw [Vma.covers, hn'.start, hn'.stop] at hcov
    exact ⟨by omega, hcov.2⟩

/-- Case 4: the area behind takes over the last part of the one the range lies in. -/
theorem merge_down (hy : Behind mm r y) (hx : (mm.vma x).vmStart < r.addr)
    (hx' : (mm.vma x).vmEnd = r.stop) (hl : mm.areas = a ++ x :: y :: b) :
    Merges bal clone fuel mm r owner y x (mm.vma x).vmStart r.addr (mm.vma x).vmPgoff := by
  have hlt := hr.nonempty
  have hxp := h.proper x (by simp [hl])
  have hyp := h.proper y (by simp [hl])
  have hne := hyp.nonempty
  have hstart := hy.start
  obtain ⟨mm', hadj, hloc, hx₁, hy₁⟩ := vmaAdjust_down bal fuel (mm.vma x).vmStart
    (mm.vma x).vmPgoff h hclone hl (by omega) (by omega) hr.addr_aligned
  rw [hx', hy.sub_pgoff] at hy₁
  have h' := hloc.wellFormed_pair h
    (hx₁.proper hx hxp.start_aligned hr.addr_aligned (hlt.trans hr.stop_lt))
    (hy₁.proper (by omega) hr.addr_aligned hyp.end_aligned hyp.end_lt) hx₁.start hx₁.stop hy₁.start
    hy₁.stop
  have ht : Takes mm' r owner y := takes_of_start hy₁ hy.file (.inl hy.flags) (hstart ▸ hne.le)
  refine ⟨mm', hadj, ht.merged_of_parts hr h (.inl hy₁.start)
    (.inr ⟨y, by simp, hstart, hy₁.stop.symm⟩) h' hloc (by simp) (fun z hz => ?_)
    fun z hz hne => ?_⟩
  · rcases mem_cons.mp hz with rfl | hz
    · refine .cut (by simp) fun p hcov hout => ?_
      have h1 := hcov.2
      have hp : p < r.addr := by
        by_contra hcon
        exact hout ⟨by omega, by omega⟩
      exact ⟨⟨hx₁.start ▸ hcov.1, hx₁.stop ▸ hp⟩, hx₁.mapping_eq⟩
    · rw [mem_singleton.mp hz]
      exact .behind hy hy₁.stop
  · obtain rfl : z = x := by simpa [hne] using hz
    refine ⟨by simp, fun p hcov => ?_⟩
    rw [Vma.covers, hx₁.start, hx₁.stop] at hcov
    exact ⟨hcov.1, by omega⟩

end Cases

section Outcome

variable (bal : SearchTree.Balance ℕ) {clone : ℕ → Bool} {mm : Mm} {r : Request} {x v : ℕ}
  {a b : List ℕ} {prev area next owner : Option ℕ} (fuel : ℕ)

inductive MergeOutcome (mm : Mm) (r : Request) (owner : Option ℕ) :
    Option (Option ℕ × Mm) → Prop
  | none : MergeOutcome mm r owner (some (none, mm))
  | merged {mm' : Mm} {w : ℕ} : Merged mm mm' r owner w →
      MergeOutcome mm r owner (some (some w, mm'))

theorem vmaMerge_after (hsp : r.vmFlags &&& vmSpecial = 0#64) (hr : r.Proper)
    (hx : prev.filter (mergesAfter mm r ·) = some x)
    (hnext : ((prev.elim mm.mmap mm.vmNext).elim none fun z =>
      if (mm.vma z).vmEnd = r.stop then mm.vmNext z else some z) = next)
    (hjoin : ∀ y, next = some y → Behind mm r y →
      Merges bal clone fuel mm r owner x x (mm.vma x).vmStart (mm.vma y).vmEnd (mm.vma x).vmPgoff)
    (halone : Merges bal clone fuel mm r owner x x (mm.vma x).vmStart r.stop (mm.vma x).vmPgoff) :
    MergeOutcome mm r owner (vmaMerge bal clone fuel mm prev r) := by
  simp only [vmaMerge, hsp, hx, hnext]
  cases hj : next.filter fun next => mergesBefore mm r next &&
      isMergeableAnonVma (mm.vma x).anonVma (mm.vma next).anonVma none with
  | none =>
    obtain ⟨mm', hadj, hm⟩ := halone
    simp only [elim_none, hadj]
    exact .merged hm
  | some y =>
    obtain ⟨hy, hcond⟩ := filter_eq_some_iff.mp hj
    rw [Bool.and_eq_true] at hcond
    obtain ⟨mm', hadj, hm⟩ := hjoin y hy (mergesBefore_spec hr hcond.1)
    simp only [elim_some, hadj]
    exact .merged hm

theorem vmaMerge_not_after (hr : r.Proper) (hx : prev.filter (mergesAfter mm r ·) = none)
    (harea : prev.elim mm.mmap mm.vmNext = area)
    (hnext : (area.elim none fun z =>
      if (mm.vma z).vmEnd = r.stop then mm.vmNext z else some z) = next)
    (hmerge : ∀ z y, area = some z → next = some y → Behind mm r y →
      (prev.filter fun p => r.addr < (mm.vma p).vmEnd).elim
        (Merges bal clone fuel mm r owner z z r.addr (mm.vma y).vmEnd
          (usub (mm.vma y).vmPgoff (pages (usub r.stop r.addr))))
        fun p => Merges bal clone fuel mm r owner z p (mm.vma p).vmStart r.addr
          (mm.vma p).vmPgoff) :
    MergeOutcome mm r owner (vmaMerge bal clone fuel mm prev r) := by
  simp only [vmaMerge, harea, hnext, hx]
  split
  · exact .none
  · cases area with
    | none => exact .none
    | some z =>
      cases hj : next.filter (mergesBefore mm r ·) with
      | none =>
        simp only [mergeWithNext, hj]
        exact .none
      | some y =>
        obtain ⟨hy, hcond⟩ := filter_eq_some_iff.mp hj
        have hm := hmerge z y rfl hy (mergesBefore_spec hr hcond)
        cases hp : prev.filter fun p => decide (r.addr < (mm.vma p).vmEnd) <;>
          rw [hp] at hm <;> obtain ⟨mm', hadj, hm⟩ := hm <;>
          simp only [mergeWithNext, hj, hp, hadj] <;> exact .merged hm

variable (h : mm.WellFormed) (hr : r.Proper) (hclone : ∀ e, clone e = true)

include h hr hclone

omit hr hclone in
/-- No area behind the range ends with it. -/
theorem next_of_behind (hl : mm.areas = a ++ b) (hb : ∀ y ∈ b, r.stop ≤ (mm.vma y).vmStart) :
    (b.head?.elim none fun z => if (mm.vma z).vmEnd = r.stop then mm.vmNext z else some z) =
      b.head? := by
  cases b with
  | nil => rfl
  | cons z b =>
    have h1 := hb z mem_cons_self
    have h2 := (h.proper z (by simp [hl])).nonempty
    exact if_neg (by omega)

omit hr hclone in
theorem exists_before (hl : mm.areas = a ++ b)
    (hx : a.getLast?.filter (mergesAfter mm r ·) = some x) :
    Before mm r x ∧ ∃ a', mm.areas = a' ++ x :: b := by
  obtain ⟨hlast, hafter⟩ := filter_eq_some_iff.mp hx
  obtain ⟨a', rfl⟩ := getLast?_eq_some_iff.mp hlast
  exact ⟨mergesAfter_spec (h.proper x (by simp [hl])) hafter, a', by simpa using hl⟩

omit h hr hclone in
theorem filter_before (ha : ∀ y ∈ a, (mm.vma y).vmEnd ≤ r.addr) :
    a.getLast?.filter (fun p => decide (r.addr < (mm.vma p).vmEnd)) = none :=
  filter_eq_none_iff.mpr fun p hp => by simpa using ha p (mem_of_getLast? hp)

theorem vmaMerge_unmapped (hl : mm.areas = a ++ b) (ha : ∀ y ∈ a, (mm.vma y).vmEnd ≤ r.addr)
    (hb : ∀ y ∈ b, r.stop ≤ (mm.vma y).vmStart) (hsp : r.vmFlags &&& vmSpecial = 0#64) :
    MergeOutcome mm r none (vmaMerge bal clone (fuel + 2) mm a.getLast? r) := by
  have harea := h.toAgrees.next_eq hl
  have hnext := next_of_behind h hl hb
  cases hx : a.getLast?.filter (mergesAfter mm r ·) with
  | some x =>
    obtain ⟨hbefore, a', hl'⟩ := exists_before h hl hx
    refine vmaMerge_after bal (fuel + 2) hsp hr hx (by rw [harea, hnext])
      (fun y hy hbehind => ?_) ?_
    · obtain ⟨b', rfl⟩ := head?_eq_some_iff.mp hy
      exact merge_next bal (fuel + 1) h hr hclone hbefore (.inr hbehind) hl'
    · exact merge_extend bal (fuel + 2) h hr hbefore hl' hb
  | none =>
    refine vmaMerge_not_after bal (fuel + 2) hr hx harea hnext fun z y hz hy hbehind => ?_
    obtain rfl : z = y := some.inj (hz.symm.trans hy)
    obtain ⟨b', rfl⟩ := head?_eq_some_iff.mp hy
    rw [filter_before ha]
    exact merge_extend_down bal (fuel + 2) h hr hbehind hl ha

theorem vmaMerge_inside (hl : mm.areas = a ++ v :: b) (hv : (mm.vma v).vmStart < r.addr)
    (hv' : r.stop ≤ (mm.vma v).vmEnd) :
    MergeOutcome mm r (some v) (vmaMerge bal clone (fuel + 2) mm (some v) r) := by
  have hlt := hr.nonempty
  have hafter : (some v).filter (mergesAfter mm r ·) = none := by
    rw [filter_eq_none_iff]
    rintro _ ⟨⟩ hm
    have := (mergesAfter_spec (h.proper v (by simp [hl])) hm).stop
    omega
  have harea : (some v).elim mm.mmap mm.vmNext = b.head? := h.toAgrees.next_of_areas hl
  have hnext := next_of_behind h (a := a ++ [v]) (by simpa using hl) fun z hz =>
    hv'.trans ((h.before_le hl).2 z hz)
  refine vmaMerge_not_after bal (fuel + 2) hr hafter harea hnext fun z y hz hy hbehind => ?_
  obtain rfl : z = y := some.inj (hz.symm.trans hy)
  obtain ⟨b', rfl⟩ := head?_eq_some_iff.mp hy
  have hp : (some v).filter (fun p => decide (r.addr < (mm.vma p).vmEnd)) = some v :=
    filter_eq_some_iff.mpr ⟨rfl, by simp; omega⟩
  rw [hp]
  have h1 := (h.before_le hl).2 z mem_cons_self
  have h2 := hbehind.start
  exact merge_down bal (fuel + 2) h hr hclone hbehind hv (by omega) hl

theorem vmaMerge_starting (hl : mm.areas = a ++ v :: b) (hv : (mm.vma v).vmStart = r.addr)
    (hv' : r.stop ≤ (mm.vma v).vmEnd) (hfile : (mm.vma v).vmFile = r.file)
    (hsp : r.vmFlags &&& vmSpecial = 0#64) :
    MergeOutcome mm r (some v) (vmaMerge bal clone (fuel + 2) mm a.getLast? r) := by
  have hlt := hr.nonempty
  have harea : a.getLast?.elim mm.mmap mm.vmNext = some v := h.toAgrees.next_eq hl
  -- only the area behind a whole area can continue the range
  have hbehind_iff : ∀ y, (if (mm.vma v).vmEnd = r.stop then mm.vmNext v else some v) = some y →
      Behind mm r y → (mm.vma v).vmEnd = r.stop ∧ ∃ b', b = y :: b' := by
    intro y hy hbehind
    split at hy
    · rename_i hend
      rw [h.toAgrees.next_of_areas hl] at hy
      exact ⟨hend, head?_eq_some_iff.mp hy⟩
    · obtain rfl := some.inj hy
      have := hbehind.start
      omega
  cases hx : a.getLast?.filter (mergesAfter mm r ·) with
  | some x =>
    obtain ⟨hbefore, a', hl'⟩ := exists_before h hl hx
    refine vmaMerge_after bal (fuel + 2) hsp hr hx (by rw [harea]) (fun y hy hbehind => ?_) ?_
    · obtain ⟨hend, b', rfl⟩ := hbehind_iff y hy hbehind
      exact merge_whole_fill bal fuel h hr hclone hbefore hbehind hv hend hl'
    · rcases eq_or_lt_of_le hv' with hend | hend
      · rw [hend]
        exact merge_next bal (fuel + 1) h hr hclone hbefore (.inl ⟨hv, hend.symm⟩) hl'
      · exact merge_up bal (fuel + 2) h hr hclone hbefore hv hend hl'
  | none =>
    refine vmaMerge_not_after bal (fuel + 2) hr hx harea rfl fun z y hz hy hbehind => ?_
    obtain rfl := some.inj hz
    obtain ⟨hend, b', rfl⟩ := hbehind_iff y hy hbehind
    rw [filter_before (hv ▸ (h.before_le hl).1)]
    exact merge_whole_next bal (fuel + 1) h hr hclone hbehind hv hend hfile hl

end Outcome

section Pages

variable (bal : SearchTree.Balance ℕ) {clone : ℕ → Bool} {mm : Mm} {r : Request}
  {prev owner : Option ℕ}

/-- `vma_merge` neither moves nor drops a page: if it returns an area, the space is well formed
again, the area covers the range, the pages of the range get the requested file and offsets, and the
other pages keep their file, offset and flags, up to `VM_CAN_NONLINEAR`. The flags of a successor
taken over by the area of the range are those that the caller asked for. -/
theorem vma_merge_keeps_pages (h : mm.WellFormed) (hr : r.Proper) (hclone : ∀ e, clone e = true)
    (hsit : Situation mm r prev owner) {fuel : ℕ} (hfuel : 2 ≤ fuel) :
    ∃ res mm', vmaMerge bal clone fuel mm prev r = some (res, mm') ∧
      (res = none → mm' = mm) ∧ ∀ w, res = some w → Merged mm mm' r owner w := by
  obtain ⟨k, rfl⟩ := Nat.exists_eq_add_of_le' hfuel
  have hout : MergeOutcome mm r owner (vmaMerge bal clone (k + 2) mm prev r) := by
    by_cases hsp : r.vmFlags &&& vmSpecial = 0#64
    · cases hsit with
      | unmapped hl ha hb => exact vmaMerge_unmapped bal k h hr hclone hl ha hb hsp
      | inside hl hv hv' _ _ => exact vmaMerge_inside bal k h hr hclone hl hv hv'
      | starting hl hv hv' hfile _ => exact vmaMerge_starting bal k h hr hclone hl hv hv' hfile hsp
    · rw [vmaMerge, if_pos hsp]
      exact .none
  revert hout
  generalize vmaMerge bal clone (k + 2) mm prev r = o
  rintro (_ | hm)
  · exact ⟨_, _, rfl, fun _ => rfl, fun w hw => (nomatch hw)⟩
  · refine ⟨_, _, rfl, fun hn => (nomatch hn), ?_⟩
    rintro _ ⟨⟩
    exact hm

def pageBehind : Request := ⟨0x5000, 0x6000, 0, none, none, 5, 0⟩

theorem vma_merge_keeps_pages_oneArea :
    ∃ mm', vmaMerge (SearchTree.noBalance ℕ) (fun _ => true) 2 oneArea (some 0) pageBehind =
      some (some 0, mm') ∧ Merged oneArea mm' pageBehind none 0 := by
  have hrun : ∃ mm', vmaMerge (SearchTree.noBalance ℕ) (fun _ => true) 2 oneArea (some 0)
      pageBehind = some (some 0, mm') := ⟨_, rfl⟩
  obtain ⟨mm', hrun⟩ := hrun
  obtain ⟨res, mm'', heq, -, hm⟩ := vma_merge_keeps_pages (SearchTree.noBalance ℕ)
    oneArea_wellFormed (show pageBehind.Proper from ⟨by decide, by decide, by decide, by decide⟩)
    (fun _ => rfl) (.unmapped (a := [0]) rfl (by decide) (by simp)) (le_refl 2)
  obtain ⟨rfl, rfl⟩ := Prod.mk.inj (Option.some.inj (hrun.symm.trans heq))
  exact ⟨mm', hrun, hm 0 rfl⟩

/-- Two areas of one page each, with a gap between them and flags for the first one. -/
def twoPages (gap : ℕ) (flags : BitVec 64) : Mm where
  vma x := ⟨0x1000 + (0x1000 + gap) * x, 0x2000 + (0x1000 + gap) * x, (1 + pages gap) * x,
    if x = 0 then flags else 0, none, 0, none, [], false, 0x200000⟩
  vmNext x := if x = 0 then some 1 else none
  vmPrev x := if x = 0 then none else some 0
  mmap := some 0
  mmRb := .node .black .leaf 0 (.node .red .leaf 1 .leaf)
  mmapCache := none
  mapCount := 2
  topdown := false
  mmapBase := 0x3000
  freeAreaCache := 0x3000
  cachedHoleSize := 0

theorem twoPages_wellFormed {gap : ℕ} (hgap : pageSize ∣ gap) (hlt : gap < 2 ^ 32)
    (flags : BitVec 64) : (twoPages gap flags).WellFormed := by
  refine ⟨⟨rfl, ⟨rfl, rfl, rfl, rfl, trivial⟩, rfl, fun _ hc => (nomatch hc)⟩, ?_, ?_⟩
  · intro x hx
    rcases (show x = 0 ∨ x = 1 by simpa [Mm.areas, twoPages] using hx) with rfl | rfl
    all_goals
      simp only [pageSize] at hgap
      constructor <;> simp only [twoPages, pageSize] <;> omega
  · simp [Mm.areas, twoPages]
    omega

def firstPage : Request := ⟨0x1000, 0x2000, 0, none, none, 0, 0⟩

def pageBetween : Request := ⟨0x2000, 0x3000, 0, none, none, 1, 0⟩

/-- A change of `VM_WRITE` for the first of two neighbours, which takes the second one over, and a
page between two areas that differ in `VM_CAN_NONLINEAR`: the second page gets the flags of the
first one. -/
theorem twoPages_flags_change :
    ((twoPages 0 2).WellFormed ∧ firstPage.Proper ∧
      Situation (twoPages 0 2) firstPage none (some 0) ∧ ¬firstPage.covers 0x2000 ∧
      ((twoPages 0 2).mapping 0x2000).map (·.flags) = some 0 ∧
      (vmaMerge (SearchTree.noBalance ℕ) (fun _ => true) 2 (twoPages 0 2) none firstPage).map
        (fun res => (res.1, (res.2.mapping 0x2000).map (·.flags))) = some (some 0, some 2)) ∧
    ((twoPages 0x1000 vmCanNonlinear).WellFormed ∧ pageBetween.Proper ∧
      Situation (twoPages 0x1000 vmCanNonlinear) pageBetween (some 0) none ∧
      ¬pageBetween.covers 0x3000 ∧
      ((twoPages 0x1000 vmCanNonlinear).mapping 0x3000).map (·.flags) = some 0 ∧
      (vmaMerge (SearchTree.noBalance ℕ) (fun _ => true) 2 (twoPages 0x1000 vmCanNonlinear)
        (some 0) pageBetween).map (fun res => (res.1, (res.2.mapping 0x3000).map (·.flags))) =
        some (some 0, some vmCanNonlinear)) := by
  refine ⟨⟨twoPages_wellFormed (by decide) (by decide) 2,
    ⟨by decide, by decide, by decide, by decide⟩, .starting (a := []) rfl rfl (by decide) rfl rfl,
    fun hcov => absurd hcov.2 (by decide), rfl, rfl⟩,
    twoPages_wellFormed (by decide) (by decide) vmCanNonlinear,
    ⟨by decide, by decide, by decide, by decide⟩,
    .unmapped (a := [0]) (b := [1]) rfl (by decide) (by decide),
    fun hcov => absurd hcov.2 (by decide), rfl, rfl⟩

end Pages

end LinuxKernel.Mmap
