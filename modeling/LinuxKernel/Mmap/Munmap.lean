import LinuxKernel.Mmap.Edit

/-! # Unmapping a range

An area that reaches over an end of the range is split there, which no page notices. The areas in
the range are then detached.
-/

namespace LinuxKernel.Mmap

open Function List Nat Option

section Split

def Vma.lower (v : Vma) (addr : ℕ) : Vma := { v with vmEnd := addr }

def Vma.upper (v : Vma) (addr : ℕ) : Vma :=
  { v with vmStart := addr, vmPgoff := uadd v.vmPgoff (pages (addr - v.vmStart)) }

variable {v : Vma} {addr p : ℕ}

theorem Vma.Proper.lower (hv : v.Proper) (hlo : v.vmStart < addr) (hhi : addr < v.vmEnd)
    (ha : pageSize ∣ addr) : (v.lower addr).Proper :=
  ⟨hlo, hv.start_aligned, ha, lt_trans hhi hv.end_lt⟩

theorem Vma.Proper.upper (hv : v.Proper) (hhi : addr < v.vmEnd) (ha : pageSize ∣ addr) :
    (v.upper addr).Proper :=
  ⟨hhi, ha, hv.end_aligned, hv.end_lt⟩

theorem uadd_pages {x y z : ℕ} (hxy : x ≤ y) (hyz : y ≤ z) (hx : pageSize ∣ x) (hy : pageSize ∣ y)
    (n : ℕ) : uadd (uadd n (pages (y - x))) (pages (z - y)) = uadd n (pages (z - x)) := by
  obtain ⟨i, rfl⟩ := hx
  obtain ⟨j, rfl⟩ := hy
  have h : pages (pageSize * j - pageSize * i) + pages (z - pageSize * j) =
      pages (z - pageSize * i) := by
    simp only [pages, pageSize] at hxy hyz ⊢
    omega
  rw [uadd, uadd, uadd, mod_add_mod, add_assoc, h]

theorem Vma.mapping_upper (hv : v.Proper) (hlo : v.vmStart < addr) (ha : pageSize ∣ addr)
    (hp : addr ≤ p) : (v.upper addr).mapping p = v.mapping p := by
  simp only [Vma.mapping, Vma.upper, uadd_pages (le_of_lt hlo) hp hv.start_aligned ha]

theorem Vma.covers_iff (hlo : v.vmStart < addr) (hhi : addr < v.vmEnd) :
    v.covers p ↔ (v.lower addr).covers p ∨ (v.upper addr).covers p := by
  simp only [Vma.covers, Vma.lower, Vma.upper]
  omega

/-- The area `x` is split into `lo` and `hi`, one of which is new. -/
structure SplitAt (mm mm' : Mm) (a b : List ℕ) (x lo hi addr : ℕ) : Prop where
  wellFormed : mm'.WellFormed
  areas : mm'.areas = a ++ lo :: hi :: b
  lower : mm'.vma lo = (mm.vma x).lower addr
  upper : mm'.vma hi = (mm.vma x).upper addr
  others : ∀ y ∈ a ++ b, mm'.vma y = mm.vma y
  layout : mm'.layout = mm.layout

variable {mm mm' : Mm} {a b : List ℕ} {x lo hi n : ℕ}

theorem Mm.WellFormed.shrink (h : mm.WellFormed) {vma : ℕ → Vma}
    (hin : ∀ y ∈ mm.areas, (vma y).Proper ∧ (mm.vma y).vmStart ≤ (vma y).vmStart ∧
      (vma y).vmEnd ≤ (mm.vma y).vmEnd) : ({ mm with vma } : Mm).WellFormed :=
  { h with
    proper := fun y hy => (hin y hy).1
    sorted := h.sorted.imp_of_mem fun hx hy hxy =>
      le_trans (hin _ hx).2.2 (le_trans hxy (hin _ hy).2.1) }

variable (bal : SearchTree.Balance ℕ) (h : mm.WellFormed) (hl : mm.areas = a ++ x :: b)
include h hl

theorem SplitAt.count (hs : SplitAt mm mm' a b x lo hi addr) : mm'.mapCount = mm.mapCount + 1 := by
  rw [hs.wellFormed.count, hs.areas, h.count, hl]
  simp only [length_append, length_cons]
  omega

theorem SplitAt.behind (hs : SplitAt mm mm' a b x lo hi addr) (hhi : addr < (mm.vma x).vmEnd) :
    ∀ y ∈ hi :: b, addr ≤ (mm'.vma y).vmStart := by
  refine forall_mem_cons.mpr ⟨(congrArg Vma.vmStart hs.upper).ge, fun y hy => ?_⟩
  rw [hs.others y (mem_append_right _ hy)]
  exact le_trans (le_of_lt hhi) ((h.before_le hl).2 y hy)

variable (hlo : (mm.vma x).vmStart < addr) (hhi : addr < (mm.vma x).vmEnd) (ha : pageSize ∣ addr)
include hlo hhi ha

theorem SplitAt.mapping (hs : SplitAt mm mm' a b x lo hi addr) (p : ℕ) :
    mm'.mapping p = mm.mapping p := by
  have hx := h.proper x (by simp [hl])
  refine h.mapping_congr hs.wellFormed fun m => ?_
  have hout : ∀ y ∈ a ++ b, ((mm'.vma y).covers p ∧ (mm'.vma y).mapping p = m) ↔
      ((mm.vma y).covers p ∧ (mm.vma y).mapping p = m) := fun y hy => by rw [hs.others y hy]
  have hin : ((mm'.vma lo).covers p ∧ (mm'.vma lo).mapping p = m) ∨
      ((mm'.vma hi).covers p ∧ (mm'.vma hi).mapping p = m) ↔
      ((mm.vma x).covers p ∧ (mm.vma x).mapping p = m) := by
    rw [hs.lower, hs.upper, Vma.covers_iff hlo hhi, or_and_right]
    exact or_congr Iff.rfl
      (and_congr_right fun hc => by rw [Vma.mapping_upper hx hlo ha hc.1])
  rw [hs.areas, hl]
  simp only [mem_append, mem_cons, or_and_right, exists_or, exists_eq_left] at hout ⊢
  rw [← or_assoc (a := (mm'.vma lo).covers p ∧ _), hin]
  refine or_congr ?_ (or_congr Iff.rfl ?_)
  · exact exists_congr fun y => and_congr_right fun hy => hout y (.inl hy)
  · exact exists_congr fun y => and_congr_right fun hy => hout y (.inr hy)

/-- The new area `n` is linked in when it has one of the parts and `x` has the other. -/
theorem split_insert (hn : n ∉ mm.areas) (vma : ℕ → Vma) (hids : lo = x ∧ hi = n ∨ lo = n ∧ hi = x)
    (hvlo : vma lo = (mm.vma x).lower addr) (hvhi : vma hi = (mm.vma x).upper addr)
    (hvo : ∀ y, y ≠ x → y ≠ n → vma y = mm.vma y) :
    ∃ mm', insertVmStruct bal { mm with vma } n = some mm' ∧ SplitAt mm mm' a b x lo hi addr := by
  have hx := h.proper x (by simp [hl])
  have hlower := hx.lower hlo hhi ha
  have hupper := hx.upper hhi ha
  obtain ⟨hbefore, hafter⟩ := h.before_le hl
  have hsame : ∀ y ∈ mm.areas, y ≠ x → vma y = mm.vma y := fun y hy hyx =>
    hvo y hyx (ne_of_mem_of_not_mem hy hn)
  have hothers : ∀ y ∈ a ++ b, y ∈ mm.areas ∧ vma y = mm.vma y := by
    intro y hy
    have hmem : y ∈ mm.areas := by
      simp only [hl, mem_append] at hy ⊢
      tauto
    exact ⟨hmem, hsame y hmem (ne_of_areas h.nodup hl hy)⟩
  have hvx : (vma x).Proper ∧ (mm.vma x).vmStart ≤ (vma x).vmStart ∧
      (vma x).vmEnd ≤ (mm.vma x).vmEnd := by
    rcases hids with ⟨rfl, -⟩ | ⟨-, rfl⟩
    · rw [hvlo]
      exact ⟨hlower, le_refl _, le_of_lt hhi⟩
    · rw [hvhi]
      exact ⟨hupper, le_of_lt hlo, le_refl _⟩
  have hvn : (vma n).Proper := by
    rcases hids with ⟨-, rfl⟩ | ⟨rfl, -⟩
    · exact hvhi ▸ hupper
    · exact hvlo ▸ hlower
  have hwf : ({ mm with vma } : Mm).WellFormed := by
    refine h.shrink fun y hy => ?_
    by_cases hyx : y = x
    · exact hyx ▸ hvx
    · rw [hsame y hy hyx]
      exact ⟨h.proper y hy, le_refl _, le_refl _⟩
  have hsplit : ∀ {mm'}, mm'.WellFormed → mm'.areas = a ++ lo :: hi :: b → mm'.vma = vma →
      mm'.layout = mm.layout → SplitAt mm mm' a b x lo hi addr := fun hwf' hareas hvma hlay =>
    ⟨hwf', hareas, by rw [hvma, hvlo], by rw [hvma, hvhi],
      fun y hy => by rw [hvma, (hothers y hy).2], hlay⟩
  have hbelow : ∀ y ∈ a, (vma y).vmEnd ≤ (vma lo).vmStart := fun y hy => by
    rw [hvlo, (hothers y (mem_append_left _ hy)).2]
    exact hbefore y hy
  have habove : ∀ y ∈ b, (vma hi).vmEnd ≤ (vma y).vmStart := fun y hy => by
    rw [hvhi, (hothers y (mem_append_right _ hy)).2]
    exact hafter y hy
  have hmid : (vma lo).vmEnd = (vma hi).vmStart := by rw [hvlo, hvhi]; rfl
  rw [← hvlo] at hlower
  rw [← hvhi] at hupper
  rcases hids with ⟨rfl, rfl⟩ | ⟨rfl, rfl⟩
  · -- the new area comes behind the old one
    have hbelow : ∀ y ∈ a ++ [lo], (vma y).vmEnd ≤ (vma hi).vmStart :=
      forall_mem_append.mpr ⟨fun y hy => le_trans (hbelow y hy) (hmid ▸ le_of_lt hlower.nonempty),
        forall_mem_singleton.mpr (le_of_eq hmid)⟩
    obtain ⟨mm', hins, hwf', hareas, hvma, hlay⟩ := insertVmStruct_spec bal hwf hn
      hvn (by simpa [Mm.areas] using hl) hbelow habove
    exact ⟨mm', hins, hsplit hwf' (by simpa using hareas) hvma hlay⟩
  · have habove : ∀ y ∈ hi :: b, (vma lo).vmEnd ≤ (vma y).vmStart :=
      forall_mem_cons.mpr ⟨le_of_eq hmid, fun y hy =>
        le_trans (hmid ▸ le_of_lt hupper.nonempty) (habove y hy)⟩
    obtain ⟨mm', hins, hwf', hareas, hvma, hlay⟩ := insertVmStruct_spec bal hwf hn hvn hl hbelow
      habove
    exact ⟨mm', hins, hsplit hwf' hareas hvma hlay⟩

/-- Why an area cannot be split: it would be cut inside a huge page, or there is no memory. -/
inductive SplitError (v : Vma) (addr : ℕ) (al : Alloc) : Errno → Prop
  | huge : v.vmFlags &&& vmHugetlb ≠ 0#64 → addr % v.hugePageSize ≠ 0 → SplitError v addr al .einval
  | memory : al.new = none ∨ al.mpol = false ∨ al.anonVma = false → SplitError v addr al .enomem

/-- A split fails without a change, or it gives one of the parts to the new area. -/
theorem splitVma_spec (al : Alloc) (hnew : ∀ n, al.new = some n → n ∉ mm.areas) (below : Bool) :
    (∃ e, splitVma bal mm x addr below al = some (some e, mm) ∧
        SplitError (mm.vma x) addr al e) ∨
      ∃ n mm', al.new = some n ∧ splitVma bal mm x addr below al = some (none, mm') ∧
        SplitAt mm mm' a b x (if below then n else x) (if below then x else n) addr := by
  have hx := h.proper x (by simp [hl])
  have hend := hx.end_lt
  have hsub : usub addr (mm.vma x).vmStart = addr - (mm.vma x).vmStart :=
    usub_of_le (le_of_lt hlo) (by omega)
  rw [splitVma]
  split
  · rename_i hhuge
    exact .inl ⟨_, rfl, .huge hhuge.1 hhuge.2⟩
  · cases hal : al.new with
    | none => exact .inl ⟨_, rfl, .memory (.inl hal)⟩
    | some n =>
      have hn := hnew n hal
      have hxn : x ≠ n := by
        rintro rfl
        exact hn (by simp [hl])
      dsimp only
      split
      · rename_i hmem
        exact .inl ⟨_, rfl, .memory (.inr hmem)⟩
      · refine .inr ⟨n, ?_⟩
        cases below with
        | true =>
          obtain ⟨mm', hins, hs⟩ := split_insert bal h hl hlo hhi ha hn
            (update (update mm.vma n ((mm.vma x).lower addr)) x ((mm.vma x).upper addr))
            (.inr ⟨rfl, rfl⟩) (by simp [hxn.symm]) (by simp)
            fun y h1 h2 => by simp [h1, h2]
          refine ⟨mm', rfl, ?_, hs⟩
          simp only [if_true, vmaAdjust, setRange, update_of_ne hxn, hsub]
          exact congrArg (Option.map (none, ·)) hins
        | false =>
          obtain ⟨mm', hins, hs⟩ := split_insert bal h hl hlo hhi ha hn
            (update (update mm.vma n ((mm.vma x).upper addr)) x ((mm.vma x).lower addr))
            (.inl ⟨rfl, rfl⟩) (by simp) (by simp [hxn.symm])
            fun y h1 h2 => by simp [h1, h2]
          refine ⟨mm', rfl, ?_, hs⟩
          simp only [vmaAdjust, setRange, update_of_ne hxn, hsub]
          exact congrArg (Option.map (none, ·)) hins

end Split

section Munmap

variable {mm mm' : Mm} {start stop : ℕ} {a b m : List ℕ} {al₁ al₂ : Alloc}

structure Unmapped (mm mm' : Mm) (start stop : ℕ) : Prop where
  inside : ∀ p, start ≤ p → p < stop → mm'.mapping p = none
  outside : ∀ p, ¬(start ≤ p ∧ p < stop) → mm'.mapping p = mm.mapping p

section Cut

variable (h : mm.WellFormed) (hl : mm.areas = a ++ (m ++ b))
  (ha : ∀ y ∈ a, (mm.vma y).vmEnd ≤ start)
  (hm : ∀ y ∈ m, start ≤ (mm.vma y).vmStart ∧ (mm.vma y).vmEnd ≤ stop)
  (hb : ∀ y ∈ b, stop ≤ (mm.vma y).vmStart)
include h hl ha hm hb

theorem unmapped_of_cut (h' : mm'.WellFormed) (hl' : mm'.areas = a ++ b)
    (hvma : mm'.vma = mm.vma) : Unmapped mm mm' start stop := by
  refine ⟨fun p h1 h2 => mapping_eq_none.mpr fun x hx hcov => ?_,
    fun p hp => h.mapping_congr h' fun n => ?_⟩
  · rw [hvma] at hcov
    rcases mem_append.mp (hl' ▸ hx) with hx | hx
    · have := ha x hx
      have := hcov.2
      omega
    · have := hb x hx
      have := hcov.1
      omega
  · rw [hl, hl', hvma]
    refine exists_congr fun x => and_congr_left fun ⟨hcov, _⟩ => ?_
    have hxm : x ∉ m := fun hxm => by
      obtain ⟨h1, h2⟩ := hm x hxm
      have h3 := hcov.1
      have h4 := hcov.2
      omega
    simp only [mem_append, hxm, false_or]

theorem unmapAreas_spec (bal : SearchTree.Balance ℕ) (arch : Arch) (hne : m ≠ []) :
    ∃ mm', unmapAreas bal arch mm a.getLast? stop = some (none, mm') ∧ mm'.WellFormed ∧
      (mm.Hinted arch → mm'.Hinted arch) ∧ Unmapped mm mm' start stop ∧
      mm'.mapCount + m.length = mm.mapCount := by
  obtain ⟨x, m, rfl⟩ := exists_cons_of_ne_nil hne
  have hstart : ∀ y ∈ m, (mm.vma y).vmStart < stop := fun y hy => by
    have h1 := (hm y (mem_cons_of_mem _ hy)).2
    have h2 := (h.proper y (by simp [hl, hy])).nonempty
    omega
  obtain ⟨mm', hdetach, hwf', hh', hareas, hvma⟩ := detachVmas_spec bal arch h hl hstart
    fun y hy => hb y (mem_of_head? hy)
  refine ⟨mm', ?_, hwf', hh', unmapped_of_cut h hl ha hm hb hwf' hareas hvma, ?_⟩
  · simp only [unmapAreas, h.next_eq hl, cons_append, head?_cons, bind_eq_bind, bind_some, hdetach]
    rfl
  · rw [hwf'.count, h.count, hareas, hl]
    simp only [length_append]
    omega

end Cut

/-- An area reaches over the address and cannot be split there. -/
def Unsplit (mm : Mm) (addr : ℕ) (al : Alloc) (e : Errno) : Prop :=
  ∃ x ∈ mm.areas, (mm.vma x).vmStart < addr ∧ addr < (mm.vma x).vmEnd ∧
    SplitError (mm.vma x) addr al e

theorem SplitAt.unsplit {x n addr : ℕ} {al : Alloc} {e : Errno}
    (hs : SplitAt mm mm' a b x x n addr) (hl : mm.areas = a ++ x :: b)
    (hlo : (mm.vma x).vmStart < addr) (hle : addr ≤ stop) (h : Unsplit mm' stop al e) :
    Unsplit mm stop al e := by
  obtain ⟨y, hy, hstart, hend, herr⟩ := h
  have hout : ∀ z ∈ a ++ b, z = y → Unsplit mm stop al e := by
    rintro z hz rfl
    rw [hs.others z hz] at hstart hend herr
    exact ⟨z, by rw [hl]; simp only [mem_append, mem_cons] at hz ⊢; tauto, hstart, hend, herr⟩
  simp only [hs.areas, mem_append, mem_cons] at hy
  rcases hy with hy | rfl | rfl | hy
  · exact hout y (mem_append_left _ hy) rfl
  · rw [hs.lower] at hend
    exact absurd hend (not_lt.mpr hle)
  · -- the upper part has the flags and the end of the whole area
    rw [hs.upper] at hstart hend herr
    refine ⟨x, by simp [hl], hlo.trans hstart, hend, ?_⟩
    cases herr with
    | huge hflag hmod => exact .huge hflag hmod
    | memory hmem => exact .memory hmem
  · exact hout y (mem_append_right _ hy) rfl

variable (bal : SearchTree.Balance ℕ) (arch : Arch)

theorem Mm.Hinted.of_layout {arch : Arch} (hh : mm.Hinted arch) (hlay : mm'.layout = mm.layout) :
    mm'.Hinted arch := by
  simp only [Mm.layout, Prod.mk.injEq] at hlay
  obtain ⟨-, h2, h3, -⟩ := hlay
  exact ⟨h3 ▸ hh.free_aligned, h3 ▸ hh.free_le, h2 ▸ hh.base_aligned, h2 ▸ hh.base_le⟩

/-- What the rest of `do_munmap` does when no area reaches over the start of the range. -/
structure Rest (mm mm' : Mm) (start stop : ℕ) (m : List ℕ) (al : Alloc) (res : Option Errno) :
    Prop where
  done : res = none → Unmapped mm mm' start stop ∧ mm'.mapCount ≤ mm.mapCount ∧
    ∀ x ∈ m.head?, (mm.vma x).vmEnd ≤ stop → mm'.mapCount < mm.mapCount
  failed : res ≠ none → ∀ p, mm'.mapping p = mm.mapping p
  error : ∀ e ∈ res, Unsplit mm stop al e

theorem munmapRest_spec (h : mm.WellFormed) (hl : mm.areas = a ++ m)
    (ha : ∀ y ∈ a, (mm.vma y).vmEnd ≤ start) (hm : ∀ y ∈ m, start ≤ (mm.vma y).vmStart)
    (hfirst : ∃ x ∈ m.head?, (mm.vma x).vmStart < stop) (hstop : pageSize ∣ stop) {al : Alloc}
    (hnew : ∀ n, al.new = some n → n ∉ mm.areas) :
    ∃ res mm', munmapRest bal arch mm a.getLast? stop al = some (res, mm') ∧ mm'.WellFormed ∧
      (mm.Hinted arch → mm'.Hinted arch) ∧ Rest mm mm' start stop m al res := by
  obtain ⟨x, hx, hxstop⟩ := hfirst
  obtain ⟨m, rfl⟩ : ∃ m', m = x :: m' := head?_eq_some_iff.mp hx
  have hxstart := hm x mem_cons_self
  obtain ⟨c, r, hfind, hc, hfound⟩ := findVma_found h stop
  have hwf₁ : ({ mm with mmapCache := c } : Mm).WellFormed := h.withHints hc _ _
  have hh₁ : mm.Hinted arch → ({ mm with mmapCache := c } : Mm).Hinted arch :=
    fun hh => hh.of_layout rfl
  -- without a split, the areas that end in the range are removed
  have hwhole : ∀ m₁ b₁ : List ℕ, x :: m = m₁ ++ b₁ → (∀ y ∈ m₁, (mm.vma y).vmEnd ≤ stop) →
      (∀ y ∈ b₁, stop ≤ (mm.vma y).vmStart) → ∃ res mm',
      unmapAreas bal arch { mm with mmapCache := c } a.getLast? stop = some (res, mm') ∧
        mm'.WellFormed ∧ (mm.Hinted arch → mm'.Hinted arch) ∧
        Rest mm mm' start stop (x :: m) al res := by
    intro m₁ b₁ hm₁ hend hb₁
    have hne : m₁ ≠ [] := by
      rintro rfl
      have := hb₁ x (by rw [← nil_append b₁, ← hm₁]; simp)
      omega
    have hmid : ∀ y ∈ m₁, start ≤ (mm.vma y).vmStart ∧ (mm.vma y).vmEnd ≤ stop := fun y hy =>
      ⟨hm y (by rw [hm₁]; exact mem_append_left _ hy), hend y hy⟩
    obtain ⟨mm', hun, hwf', hh', hunm, hcount⟩ := unmapAreas_spec
      hwf₁ (by rw [← hm₁]; exact hl) ha hmid hb₁ bal arch hne
    have hpos := length_pos_iff.mpr hne
    dsimp only at hcount
    exact ⟨none, mm', hun, hwf', fun hh => hh' (hh₁ hh), fun _ => ⟨⟨hunm.inside, hunm.outside⟩,
      by omega, fun _ _ _ => by omega⟩, fun hne' => absurd rfl hne', by simp⟩
  rw [munmapRest, hfind]
  cases hfound with
  | none hall =>
    have hmem : ∀ y ∈ x :: m, (mm.vma y).vmEnd ≤ stop := fun y hy =>
      hall y (by rw [hl]; exact mem_append_right _ hy)
    exact hwhole (x :: m) [] (by simp) hmem (by simp)
  | @some a₁ b₁ y hl₁ ha₁ hy =>
    obtain ⟨m₁, rfl, hm₁⟩ := (split_cases (hl.symm.trans hl₁)).resolve_right fun ⟨c, hc, _⟩ => by
      have := ha y (by simp [hc])
      omega
    have hend₁ : ∀ z ∈ m₁, (mm.vma z).vmEnd ≤ stop := fun z hz =>
      ha₁ z (mem_append_right _ hz)
    by_cases hlow : (mm.vma y).vmStart < stop
    · -- the last area reaches over the end
      simp only [filter_some, hlow, decide_true, if_true]
      rcases splitVma_spec bal hwf₁ hl₁ hlow hy hstop al hnew true with
        ⟨e, he, herr⟩ | ⟨n, mm₂, hn, hok, hs⟩
      · rw [he]
        refine ⟨some e, _, rfl, hwf₁, hh₁, fun hnone => (nomatch hnone), fun _ p => rfl, ?_⟩
        rintro _ ⟨⟩
        exact ⟨y, by simp [hl₁], hlow, hy, herr⟩
      · rw [hok]
        simp only [if_true] at hs
        have hmap := hs.mapping hwf₁ hl₁ hlow hy hstop
        have hareas₂ : mm₂.areas = a ++ ((m₁ ++ [n]) ++ y :: b₁) := by rw [hs.areas]; simp
        have hsame : ∀ z ∈ a ++ m₁ ++ b₁, mm₂.vma z = mm.vma z := hs.others
        have hmid : ∀ z ∈ m₁ ++ [n], start ≤ (mm₂.vma z).vmStart ∧ (mm₂.vma z).vmEnd ≤ stop := by
          intro z hz
          rcases mem_append.mp hz with hz | hz
          · rw [hsame z (by simp [hz])]
            exact ⟨hm z (by simp [hm₁, hz]), hend₁ z hz⟩
          · rw [mem_singleton.mp hz, hs.lower]
            exact ⟨hm y (by simp [hm₁]), le_refl _⟩
        obtain ⟨mm', hun, hwf', hh', hunm, hcount⟩ := unmapAreas_spec hs.wellFormed hareas₂
          (fun z hz => by rw [hsame z (by simp [hz])]; exact ha z hz) hmid (hs.behind hwf₁ hl₁ hy)
          bal arch (by simp)
        have hcount₂ : mm₂.mapCount = mm.mapCount + 1 := (hs.count hwf₁ hl₁ :)
        refine ⟨none, mm', hun, hwf', fun hh => hh' ((hh₁ hh).of_layout hs.layout),
          fun _ => ⟨⟨hunm.inside, fun p hp => ?_⟩, ?_, ?_⟩, fun hne' => absurd rfl hne', by simp⟩
        · rw [hunm.outside p hp, hmap p]
          rfl
        · rw [length_append, length_singleton] at hcount
          omega
        · intro z hz hzend
          obtain rfl : x = z := by simpa using hz
          -- the first area is not the one that is split
          have hne : m₁ ≠ [] := by
            rintro rfl
            obtain ⟨rfl, -⟩ := cons.inj hm₁
            omega
          have := length_pos_iff.mpr hne
          rw [length_append, length_singleton] at hcount
          omega
    · simp only [filter_some, hlow]
      exact hwhole m₁ (y :: b₁) hm₁ hend₁ (h.le_start hl₁ (not_lt.mp hlow))

structure Fresh (mm : Mm) (al₁ al₂ : Alloc) : Prop where
  first : ∀ n, al₁.new = some n → n ∉ mm.areas
  second : ∀ n, al₂.new = some n → n ∉ mm.areas
  ne : ∀ n, al₁.new = some n → al₂.new ≠ some n

/-- Why `do_munmap` fails for a range of pages: there would be too many areas, or one of the two
areas at its ends cannot be split. -/
inductive RangeError (arch : Arch) (mm : Mm) (start stop : ℕ) (al₁ al₂ : Alloc) : Errno → Prop
  | limit {x : ℕ} : x ∈ mm.areas → (mm.vma x).vmStart < start → stop < (mm.vma x).vmEnd →
    arch.sysctlMaxMapCount ≤ mm.mapCount → RangeError arch mm start stop al₁ al₂ .enomem
  | first {e : Errno} : Unsplit mm start al₁ e → RangeError arch mm start stop al₁ al₂ e
  | second {e : Errno} : Unsplit mm stop al₂ e → RangeError arch mm start stop al₁ al₂ e

structure MunmapResult (arch : Arch) (mm mm' : Mm) (start stop : ℕ) (res : Option Errno) :
    Prop where
  wellFormed : mm'.WellFormed
  hinted : mm.Hinted arch → mm'.Hinted arch
  done : res = none → Unmapped mm mm' start stop ∧
    mm'.mapCount ≤ max mm.mapCount arch.sysctlMaxMapCount
  failed : res ≠ none → ∀ p, mm'.mapping p = mm.mapping p

theorem MunmapResult.fail {arch : Arch} (h : mm.WellFormed) (e : Errno) :
    MunmapResult arch mm mm start stop (some e) :=
  ⟨h, id, fun hnone => (nomatch hnone), fun _ _ => rfl⟩

theorem pageAlign_bounds {len n : ℕ} (hlen : len ≤ n) (hn : pageSize ∣ n) (hlt : n < 2 ^ 64) :
    len ≤ pageAlign len ∧ pageAlign len ≤ n := by
  obtain ⟨k, rfl⟩ := hn
  simp only [pageAlign, pageSize, uadd] at hlen hlt ⊢
  omega

variable {arch}

theorem munmapFrom_spec (h : mm.WellFormed) (hfresh : Fresh mm al₁ al₂)
    (hstart : pageSize ∣ start) (hstop : pageSize ∣ stop) (hlt : start < stop) {v : ℕ}
    (hl : mm.areas = a ++ v :: b) (ha : ∀ y ∈ a, (mm.vma y).vmEnd ≤ start)
    (hv : start < (mm.vma v).vmEnd) (hvstop : (mm.vma v).vmStart < stop) :
    ∃ res mm', munmapFrom bal arch mm v start stop al₁ al₂ = some (res, mm') ∧
      MunmapResult arch mm mm' start stop res ∧
      ∀ e ∈ res, RangeError arch mm start stop al₁ al₂ e := by
  have hmem : v ∈ mm.areas := by simp [hl]
  rw [munmapFrom]
  split
  · rename_i hlow
    split
    · rename_i hlimit
      refine ⟨_, _, rfl, .fail h _, ?_⟩
      rintro _ ⟨⟩
      exact .limit hmem hlow hlimit.1 hlimit.2
    · rcases splitVma_spec bal h hl hlow hv hstart al₁ hfresh.first false with
        ⟨e, he, herr⟩ | ⟨n, mm₂, hn, hok, hs⟩
      · rw [he]
        refine ⟨_, _, rfl, .fail h e, ?_⟩
        rintro _ ⟨⟩
        exact .first ⟨v, hmem, hlow, hv, herr⟩
      · simp only [Bool.false_eq_true, if_false] at hs
        have hmap := hs.mapping h hl hlow hv hstart
        have hnew : ∀ k, al₂.new = some k → k ∉ mm₂.areas := fun k hk hmem => by
          have hkn : k ≠ n := fun heq => hfresh.ne n hn (heq ▸ hk)
          have hkl := hfresh.second k hk
          simp only [hs.areas, hl, mem_append, mem_cons] at hmem hkl
          tauto
        have hbelow : ∀ y ∈ a ++ [v], (mm₂.vma y).vmEnd ≤ start := by
          refine forall_mem_append.mpr ⟨fun y hy => ?_, by simp [hs.lower, Vma.lower]⟩
          rw [hs.others y (mem_append_left _ hy)]
          exact ha y hy
        have hupper : (mm₂.vma n).vmStart = start ∧ (mm₂.vma n).vmEnd = (mm.vma v).vmEnd := by
          rw [hs.upper]
          exact ⟨rfl, rfl⟩
        have hfirst : ∃ x ∈ (n :: b).head?, (mm₂.vma x).vmStart < stop := ⟨n, rfl, by omega⟩
        obtain ⟨res, mm', hrest, hwf', hh', hr⟩ := munmapRest_spec bal arch
          hs.wellFormed (by rw [hs.areas]; simp) hbelow (hs.behind h hl hv) hfirst hstop hnew
        have hcount := hs.count h hl
        refine ⟨res, mm', ?_, ⟨hwf', fun hh => hh' (hh.of_layout hs.layout), fun hres => ?_,
          fun hres p => by rw [hr.failed hres p, hmap p]⟩,
          fun e he => .second (hs.unsplit hl hlow (le_of_lt hlt) (hr.error e he))⟩
        · rw [hok]
          simpa using hrest
        · obtain ⟨hunm, hle, hlt⟩ := hr.done hres
          refine ⟨⟨hunm.inside, fun p hp => by rw [hunm.outside p hp, hmap p]⟩, ?_⟩
          -- the count grows only if the range lies inside one area
          rcases lt_or_ge stop (mm.vma v).vmEnd with hin | hout
          · omega
          · have := hlt n rfl (by omega)
            omega
  · rename_i hlow
    have hprev : mm.vmPrev v = a.getLast? := by
      have := (hl ▸ h.links).at.1
      simpa using this
    obtain ⟨res, mm', hrest, hwf', hh', hr⟩ := munmapRest_spec bal arch h hl ha
      (h.le_start hl (not_lt.mp hlow)) ⟨v, rfl, hvstop⟩ hstop hfresh.second
    refine ⟨res, mm', by rw [hprev, hrest], ⟨hwf', hh', fun hres => ?_, hr.failed⟩,
      fun e he => .second (hr.error e he)⟩
    obtain ⟨hunm, hle, -⟩ := hr.done hres
    exact ⟨hunm, le_trans hle (le_max_left ..)⟩

theorem unmapped_of_free (hfree : ∀ x ∈ mm.areas, (mm.vma x).vmEnd ≤ start ∨
    stop ≤ (mm.vma x).vmStart) (c : Option ℕ) :
    Unmapped mm { mm with mmapCache := c } start stop := by
  refine ⟨fun p h1 h2 => mapping_eq_none.mpr fun x hx hcov => ?_, fun _ _ => rfl⟩
  have h3 : (mm.vma x).vmStart ≤ p := hcov.1
  have h4 : p < (mm.vma x).vmEnd := hcov.2
  rcases hfree x hx with h | h <;> omega

/-- Why `do_munmap` fails: bad arguments, or the range cannot be cut out. -/
inductive MunmapError (arch : Arch) (mm : Mm) (start len : ℕ) (al₁ al₂ : Alloc) : Errno → Prop
  | args : start % pageSize ≠ 0 ∨ start > arch.taskSize ∨ len > arch.taskSize - start ∨
    pageAlign len = 0 → MunmapError arch mm start len al₁ al₂ .einval
  | range {e : Errno} : RangeError arch mm start (start + pageAlign len) al₁ al₂ e →
    MunmapError arch mm start len al₁ al₂ e

theorem RangeError.of_withHints {c : Option ℕ} {i j : ℕ} {e : Errno}
    (h : RangeError arch (mm.withHints c i j) start stop al₁ al₂ e) :
    RangeError arch mm start stop al₁ al₂ e := by
  cases h with
  | limit hx hlo hhi hcount => exact .limit hx hlo hhi hcount
  | first h => exact .first h
  | second h => exact .second h

theorem doMunmap_result (hts : arch.taskSize < 2 ^ 64) (hta : pageSize ∣ arch.taskSize)
    (h : mm.WellFormed) (hfresh : Fresh mm al₁ al₂) (start len : ℕ) :
    ∃ res mm', doMunmap bal arch mm start len al₁ al₂ = some (res, mm') ∧
      MunmapResult arch mm mm' start (start + pageAlign len) res ∧
      ∀ e ∈ res, MunmapError arch mm start len al₁ al₂ e := by
  rw [doMunmap]
  split
  · rename_i hargs
    refine ⟨_, _, rfl, .fail h _, ?_⟩
    rintro _ ⟨⟩
    exact .args (by tauto)
  · rename_i hargs
    simp only [not_or, not_not, not_lt] at hargs
    obtain ⟨hmod, hle, hlen⟩ := hargs
    have hstart : pageSize ∣ start := dvd_of_mod_eq_zero hmod
    obtain ⟨h1, h2⟩ := pageAlign_bounds hlen (dvd_sub hta hstart) (by omega)
    split
    · rename_i hzero
      refine ⟨_, _, rfl, .fail h _, ?_⟩
      rintro _ ⟨⟩
      exact .args (.inr (.inr (.inr hzero)))
    · have hstop : uadd start (pageAlign len) = start + pageAlign len := uadd_of_lt (by omega)
      have hal : pageSize ∣ start + pageAlign len := Nat.dvd_add hstart (dvd_mul_left ..)
      obtain ⟨c, r, hfind, hc, hfound⟩ := findVma_found h start
      have hnothing : (∀ x ∈ mm.areas, (mm.vma x).vmEnd ≤ start ∨
          start + pageAlign len ≤ (mm.vma x).vmStart) →
          MunmapResult arch mm { mm with mmapCache := c } start (start + pageAlign len) none :=
        fun hfree => ⟨h.withHints hc _ _, fun hh => hh.of_layout rfl,
          fun _ => ⟨unmapped_of_free hfree c, le_max_left ..⟩, fun hne => absurd rfl hne⟩
      rw [hfind, hstop]
      cases hfound with
      | none hall => exact ⟨_, _, rfl, hnothing fun x hx => .inl (hall x hx), by simp⟩
      | @some a b v hl ha hvend =>
        dsimp only
        split
        · rename_i hge
          refine ⟨_, _, rfl, hnothing fun x hx => ?_, by simp⟩
          rw [hl] at hx
          exact (mem_append.mp hx).imp (ha x) (h.le_start hl hge x)
        · rename_i hlt
          obtain ⟨res, mm', heq, hr, herr⟩ := munmapFrom_spec bal (h.withHints hc
            mm.cachedHoleSize mm.freeAreaCache) ⟨hfresh.first, hfresh.second, hfresh.ne⟩ hstart hal
            (by omega) hl ha hvend (not_le.mp hlt)
          refine ⟨res, mm', heq, ⟨hr.wellFormed, fun hh => hr.hinted (hh.of_layout rfl),
            fun hres => ?_, hr.failed⟩, fun e he => .range (herr e he).of_withHints⟩
          obtain ⟨hunm, hcount⟩ := hr.done hres
          exact ⟨⟨hunm.inside, hunm.outside⟩, hcount⟩

def fourPages : Vma := ⟨0x1000, 0x5000, 1, 0#64, none, 0, none, [], false, pageSize⟩

def oneArea : Mm where
  vma _ := fourPages
  vmNext _ := none
  vmPrev _ := none
  mmap := some 0
  mmRb := .node .black .leaf 0 .leaf
  mmapCache := none
  mapCount := 1
  topdown := false
  mmapBase := 0x3000
  freeAreaCache := 0x3000
  cachedHoleSize := 0

def smallArch : Arch := ⟨0x8000, 0x3000, 10⟩

theorem fourPages_proper : fourPages.Proper := ⟨by decide, by decide, by decide, by decide⟩

theorem oneArea_wellFormed : oneArea.WellFormed :=
  ⟨⟨rfl, ⟨rfl, rfl, trivial⟩, rfl, fun _ hc => (nomatch hc)⟩, fun _ _ => fourPages_proper,
    pairwise_singleton ..⟩

/-- `do_munmap` unmaps the pages of the range and no others, or it fails and changes no mapping. It
fails only for bad arguments, at the limit for the number of areas, inside a huge page or for lack
of memory. The structures agree in either case. -/
theorem do_munmap_unmaps (hts : arch.taskSize < 2 ^ 64) (hta : pageSize ∣ arch.taskSize)
    (h : mm.WellFormed) {al₁ al₂ : Alloc} (hfresh : Fresh mm al₁ al₂) (start len : ℕ) :
    ∃ res mm', doMunmap bal arch mm start len al₁ al₂ = some (res, mm') ∧ mm'.WellFormed ∧
      (res = none →
        (∀ p, start ≤ p → p < start + pageAlign len → mm'.mapping p = none) ∧
        (∀ p, ¬(start ≤ p ∧ p < start + pageAlign len) → mm'.mapping p = mm.mapping p) ∧
        mm'.mapCount ≤ max mm.mapCount arch.sysctlMaxMapCount) ∧
      (∀ e, res = some e → MunmapError arch mm start len al₁ al₂ e ∧
        ∀ p, mm'.mapping p = mm.mapping p) := by
  obtain ⟨res, mm', heq, hr, herr⟩ := doMunmap_result bal hts hta h hfresh start len
  refine ⟨res, mm', heq, hr.wellFormed, fun hres => ?_,
    fun e he => ⟨herr e he, hr.failed (by simp [he])⟩⟩
  obtain ⟨hunm, hcount⟩ := hr.done hres
  exact ⟨hunm.inside, hunm.outside, hcount⟩

/-- One page out of the middle of an area: both ends are split. -/
theorem do_munmap_unmaps_hole :
    ∃ mm', doMunmap (SearchTree.noBalance ℕ) smallArch oneArea 0x2000 0x1000
        ⟨some 1, true, true⟩ ⟨some 2, true, true⟩ = some (none, mm') ∧ mm'.WellFormed ∧
      (∀ p, 0x2000 ≤ p → p < 0x2000 + pageAlign 0x1000 → mm'.mapping p = none) ∧
      (∀ p, ¬(0x2000 ≤ p ∧ p < 0x2000 + pageAlign 0x1000) → mm'.mapping p = oneArea.mapping p) ∧
      mm'.mapCount = 2 := by
  have hrun : ∃ mm', doMunmap (SearchTree.noBalance ℕ) smallArch oneArea 0x2000 0x1000
      ⟨some 1, true, true⟩ ⟨some 2, true, true⟩ = some (none, mm') ∧ mm'.mapCount = 2 :=
    ⟨_, rfl, rfl⟩
  obtain ⟨mm', hrun, hcount⟩ := hrun
  obtain ⟨res, mm'', heq, hwf, hdone, -⟩ := do_munmap_unmaps (SearchTree.noBalance ℕ)
    (by decide : smallArch.taskSize < 2 ^ 64) (by decide) oneArea_wellFormed
    (show Fresh oneArea ⟨some 1, true, true⟩ ⟨some 2, true, true⟩ from
      ⟨by rintro _ ⟨⟩; decide, by rintro _ ⟨⟩; decide, by rintro _ ⟨⟩; decide⟩) 0x2000 0x1000
  obtain ⟨rfl, rfl⟩ := Prod.mk.inj (Option.some.inj (hrun.symm.trans heq))
  obtain ⟨hin, hout, -⟩ := hdone rfl
  exact ⟨mm', hrun, hwf, hin, hout, hcount⟩

end Munmap

end LinuxKernel.Mmap
