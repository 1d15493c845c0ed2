import LinuxKernel.Mmap.Munmap

/-! # Adjusting areas

`vma_adjust` extends an area, moves the boundary between two areas, or lets an area take over the
next one or two. Whatever it does, the areas before and behind these stay as they are.
-/

namespace LinuxKernel.Mmap

open Function List

section Local

/-- The fields of an area that its pages depend on. -/
structure Vma.Is (v : Vma) (start stop pgoff : ℕ) (w : Vma) : Prop where
  start : v.vmStart = start
  stop : v.vmEnd = stop
  pgoff : v.vmPgoff = pgoff
  flags : v.vmFlags = w.vmFlags
  file : v.vmFile = w.vmFile

/-- The areas map the same pages in the same way. -/
def Vma.Alike (v w : Vma) : Prop := v.Is w.vmStart w.vmEnd w.vmPgoff w

theorem Vma.Alike.refl (v : Vma) : v.Alike v := ⟨rfl, rfl, rfl, rfl, rfl⟩

variable {u v w : Vma} {p : ℕ}

theorem Vma.Is.of_alike {start stop pgoff : ℕ} (h : u.Is start stop pgoff v) (h' : v.Alike w) :
    u.Is start stop pgoff w :=
  ⟨h.start, h.stop, h.pgoff, h.flags.trans h'.flags, h.file.trans h'.file⟩

theorem Vma.Alike.trans (h : u.Alike v) (h' : v.Alike w) : u.Alike w :=
  ⟨h.start.trans h'.start, h.stop.trans h'.stop, h.pgoff.trans h'.pgoff, h.flags.trans h'.flags,
    h.file.trans h'.file⟩

theorem Vma.Alike.proper (h : v.Alike w) (hw : w.Proper) : v.Proper :=
  ⟨by rw [h.start, h.stop]; exact hw.nonempty, by rw [h.start]; exact hw.start_aligned,
    by rw [h.stop]; exact hw.end_aligned, by rw [h.stop]; exact hw.end_lt⟩

theorem Vma.Alike.covers (h : v.Alike w) : v.covers p ↔ w.covers p := by
  rw [Vma.covers, Vma.covers, h.start, h.stop]

theorem Vma.Alike.mapping (h : v.Alike w) : v.mapping p = w.mapping p := by
  rw [Vma.mapping, Vma.mapping, h.start, h.pgoff, h.flags, h.file]

/-- A part of the list is replaced, and the areas outside it stay as they are. -/
structure Local (mm mm' : Mm) (a mid mid' b : List ℕ) : Prop where
  areas : mm.areas = a ++ (mid ++ b)
  agrees : mm'.Agrees
  areas' : mm'.areas = a ++ (mid' ++ b)
  others : ∀ y ∈ a ++ b, (mm'.vma y).Alike (mm.vma y)

variable {mm mm' : Mm} {a mid mid' b : List ℕ}

theorem Local.of_alike {vma : ℕ → Vma} (hloc : Local { mm with vma } mm' a mid mid' b)
    (h : ∀ y, (vma y).Alike (mm.vma y)) : Local mm mm' a mid mid' b :=
  ⟨hloc.areas, hloc.agrees, hloc.areas', fun y hy => (hloc.others y hy).trans (h y)⟩

theorem Local.wellFormed (hloc : Local mm mm' a mid mid' b) (h : mm.WellFormed) {lo hi : ℕ}
    (ha : ∀ y ∈ a, (mm.vma y).vmEnd ≤ lo) (hb : ∀ y ∈ b, hi ≤ (mm.vma y).vmStart)
    (hmid : ∀ y ∈ mid', (mm'.vma y).Proper ∧ lo ≤ (mm'.vma y).vmStart ∧ (mm'.vma y).vmEnd ≤ hi)
    (hlohi : lo ≤ hi)
    (hsorted : mid'.Pairwise fun x y => (mm'.vma x).vmEnd ≤ (mm'.vma y).vmStart) :
    mm'.WellFormed := by
  have hal := fun y hy => hloc.others y (mem_append_left b hy)
  have hbl := fun y hy => hloc.others y (mem_append_right a hy)
  have hs := h.sorted
  rw [hloc.areas] at hs
  obtain ⟨hsa, hsmb, hamb⟩ := pairwise_append.mp hs
  obtain ⟨-, hsb, -⟩ := pairwise_append.mp hsmb
  have ha' : ∀ y ∈ a, (mm'.vma y).vmEnd ≤ lo := fun y hy => (hal y hy).stop ▸ ha y hy
  have hb' : ∀ y ∈ b, hi ≤ (mm'.vma y).vmStart := fun y hy => (hbl y hy).start ▸ hb y hy
  refine { hloc.agrees with proper := fun y hy => ?_, sorted := ?_ }
  · rw [hloc.areas', mem_append, mem_append] at hy
    rcases hy with hy | hy | hy
    · exact (hal y hy).proper (h.proper y (by simp [hloc.areas, hy]))
    · exact (hmid y hy).1
    · exact (hbl y hy).proper (h.proper y (by simp [hloc.areas, hy]))
  · rw [hloc.areas']
    refine pairwise_append.mpr ⟨?_, pairwise_append.mpr ⟨hsorted, ?_, ?_⟩, ?_⟩
    · refine hsa.imp_of_mem fun hx hy hxy => ?_
      rw [(hal _ hx).stop, (hal _ hy).start]
      exact hxy
    · refine hsb.imp_of_mem fun hx hy hxy => ?_
      rw [(hbl _ hx).stop, (hbl _ hy).start]
      exact hxy
    · exact fun x hx y hy => le_trans (hmid x hx).2.2 (hb' y hy)
    · intro x hx y hy
      rcases mem_append.mp hy with hy | hy
      · exact le_trans (ha' x hx) (hmid y hy).2.1
      · exact le_trans (ha' x hx) (le_trans hlohi (hb' y hy))

end Local

section Adjust

variable (bal : SearchTree.Balance ℕ) {clone : ℕ → Bool} {mm : Mm} {v n x : ℕ} {a b : List ℕ}
  {start stop pgoff fuel : ℕ}

theorem importAnonVma_alike (mm : Mm) (importer : ℕ) {exporter : ℕ}
    (hclone : clone exporter = true) :
    ∃ vma, importAnonVma clone mm importer exporter = some { mm with vma } ∧
      ∀ y, (vma y).Alike (mm.vma y) := by
  simp only [importAnonVma]
  split
  · refine ⟨_, rfl, fun y => ?_⟩
    by_cases hy : y = importer
    · subst hy
      rw [update_self]
      exact ⟨rfl, rfl, rfl, rfl, rfl⟩
    · rw [update_of_ne hy]
      exact .refl _
  · exact ⟨mm.vma, rfl, fun y => .refl _⟩

theorem setRange_self :
    ((setRange mm v start stop pgoff).vma v).Is start stop pgoff (mm.vma v) := by
  simp only [setRange, update_self]
  exact ⟨rfl, rfl, rfl, rfl, rfl⟩

theorem setRange_of_ne {y : ℕ} (hy : y ≠ v) :
    (setRange mm v start stop pgoff).vma y = mm.vma y := by
  simp only [setRange, update_of_ne hy]

theorem Mm.Agrees.withVma (h : mm.Agrees) (vma : ℕ → Vma) : ({ mm with vma } : Mm).Agrees :=
  ⟨h.head, h.links, h.count, h.cache⟩

theorem Mm.Agrees.next_of_areas (h : mm.Agrees) (hl : mm.areas = a ++ v :: b) :
    mm.vmNext v = b.head? := by
  have := (hl ▸ h.links).at.2
  rwa [Option.or_none] at this

theorem vmaAdjust_keep (clone : ℕ → Bool) (fuel start pgoff : ℕ) (h : mm.WellFormed)
    (hl : mm.areas = a ++ v :: b) (hb : ∀ y ∈ b, stop ≤ (mm.vma y).vmStart)
    (hv : (mm.vma v).vmEnd ≤ stop) :
    ∃ mm', vmaAdjust bal clone fuel mm v start stop pgoff none = some (none, mm') ∧
      Local mm mm' a [v] [v] b ∧ (mm'.vma v).Is start stop pgoff (mm.vma v) := by
  have hnext := h.toAgrees.next_of_areas hl
  have hset : vmaAdjust bal clone fuel mm v start stop pgoff none =
      some (none, setRange mm v start stop pgoff) := by
    simp only [vmaAdjust, hnext]
    cases b with
    | nil => rfl
    | cons y b =>
      have h1 := hb y mem_cons_self
      have h2 := (h.proper y (by simp [hl])).nonempty
      simp only [head?_cons]
      rw [if_neg (by omega), if_neg (by omega), if_neg (by omega)]
  refine ⟨_, hset, ⟨hl, h.toAgrees.withVma _, hl, fun y hy => ?_⟩, setRange_self⟩
  rw [setRange_of_ne (ne_of_areas h.nodup hl hy)]
  exact .refl _

theorem vmaUnlink_agrees (h : mm.Agrees) (hnd : mm.areas.Nodup) (hl : mm.areas = a ++ v :: n :: b) :
    ({ vmaUnlink bal mm n v with mapCount := mm.mapCount - 1 } : Mm).Agrees ∧
      (vmaUnlink bal mm n v).areas = a ++ v :: b := by
  have hl' : mm.areas = (a ++ [v]) ++ ([n] ++ b) := by simp [hl]
  have hareas : (vmaUnlink bal mm n v).areas = (a ++ [v]) ++ b := by
    change (bal.erase mm.mmRb n).inorder = _
    rw [bal.inorder_erase, show mm.mmRb.inorder = mm.areas from rfl, hl']
    exact erase_middle (hl' ▸ hnd)
  have hnext : mm.vmNext n = b.head? := h.next_of_areas hl'
  refine ⟨h.cut hnd hl' hareas ?_ (fun y _ => ?_) (fun y _ => ?_) ?_ fun c hc => ?_,
    by simp [hareas]⟩
  · rw [show (vmaUnlink bal mm n v).mmap = mm.mmap from rfl, h.head, hl]
    cases a <;> rfl
  · simp [vmaUnlink, hnext]
  · simp [vmaUnlink, hnext]
  · simp only [h.count, hl, length_append, length_cons, length_nil]
    omega
  · simp only [vmaUnlink] at hc
    split at hc
    · cases hc
      simp
    · rename_i hne
      have := h.cache c hc
      rw [hl] at this
      simp only [mem_append, mem_cons] at this ⊢
      have hcn : c ≠ n := fun heq => hne (heq ▸ hc)
      tauto

theorem removePass_local (start stop pgoff : ℕ) (h : mm.Agrees) (hnd : mm.areas.Nodup)
    (hl : mm.areas = a ++ v :: n :: b) :
    Local mm (removePass bal mm v start stop pgoff n) a [v, n] [v] b ∧
      ((removePass bal mm v start stop pgoff n).vma v).Is start stop pgoff (mm.vma v) := by
  obtain ⟨hagrees, hareas⟩ := vmaUnlink_agrees bal h hnd hl
  refine ⟨⟨hl, hagrees.withVma _, hareas, fun y hy => ?_⟩, setRange_self⟩
  have hyv : y ≠ v := ne_of_areas hnd hl (by simp at hy ⊢; tauto)
  rw [show (removePass bal mm v start stop pgoff n).vma y = mm.vma y from setRange_of_ne hyv]
  exact .refl _

theorem removeNext_one (fuel start stop pgoff : ℕ) (h : mm.Agrees) (hnd : mm.areas.Nodup)
    (hl : mm.areas = a ++ v :: n :: b) (hclone : ∀ e, clone e = true)
    (hstop : stop ≤ (mm.vma n).vmEnd) :
    ∃ mm', removeNext bal clone v start pgoff (fuel + 1) mm stop n = some (none, mm') ∧
      Local mm mm' a [v, n] [v] b ∧ (mm'.vma v).Is start (mm.vma n).vmEnd pgoff (mm.vma v) := by
  obtain ⟨vma, himport, halike⟩ := importAnonVma_alike mm v (hclone n)
  obtain ⟨hloc, his⟩ := removePass_local bal start (mm.vma n).vmEnd pgoff (h.withVma vma) hnd hl
  refine ⟨_, ?_, hloc.of_alike halike, his.of_alike (halike v)⟩
  simp only [removeNext, himport, not_lt.mpr hstop, if_false]

theorem removeNext_two (fuel start stop pgoff : ℕ) (h : mm.Agrees) (hnd : mm.areas.Nodup)
    (hl : mm.areas = a ++ v :: n :: x :: b) (hclone : ∀ e, clone e = true)
    (hstop : stop > (mm.vma n).vmEnd) (hnx : (mm.vma n).vmEnd ≤ (mm.vma x).vmEnd) :
    ∃ mm', removeNext bal clone v start pgoff (fuel + 2) mm stop n = some (none, mm') ∧
      Local mm mm' a [v, n, x] [v] b ∧
      (mm'.vma v).Is start (mm.vma x).vmEnd pgoff (mm.vma v) := by
  obtain ⟨vma, himport, halike⟩ := importAnonVma_alike mm v (hclone n)
  obtain ⟨hloc, his⟩ := removePass_local bal start (mm.vma n).vmEnd pgoff (h.withVma vma) hnd hl
  have hloc' := hloc.of_alike halike
  generalize hmm₁ : removePass bal { mm with vma } v start (mm.vma n).vmEnd pgoff n = mm₁
    at hloc his hloc'
  -- the second pass finds the area behind
  have hareas₁ : mm₁.areas = a ++ v :: x :: b := hloc.areas'
  have hnd₁ : mm₁.areas.Nodup := by
    rw [hareas₁]
    refine (hl ▸ hnd).sublist ?_
    exact ((sublist_cons_self n _).cons_cons v).append_left a
  have hnext₁ : mm₁.vmNext v = some x := hloc.agrees.next_of_areas hareas₁
  have hx := hloc'.others x (by simp)
  obtain ⟨mm₂, hrem, hloc₂, his₂⟩ := removeNext_one bal fuel start (mm.vma n).vmEnd pgoff
    hloc.agrees hnd₁ hareas₁ hclone (by rw [hx.stop]; exact hnx)
  rw [hx.stop] at his₂
  refine ⟨mm₂, ?_, ⟨hl, hloc₂.agrees, hloc₂.areas', fun y hy => ?_⟩, ?_⟩
  · rw [removeNext]
    simp only [himport, hstop, hmm₁, hnext₁]
    exact hrem
  · refine (hloc₂.others y hy).trans (hloc'.others y ?_)
    simp only [mem_append] at hy ⊢
    tauto
  · exact ⟨his₂.start, his₂.stop, his₂.pgoff,
      (his₂.flags.trans his.flags).trans (halike v).flags,
      (his₂.file.trans his.file).trans (halike v).file⟩

theorem adjustNext_local (h : mm.WellFormed) (hl : mm.areas = a ++ v :: n :: b) {vma : ℕ → Vma}
    (halike : ∀ y, (vma y).Alike (mm.vma y)) {k : ℤ} {start' pgoff' : ℕ}
    (hstart : ((((mm.vma n).vmStart : ℤ) + k * pageSize) % 2 ^ 64).toNat = start')
    (hpgoff : ((((mm.vma n).vmPgoff : ℤ) + k) % 2 ^ 64).toNat = pgoff') :
    Local mm (adjustNext (setRange { mm with vma } v start stop pgoff) n k) a [v, n] [v, n] b ∧
      ((adjustNext (setRange { mm with vma } v start stop pgoff) n k).vma v).Is start stop pgoff
        (mm.vma v) ∧
      ((adjustNext (setRange { mm with vma } v start stop pgoff) n k).vma n).Is start'
        (mm.vma n).vmEnd pgoff' (mm.vma n) := by
  have hvn : n ≠ v := ne_of_areas h.nodup hl (by simp)
  have hrange : (setRange { mm with vma } v start stop pgoff).vma n = vma n := setRange_of_ne hvn
  refine ⟨⟨hl, h.toAgrees.withVma _, hl, fun y hy => ?_⟩, ?_, ?_⟩
  · have hyv : y ≠ v := ne_of_areas h.nodup hl (by simp at hy ⊢; tauto)
    have hyn : y ≠ n := ne_of_areas (a := a ++ [v]) (b := b) h.nodup (by simp [hl])
      (by simp at hy ⊢; tauto)
    simp only [adjustNext, update_of_ne hyn]
    rw [show (setRange { mm with vma } v start stop pgoff).vma y = vma y from setRange_of_ne hyv]
    exact halike y
  · simp only [adjustNext, update_of_ne hvn.symm]
    exact setRange_self.of_alike (halike v)
  · simp only [adjustNext, update_self, hrange]
    exact ⟨by rw [(halike n).start]; exact hstart, (halike n).stop,
      by rw [(halike n).pgoff]; exact hpgoff, (halike n).flags, (halike n).file⟩

variable (fuel start pgoff : ℕ) (h : mm.WellFormed) (hclone : ∀ e, clone e = true)
include h hclone

theorem vmaAdjust_one (hl : mm.areas = a ++ v :: n :: b) :
    ∃ mm', vmaAdjust bal clone (fuel + 1) mm v start (mm.vma n).vmEnd pgoff none =
        some (none, mm') ∧
      Local mm mm' a [v, n] [v] b ∧ (mm'.vma v).Is start (mm.vma n).vmEnd pgoff (mm.vma v) := by
  have hnext : mm.vmNext v = some n := h.toAgrees.next_of_areas hl
  obtain ⟨mm', hrem, hmm'⟩ := removeNext_one bal fuel start (mm.vma n).vmEnd pgoff h.toAgrees
    h.nodup hl hclone (le_refl _)
  refine ⟨mm', ?_, hmm'⟩
  simp only [vmaAdjust, hnext, le_refl]
  exact hrem

theorem vmaAdjust_two (hl : mm.areas = a ++ v :: n :: x :: b) :
    ∃ mm', vmaAdjust bal clone (fuel + 2) mm v start (mm.vma x).vmEnd pgoff none =
        some (none, mm') ∧
      Local mm mm' a [v, n, x] [v] b ∧
      (mm'.vma v).Is start (mm.vma x).vmEnd pgoff (mm.vma v) := by
  have hnext : mm.vmNext v = some n := h.toAgrees.next_of_areas hl
  have hnx : (mm.vma n).vmEnd < (mm.vma x).vmEnd := by
    have hl' : mm.areas = (a ++ [v]) ++ n :: x :: b := by simp [hl]
    have h1 := (h.before_le hl').2 x (by simp)
    have h2 := (h.proper x (by simp [hl])).nonempty
    omega
  obtain ⟨mm', hrem, hmm'⟩ := removeNext_two bal fuel start (mm.vma x).vmEnd pgoff h.toAgrees
    h.nodup hl hclone hnx hnx.le
  refine ⟨mm', ?_, hmm'⟩
  simp only [vmaAdjust, hnext, hnx.le]
  exact hrem

theorem vmaAdjust_up (hl : mm.areas = a ++ v :: n :: b) (hgt : (mm.vma n).vmStart < stop)
    (hlt : stop < (mm.vma n).vmEnd) (hal : pageSize ∣ stop) :
    ∃ mm', vmaAdjust bal clone fuel mm v start stop pgoff none = some (none, mm') ∧
      Local mm mm' a [v, n] [v, n] b ∧ (mm'.vma v).Is start stop pgoff (mm.vma v) ∧
      (mm'.vma n).Is stop (mm.vma n).vmEnd
        (uadd (mm.vma n).vmPgoff (pages (stop - (mm.vma n).vmStart))) (mm.vma n) := by
  have hnext : mm.vmNext v = some n := h.toAgrees.next_of_areas hl
  have hn := h.proper n (by simp [hl])
  obtain ⟨vma, himport, halike⟩ := importAnonVma_alike mm v (hclone n)
  have hsub : usub stop (mm.vma n).vmStart = stop - (mm.vma n).vmStart :=
    usub_of_le hgt.le (by have := hn.end_lt; omega)
  refine ⟨_, ?_, adjustNext_local h hl halike (k := pages (stop - (mm.vma n).vmStart)) ?_ ?_⟩
  · simp only [vmaAdjust, hnext, not_le.mpr hlt, if_false, hgt, if_true,
      himport, hsub]
  · obtain ⟨i, hi⟩ := hn.start_aligned
    have := hn.end_lt
    simp only [pages, pageSize] at *
    omega
  · rw [uadd]
    omega

theorem vmaAdjust_down (hl : mm.areas = a ++ v :: n :: b) (hlt : stop < (mm.vma v).vmEnd)
    (hvn : (mm.vma v).vmEnd = (mm.vma n).vmStart) (hal : pageSize ∣ stop) :
    ∃ mm', vmaAdjust bal clone fuel mm v start stop pgoff none = some (none, mm') ∧
      Local mm mm' a [v, n] [v, n] b ∧ (mm'.vma v).Is start stop pgoff (mm.vma v) ∧
      (mm'.vma n).Is stop (mm.vma n).vmEnd
        ((((mm.vma n).vmPgoff - (pages ((mm.vma v).vmEnd - stop) : ℕ) : ℤ) % 2 ^ 64).toNat)
        (mm.vma n) := by
  have hnext : mm.vmNext v = some n := h.toAgrees.next_of_areas hl
  have hv := h.proper v (by simp [hl])
  have hn := h.proper n (by simp [hl])
  obtain ⟨vma, himport, halike⟩ := importAnonVma_alike mm n (hclone v)
  have hsub : usub (mm.vma v).vmEnd stop = (mm.vma v).vmEnd - stop := usub_of_le hlt.le hv.end_lt
  refine ⟨_, ?_, adjustNext_local h hl halike (k := -pages ((mm.vma v).vmEnd - stop)) ?_ ?_⟩
  · have h1 := hn.nonempty
    simp only [vmaAdjust, hnext]
    rw [if_neg (by omega), if_neg (by omega), if_pos hlt]
    simp only [himport, hsub]
  · obtain ⟨i, hi⟩ := hv.end_aligned
    have := hv.end_lt
    simp only [pages, pageSize] at *
    omega
  · rw [← sub_eq_add_neg]

end Adjust

end LinuxKernel.Mmap
