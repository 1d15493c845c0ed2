import LinuxKernel.Mmap.Space

/-! # Changes of the list and the tree

An area is linked in between two others, and a run of areas is detached. The list, the tree and the
count of areas agree again.
-/

namespace LinuxKernel.Mmap

open Dlist Function List Option

/-- The fields that changes of the areas leave alone. -/
def Mm.layout (mm : Mm) : Bool × ℕ × ℕ × ℕ :=
  (mm.topdown, mm.mmapBase, mm.freeAreaCache, mm.cachedHoleSize)

theorem erase_middle {a b : List ℕ} {x : ℕ} (h : (a ++ x :: b).Nodup) :
    (a ++ x :: b).erase x = a ++ b := by
  have hx := (nodup_cons.mp (nodup_middle.mp h)).1
  rw [erase_append_right _ fun hmem => hx (mem_append_left b hmem), erase_cons_head]

section Insert

variable (vma : ℕ → Vma) (addr n : ℕ)

theorem prepareLoop_spec : ∀ {t : SearchTree ℕ} {a b : List ℕ} {p : Prepared}, t.inorder = a ++ b →
    (∀ y ∈ a, (vma y).vmEnd ≤ addr) → (∀ y ∈ b, addr < (vma y).vmStart) →
    (∀ y ∈ b, (vma y).vmStart < (vma y).vmEnd) →
    ∃ path, prepareLoop vma addr t p = ⟨b.head?.or p.vma, a.getLast?.or p.prev, p.rbLink ++ path,
        (prepareLoop vma addr t p).rbParent⟩ ∧
      (a = [] → (prepareLoop vma addr t p).rbParent = b.head?.or p.rbParent) ∧
      (t.linkAt n path).inorder = a ++ n :: b
  | .leaf, a, b, p, hl, _, _, _ => by
    obtain ⟨rfl, rfl⟩ := append_eq_nil_iff.mp hl.symm
    exact ⟨[], by simp [prepareLoop], by simp [prepareLoop], rfl⟩
  | .node color l x r, a, b, p, hl, ha, hb, hne => by
    rw [SearchTree.inorder_node] at hl
    rcases split_cases hl.symm with ⟨c, hlc, rfl⟩ | ⟨c, rfl, hrc⟩
    · -- the node lies behind the place
      have hxb := hb x (by simp)
      have hx := hne x (by simp)
      obtain ⟨path, heq, hpar, hlink⟩ := prepareLoop_spec
        (p := ⟨some x, p.prev, p.rbLink ++ [.left], some x⟩) hlc ha
        (fun y hy => hb y (mem_append_left _ hy)) fun y hy => hne y (mem_append_left _ hy)
      have hstep : prepareLoop vma addr (.node color l x r) p =
          prepareLoop vma addr l ⟨some x, p.prev, p.rbLink ++ [.left], some x⟩ := by
        rw [prepareLoop, if_pos (by omega), if_neg (by omega)]
      have hhead : ∀ q : Option ℕ, (c ++ x :: r.inorder).head?.or q = c.head?.or (some x) := by
        cases c <;> exact fun _ => rfl
      refine ⟨.left :: path, ?_, fun ha' => ?_, ?_⟩
      · rw [hstep, heq, hhead]
        simp
      · rw [hstep, hpar ha', hhead]
      · rw [SearchTree.linkAt, SearchTree.inorder_node, hlink]
        simp
    · -- the node lies in front of the place
      obtain ⟨path, heq, hpar, hlink⟩ := prepareLoop_spec
        (p := ⟨p.vma, some x, p.rbLink ++ [.right], some x⟩) hrc
        (fun y hy => ha y (by simp [hy])) hb hne
      have hstep : prepareLoop vma addr (.node color l x r) p =
          prepareLoop vma addr r ⟨p.vma, some x, p.rbLink ++ [.right], some x⟩ := by
        rw [prepareLoop, if_neg (ha x (by simp)).not_gt]
      have hlast : (l.inorder ++ x :: c).getLast?.or p.prev = c.getLast?.or (some x) := by
        cases c <;> simp [getLast?_append, getLast?_cons]
      refine ⟨.right :: path, ?_, fun ha' => by simp at ha', ?_⟩
      · rw [hstep, heq, hlast]
        simp
      · rw [SearchTree.linkAt, SearchTree.inorder_node, hlink]
        simp

variable {n} (bal : SearchTree.Balance ℕ) {mm : Mm} {a b : List ℕ}

theorem insertVmStruct_spec (h : mm.WellFormed) (hn : n ∉ mm.areas) (hp : (mm.vma n).Proper)
    (hl : mm.areas = a ++ b) (ha : ∀ y ∈ a, (mm.vma y).vmEnd ≤ (mm.vma n).vmStart)
    (hb : ∀ y ∈ b, (mm.vma n).vmEnd ≤ (mm.vma y).vmStart) :
    ∃ mm', insertVmStruct bal mm n = some mm' ∧ mm'.WellFormed ∧ mm'.areas = a ++ n :: b ∧
      mm'.vma = mm.vma ∧ mm'.layout = mm.layout := by
  have hne := hp.nonempty
  obtain ⟨path, hprep, hpar, hlink⟩ := prepareLoop_spec mm.vma (mm.vma n).vmStart n
    (p := ⟨none, none, [], none⟩) hl ha
    (fun y hy => Nat.lt_of_lt_of_le hne (hb y hy))
    fun y hy => (h.proper y (by rw [hl]; exact mem_append_right _ hy)).nonempty
  simp only [or_none, nil_append] at hprep hpar
  generalize hparent : (prepareLoop mm.vma (mm.vma n).vmStart mm.mmRb
    ⟨none, none, [], none⟩).rbParent = parent at hprep hpar
  -- no area starts in the range
  have hbug : (b.head?.any fun x => (mm.vma x).vmStart < (mm.vma n).vmEnd) = false := by
    cases b with
    | nil => rfl
    | cons y b =>
      have := hb y mem_cons_self
      simpa using this
  -- the area behind the place
  have hnext : a.getLast?.elim parent mm.vmNext = b.head? := by
    rcases eq_nil_or_concat a with rfl | ⟨a', x, rfl⟩
    · exact hpar rfl
    · have := h.next_eq hl
      rwa [concat_eq_append, getLast?_concat] at this ⊢
  have hfind : findVmaPrepare mm (mm.vma n).vmStart = ⟨b.head?, a.getLast?, path, parent⟩ := hprep
  have hinsert : insertVmStruct bal mm n = some { mm with
      mmap := if a.getLast?.isSome then mm.mmap else some n
      vmNext := update (setAt mm.vmNext a.getLast? (some n)) n b.head?
      vmPrev := setAt (update mm.vmPrev n a.getLast?) b.head? (some n)
      mmRb := bal.insertColor (mm.mmRb.linkAt n path) n
      mapCount := mm.mapCount + 1 } := by
    simp only [insertVmStruct, hfind, hbug, Bool.false_eq_true, if_false, vmaLink, vmaLinkList,
      hnext]
  have hareas : (bal.insertColor (mm.mmRb.linkAt n path) n).inorder = a ++ n :: b := by
    rw [bal.inorder_insertColor, hlink]
  refine ⟨_, hinsert, ⟨⟨?_, ?_, ?_, fun c hc => ?_⟩, fun y hy => ?_, ?_⟩, hareas, rfl, rfl⟩
  all_goals simp only [Mm.areas, hareas]
  · cases a with
    | nil => rfl
    | cons y a => simp [h.head, hl]
  · have hlinks := (hl ▸ h.links).link (hl ▸ h.nodup) (hl ▸ hn)
    simpa using hlinks
  · rw [h.count, hl]
    simp
    omega
  · have := h.cache c hc
    rw [hl] at this
    simp only [mem_append] at this ⊢
    tauto
  · simp only [Mm.areas, hareas, mem_append, mem_cons] at hy
    rcases hy with hy | rfl | hy
    · exact h.proper y (by simp [hl, hy])
    · exact hp
    · exact h.proper y (by simp [hl, hy])
  · have hs := h.sorted
    rw [hl] at hs
    obtain ⟨hsa, hsb, hab⟩ := pairwise_append.mp hs
    refine pairwise_append.mpr ⟨hsa, pairwise_cons.mpr ⟨hb, hsb⟩, fun x hx y hy => ?_⟩
    rcases mem_cons.mp hy with rfl | hy
    · exact ha x hx
    · exact hab x hx y hy

end Insert

section Cut

variable {mm mm' : Mm} {a m b : List ℕ}

theorem ne_of_areas {x y : ℕ} (hnd : mm.areas.Nodup) (hl : mm.areas = a ++ x :: b)
    (hy : y ∈ a ++ b) : y ≠ x := by
  rw [hl, nodup_middle, nodup_cons] at hnd
  exact ne_of_mem_of_not_mem hy hnd.1

theorem Mm.Agrees.cut (h : mm.Agrees) (hnd : mm.areas.Nodup) (hl : mm.areas = a ++ (m ++ b))
    (hareas : mm'.areas = a ++ b) (hhead : mm'.mmap = (a ++ b).head?)
    (hnext : ∀ y ∈ a ++ b, mm'.vmNext y = setAt mm.vmNext a.getLast? b.head? y)
    (hprev : ∀ y ∈ a ++ b, mm'.vmPrev y = setAt mm.vmPrev b.head? a.getLast? y)
    (hcount : mm'.mapCount = a.length + b.length)
    (hcache : ∀ c, mm'.mmapCache = some c → c ∈ a ++ b) : mm'.Agrees := by
  refine ⟨by rw [hareas, hhead], ?_, by rw [hareas, hcount, length_append], by rwa [hareas]⟩
  rw [hareas]
  have hcut := (hl ▸ h.links).cut (hl ▸ hnd)
  rw [or_none, or_none] at hcut
  exact hcut.congr hnext hprev

theorem Mm.WellFormed.of_sublist (h : mm.WellFormed) (h' : mm'.Agrees)
    (hsub : mm'.areas.Sublist mm.areas) (hvma : mm'.vma = mm.vma) : mm'.WellFormed :=
  { h' with
    proper := fun y hy => hvma ▸ h.proper y (hsub.subset hy)
    sorted := hvma ▸ h.sorted.sublist hsub }

end Cut

section Detach

variable (bal : SearchTree.Balance ℕ) {mm : Mm} {stop : ℕ} {a b : List ℕ}

theorem detachLoop_spec : ∀ (m : List ℕ) (x : ℕ) (mm : Mm) (count : ℕ),
    mm.mmRb.inorder = a ++ (x :: m ++ b) → (a ++ (x :: m ++ b)).Nodup →
    count = (a ++ (x :: m ++ b)).length → Seg mm.vmNext mm.vmPrev (mm.vmPrev x) (x :: m ++ b) none →
    (∀ y ∈ m, (mm.vma y).vmStart < stop) → (∀ y ∈ b.head?, stop ≤ (mm.vma y).vmStart) →
    ∃ t last, t.inorder = a ++ b ∧ last ∈ x :: m ∧ detachLoop bal stop count mm x =
      some (b.head?, { mm with
        mmRb := t
        mapCount := a.length + b.length
        vmNext := update mm.vmNext last none }) := by
  intro m
  induction m with
  | nil =>
    intro x mm count ht hnd hcount hseg _ hb
    obtain ⟨-, hnext, -⟩ := hseg
    obtain rfl : count = a.length + b.length + 1 := by
      rw [hcount]
      simp
      omega
    refine ⟨bal.erase mm.mmRb x, x, ?_, mem_cons_self, ?_⟩
    · rw [bal.inorder_erase, ht]
      exact erase_middle hnd
    · cases b with
      | nil => simp [detachLoop, hnext]
      | cons y b =>
        have hy := hb y rfl
        simp [detachLoop, hnext, not_lt.mpr hy]
  | cons y m ih =>
    intro x mm count ht hnd hcount hseg hm hb
    obtain ⟨-, hnext, hrest⟩ := hseg
    have hnd' : (a ++ (y :: m ++ b)).Nodup := hnd.sublist ((sublist_cons_self x _).append_left a)
    obtain ⟨count, rfl⟩ : ∃ c, count = c + 1 := ⟨count - 1, by rw [hcount]; simp; omega⟩
    have ht' : (bal.erase mm.mmRb x).inorder = a ++ (y :: m ++ b) := by
      rw [bal.inorder_erase, ht]
      exact erase_middle hnd
    have hrest' : Seg mm.vmNext mm.vmPrev (mm.vmPrev y) (y :: m ++ b) none := ⟨rfl, hrest.2⟩
    obtain ⟨t, last, htin, hlast, hloop⟩ := ih y
      { mm with mmRb := bal.erase mm.mmRb x, mapCount := count } count ht' hnd'
      (by simp only [length_append, length_cons] at hcount ⊢; omega) hrest'
      (fun z hz => hm z (mem_cons_of_mem _ hz)) hb
    refine ⟨t, last, htin, mem_cons_of_mem _ hlast, ?_⟩
    have hnext' : mm.vmNext x = some y := hnext
    have hy := hm y mem_cons_self
    simp only [detachLoop, hnext', hy]
    exact hloop

variable (arch : Arch)

theorem archUnmapArea_spec (mm : Mm) {addr : ℕ} (haddr : mm.Hinted arch → pageSize ∣ addr) :
    ∃ hole free, archUnmapArea arch mm addr = mm.withHints mm.mmapCache hole free ∧
      (mm.Hinted arch → pageSize ∣ free ∧ free ≤ arch.taskSize) := by
  rw [archUnmapArea]
  split
  · rename_i hlt
    exact ⟨_, _, rfl, fun hh => ⟨haddr hh, le_trans (le_of_lt hlt.2) hh.free_le⟩⟩
  · exact ⟨_, _, rfl, fun hh => ⟨hh.free_aligned, hh.free_le⟩⟩

theorem archUnmapAreaTopdown_spec (mm : Mm) {addr : ℕ}
    (haddr : mm.Hinted arch → pageSize ∣ addr) :
    ∃ hole free, archUnmapAreaTopdown mm addr = mm.withHints mm.mmapCache hole free ∧
      (mm.Hinted arch → pageSize ∣ free ∧ free ≤ arch.taskSize) := by
  simp only [archUnmapAreaTopdown]
  split
  · split
    · exact ⟨_, _, rfl, fun hh => ⟨hh.base_aligned, hh.base_le⟩⟩
    · rename_i hle
      exact ⟨_, _, rfl, fun hh => ⟨haddr hh, le_trans (not_lt.mp hle) hh.base_le⟩⟩
  · split
    · exact ⟨_, _, rfl, fun hh => ⟨hh.base_aligned, hh.base_le⟩⟩
    · exact ⟨_, _, rfl, fun hh => ⟨hh.free_aligned, hh.free_le⟩⟩

theorem Mm.Hinted.dvd_elim {arch : Arch} (hh : mm.Hinted arch) {o : Option ℕ} {f : ℕ → ℕ}
    (hf : ∀ y ∈ o, pageSize ∣ f y) : pageSize ∣ o.elim mm.mmapBase f := by
  cases o with
  | none => exact hh.base_aligned
  | some y => exact hf y rfl

theorem detachVmas_spec {m : List ℕ} {x : ℕ} (h : mm.WellFormed)
    (hl : mm.areas = a ++ (x :: m ++ b)) (hm : ∀ y ∈ m, (mm.vma y).vmStart < stop)
    (hb : ∀ y ∈ b.head?, stop ≤ (mm.vma y).vmStart) :
    ∃ mm', detachVmasToBeUnmapped bal arch mm x a.getLast? stop = some mm' ∧ mm'.WellFormed ∧
      (mm.Hinted arch → mm'.Hinted arch) ∧ mm'.areas = a ++ b ∧ mm'.vma = mm.vma := by
  have hnd : (a ++ (x :: m ++ b)).Nodup := hl ▸ h.nodup
  have hx : x ∉ m ++ b := (nodup_cons.mp (nodup_append.mp hnd).2.1).1
  -- the list from the first area on, without its pointer back
  have hseg : Seg mm.vmNext (update mm.vmPrev x none) none (x :: m ++ b) none := by
    obtain ⟨-, hnext, hrest⟩ := (seg_append.mp (hl ▸ h.links)).2
    refine ⟨update_self .., hnext, hrest.congr (fun _ _ => rfl) fun y hy => update_of_ne ?_ ..⟩
    rintro rfl
    exact hx hy
  obtain ⟨t, last, ht, hlast, hloop⟩ := detachLoop_spec bal m x
    { mm with vmPrev := update mm.vmPrev x none } mm.mapCount hl hnd (by rw [h.count, hl])
    (by simpa using hseg) hm hb
  generalize hmm₂ : ({ mm with
    vmNext := setAt (update mm.vmNext last none) a.getLast? b.head?
    vmPrev := setAt (update mm.vmPrev x none) b.head? a.getLast?
    mmap := if a.getLast?.isSome then mm.mmap else b.head?
    mmRb := t
    mapCount := a.length + b.length } : Mm) = mm₂
  have hh₂ : mm.Hinted arch → mm₂.Hinted arch := fun hh =>
    hmm₂ ▸ ⟨hh.free_aligned, hh.free_le, hh.base_aligned, hh.base_le⟩
  have hvma₂ : mm₂.vma = mm.vma := by rw [← hmm₂]
  obtain ⟨hole, free, hhints, hfree⟩ : ∃ hole free,
      unmapArea arch mm₂ a.getLast? b.head? = mm₂.withHints mm₂.mmapCache hole free ∧
        (mm₂.Hinted arch → pageSize ∣ free ∧ free ≤ arch.taskSize) := by
    rw [unmapArea]
    split
    · refine archUnmapAreaTopdown_spec arch mm₂ fun hh => hh.dvd_elim fun y hy => ?_
      exact hvma₂ ▸ (h.proper y (by simp [hl, mem_of_head? hy])).start_aligned
    · refine archUnmapArea_spec arch mm₂ fun hh => hh.dvd_elim fun y hy => ?_
      exact hvma₂ ▸ (h.proper y (by simp [hl, mem_of_getLast? hy])).end_aligned
  refine ⟨mm₂.withHints none hole free, ?_, ?_, fun hh => ?_, ?_, ?_⟩
  · simp only [detachVmasToBeUnmapped, hloop, bind_eq_bind, bind_some, hmm₂, hhints]
    rfl
  · -- the pointers that were cleared belong to the detached areas
    have hnd' := (perm_append_comm_assoc a (x :: m) b).nodup hnd
    have hset : ∀ {f : ℕ → Option ℕ} {z : ℕ}, z ∈ x :: m → ∀ (p v : Option ℕ), ∀ y ∈ a ++ b,
        setAt (update f z none) p v y = setAt f p v y := by
      intro f z hz p v y hy
      have hne : y ≠ z := ((nodup_append.mp hnd').2.2 z hz y hy).symm
      by_cases hp : p = some y
      · rw [hp, setAt_some, setAt_some, update_self, update_self]
      · rw [setAt_of_ne hp, setAt_of_ne hp, update_of_ne hne]
    have hagrees : (mm₂.withHints none hole free).Agrees := by
      refine h.toAgrees.cut h.nodup hl ?_ ?_ ?_ ?_ ?_ ?_
      all_goals subst hmm₂
      · exact ht
      · cases a with
        | nil => rfl
        | cons y a => simp [Mm.withHints, h.head, hl]
      · exact fun y hy => hset hlast _ _ y hy
      · exact fun y hy => hset mem_cons_self _ _ y hy
      · rfl
      · exact fun c hc => nomatch hc
    refine h.of_sublist hagrees ?_ hvma₂
    have hareas : (mm₂.withHints none hole free).areas = a ++ b := hmm₂ ▸ ht
    rw [hl, hareas]
    exact (sublist_append_right (x :: m) b).append_left a
  · exact ⟨(hfree (hh₂ hh)).1, (hfree (hh₂ hh)).2, (hh₂ hh).base_aligned, (hh₂ hh).base_le⟩
  · subst hmm₂
    exact ht
  · exact hvma₂

end Detach

end LinuxKernel.Mmap
