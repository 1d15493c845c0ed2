import LinuxKernel.Base.Fuel
import LinuxKernel.Mmap.Space

/-! # Searching for a free range

The search from below starts at a hint and once more at the base, so it sees every hole before it
gives up. The search from above falls back on it. Neither depends on the hints being up to date.
-/

namespace LinuxKernel.Mmap

open Dlist Fuel List Nat

def Mm.Free (mm : Mm) (addr len : ℕ) : Prop :=
  ∀ x ∈ mm.areas, (mm.vma x).vmEnd ≤ addr ∨ addr + len ≤ (mm.vma x).vmStart

structure Placed (arch : Arch) (mm : Mm) (len addr : ℕ) : Prop where
  aligned : pageSize ∣ addr
  below : addr + len ≤ arch.taskSize
  free : mm.Free addr len

structure Rehinted (arch : Arch) (mm mm' : Mm) : Prop where
  eq : mm' = mm.withHints mm'.mmapCache mm'.cachedHoleSize mm'.freeAreaCache
  cache : ∀ x, mm'.mmapCache = some x → x ∈ mm.areas
  hinted : mm'.Hinted arch

section Rehinted

variable {arch : Arch} {mm mm' mm'' : Mm} {addr len : ℕ}

theorem Rehinted.refl (h : mm.WellFormed) (hh : mm.Hinted arch) : Rehinted arch mm mm :=
  ⟨rfl, h.cache, hh⟩

section

variable (h : Rehinted arch mm mm')
include h

theorem Rehinted.areas : mm'.areas = mm.areas := by rw [h.eq]; rfl

theorem Rehinted.vma : mm'.vma = mm.vma := by rw [h.eq]; rfl

theorem Rehinted.next : mm'.vmNext = mm.vmNext := by rw [h.eq]; rfl

theorem Rehinted.wellFormed (hmm : mm.WellFormed) : mm'.WellFormed := by
  rw [h.eq]
  exact hmm.withHints h.cache _ _

theorem Rehinted.trans (h' : Rehinted arch mm' mm'') : Rehinted arch mm mm'' := by
  refine ⟨?_, fun x hx => h.areas ▸ h'.cache x hx, h'.hinted⟩
  rw [h'.eq, h.eq]
  rfl

theorem Rehinted.setHole (hole : ℕ) : Rehinted arch mm { mm' with cachedHoleSize := hole } := by
  refine ⟨?_, h.cache, ⟨h.hinted.free_aligned, h.hinted.free_le, h.hinted.base_aligned,
    h.hinted.base_le⟩⟩
  conv_lhs => rw [h.eq]
  rfl

theorem Rehinted.setFree {free : ℕ} (hfree : pageSize ∣ free) (hle : free ≤ arch.taskSize) :
    Rehinted arch mm { mm' with freeAreaCache := free } := by
  refine ⟨?_, h.cache, ⟨hfree, hle, h.hinted.base_aligned, h.hinted.base_le⟩⟩
  conv_lhs => rw [h.eq]
  rfl

theorem Rehinted.setCache {c : Option ℕ} (hc : ∀ x, c = some x → x ∈ mm'.areas) :
    Rehinted arch mm { mm' with mmapCache := c } := by
  refine ⟨?_, fun x hx => h.areas ▸ hc x hx, ⟨h.hinted.free_aligned, h.hinted.free_le,
    h.hinted.base_aligned, h.hinted.base_le⟩⟩
  conv_lhs => rw [h.eq]
  rfl

theorem Rehinted.noteHole (addr v : ℕ) : Rehinted arch mm (noteHole mm' addr v) := by
  rw [Mmap.noteHole]
  split
  · exact h.setHole _
  · exact h

end

theorem Rehinted.findVma (hr : Rehinted arch mm mm') (h : mm.WellFormed) (addr : ℕ) :
    Rehinted arch mm (findVma mm' addr).1 ∧ Found mm.vma mm.areas addr (findVma mm' addr).2 := by
  obtain ⟨c, r, hfind, hc, hfound⟩ := findVma_found (hr.wellFormed h) addr
  rw [hr.vma, hr.areas] at hfound
  rw [hfind]
  exact ⟨hr.setCache hc, hfound⟩

end Rehinted

section Fit

variable {arch : Arch} {mm : Mm} {addr len : ℕ} {r : Option ℕ}

theorem Found.free (h : mm.WellFormed) (hf : Found mm.vma mm.areas addr r)
    (hlt : addr + len < 2 ^ 64) (hfits : fits mm addr len r = true) : mm.Free addr len := by
  intro y hy
  cases hf with
  | none hall => exact .inl (hall y hy)
  | @some a b x hl ha hx =>
    have hstart : addr + len ≤ (mm.vma x).vmStart := by
      simpa [fits, uadd_of_lt hlt] using hfits
    rw [hl] at hy
    exact (mem_append.mp hy).imp (ha y) (h.le_start hl hstart y)

theorem not_free_of_not_fits (hlt : addr + len < 2 ^ 64) {x : ℕ} (hx : x ∈ mm.areas)
    (hfits : fits mm addr len (some x) = false) {c : ℕ} (hc : addr ≤ c)
    (hend : c < (mm.vma x).vmEnd) : ¬mm.Free c len := by
  intro hfree
  have hstart : (mm.vma x).vmStart < addr + len := by
    simpa [fits, uadd_of_lt hlt] using hfits
  rcases hfree x hx with h | h <;> omega

end Fit

section BottomUp

variable {arch : Arch} {mm mm' : Mm} {len addr startAddr : ℕ}

structure Outcome (arch : Arch) (mm : Mm) (len : ℕ) (res : Except Errno ℕ × Mm) : Prop where
  hints : Rehinted arch mm res.2
  ok : ∀ addr, res.1 = .ok addr → Placed arch mm len addr
  error : ∀ e, res.1 = .error e → e = .enomem ∧
    ∀ c, arch.taskUnmappedBase ≤ c → c + len ≤ arch.taskSize → ¬mm.Free c len

theorem Placed.outcome (hp : Placed arch mm len addr) (hr : Rehinted arch mm mm') :
    Outcome arch mm len (.ok addr, mm') :=
  ⟨hr, fun _ ha => by cases ha; exact hp, fun _ he => nomatch he⟩

/-- A search ends with such an outcome. -/
def Searches (arch : Arch) (mm : Mm) (len : ℕ) (f : ℕ → Option (Except Errno ℕ × Mm)) : Prop :=
  ∃ res, Ends f res ∧ Outcome arch mm len res

variable (hv : arch.Valid) (h : mm.WellFormed) (hlen : len ≤ arch.taskSize) (hal : pageSize ∣ len)
include hv hlen

theorem usub_taskSize_lt : usub arch.taskSize len < addr ↔ arch.taskSize < addr + len := by
  rw [usub_of_le hlen hv.taskSize_lt]
  omega

include hal

theorem fullSearch_here {r : Option ℕ} (hr : Rehinted arch mm mm')
    (hplace : Placed arch mm len addr) (hfits : fits mm' addr len r = true) :
    Searches arch mm len fun fuel => fullSearch arch len fuel mm' startAddr addr r := by
  have hts := hv.taskSize_lt
  have hle := hplace.below
  refine ⟨(.ok addr, { mm' with freeAreaCache := uadd addr len }), Ends.succ ?_, ?_⟩
  · simp only [fullSearch, usub_taskSize_lt hv hlen, if_neg hle.not_gt, hfits]
    exact ends_some _
  · rw [uadd_of_lt (by omega)]
    exact hplace.outcome (hr.setFree (Nat.dvd_add hplace.aligned hal) hle)

include h

section

variable (hend : ∀ mm' addr r, Rehinted arch mm mm' → arch.taskSize < addr + len →
  (∀ c, startAddr ≤ c → c < addr → ¬mm.Free c len) →
  Searches arch mm len fun fuel => fullSearch arch len fuel mm' startAddr addr r)
include hend

/-- The scan of the areas behind a place. It finds a place, or it reaches the end of the space and
has seen that there is none. -/
theorem fullSearch_scan : ∀ (b a : List ℕ) (mm' : Mm) (addr : ℕ),
    Rehinted arch mm mm' → mm.areas = a ++ b →
      (∀ y ∈ a, (mm.vma y).vmEnd ≤ addr) → (∀ x ∈ b.head?, addr < (mm.vma x).vmEnd) →
      pageSize ∣ addr → (∀ c, startAddr ≤ c → c < addr → ¬mm.Free c len) →
      Searches arch mm len fun fuel => fullSearch arch len fuel mm' startAddr addr b.head? := by
  intro b
  induction b with
  | nil =>
    intro a mm' addr hr hl ha _ hadd hseen
    by_cases hbig : arch.taskSize < addr + len
    · exact hend mm' addr _ hr hbig hseen
    · have hfree : mm.Free addr len := fun y hy => .inl (ha y (by simpa [hl] using hy))
      exact fullSearch_here hv hlen hal hr ⟨hadd, not_lt.mp hbig, hfree⟩ rfl
  | cons x b ih =>
    intro a mm' addr hr hl ha hx hadd hseen
    have hts := hv.taskSize_lt
    have hmem : x ∈ mm.areas := by simp [hl]
    have hxend : addr < (mm.vma x).vmEnd := hx x (by simp)
    by_cases hbig : arch.taskSize < addr + len
    · exact hend mm' addr _ hr hbig hseen
    · have hlt : addr + len < 2 ^ 64 := by omega
      have hfits' : fits mm' addr len (some x) = fits mm addr len (some x) := by
        rw [fits, fits, hr.vma]
      cases hfit : fits mm addr len (some x) with
      | true =>
        have hfree := Found.free h (.some hl ha hxend) hlt hfit
        exact fullSearch_here hv hlen hal hr ⟨hadd, not_lt.mp hbig, hfree⟩ (hfits'.trans hfit)
      | false =>
        obtain ⟨-, hafter⟩ := h.before_le hl
        have hnext : mm'.vmNext x = b.head? := by
          have := (Seg.at (hl ▸ h.links)).2
          rw [hr.next, this, Option.or_none]
        have hbelow : ∀ y ∈ a ++ [x], (mm.vma y).vmEnd ≤ (mm.vma x).vmEnd := fun y hy => by
          rcases mem_append.mp hy with hy | hy
          · exact le_trans (ha y hy) (le_of_lt hxend)
          · rw [mem_singleton.mp hy]
        have habove : ∀ y ∈ b.head?, (mm.vma x).vmEnd < (mm.vma y).vmEnd := fun y hy => by
          have hyb : y ∈ b := mem_of_head? hy
          have h1 := hafter y hyb
          have h2 := (h.proper y (by rw [hl]; simp [hyb])).nonempty
          omega
        have hseen' : ∀ c, startAddr ≤ c → c < (mm.vma x).vmEnd → ¬mm.Free c len := by
          intro c hc1 hc2
          rcases lt_or_ge c addr with hlt' | hge
          · exact hseen c hc1 hlt'
          · exact not_free_of_not_fits hlt hmem hfit hge hc2
        obtain ⟨res, hres, hout⟩ := ih (a ++ [x]) (noteHole mm' addr x) (mm.vma x).vmEnd
          (hr.noteHole addr x) (by rw [hl, append_assoc]; rfl) hbelow habove
          (h.proper x hmem).end_aligned hseen'
        refine ⟨res, Ends.succ ?_, hout⟩
        simp only [head?_cons, fullSearch, usub_taskSize_lt hv hlen, if_neg hbig, hfits', hfit,
          hnext, hr.vma]
        exact hres

/-- The scan from what `find_vma` gives for the start address. -/
theorem fullSearch_found (hstart : pageSize ∣ startAddr) (hr : Rehinted arch mm mm') :
    Searches arch mm len fun fuel =>
      fullSearch arch len fuel (findVma mm' startAddr).1 startAddr startAddr
        (findVma mm' startAddr).2 := by
  obtain ⟨hr', hfound⟩ := hr.findVma h startAddr
  have hnone : ∀ c, startAddr ≤ c → c < startAddr → ¬mm.Free c len := fun c h1 h2 => by omega
  generalize (findVma mm' startAddr).2 = r at hfound
  cases hfound with
  | none hall =>
    exact fullSearch_scan hv h hlen hal hend [] mm.areas _ startAddr hr' (by simp) hall (by simp)
      hstart hnone
  | @some a b x hl ha hx =>
    exact fullSearch_scan hv h hlen hal hend (x :: b) a _ startAddr hr' hl ha (by simpa using hx)
      hstart hnone

end

theorem fullSearch_base (hr : Rehinted arch mm mm') : Searches arch mm len fun fuel =>
    fullSearch arch len fuel (findVma mm' arch.taskUnmappedBase).1 arch.taskUnmappedBase
      arch.taskUnmappedBase (findVma mm' arch.taskUnmappedBase).2 := by
  refine fullSearch_found hv h hlen hal (fun mm' addr r hr' hbig hseen => ?_) hv.base_aligned hr
  refine ⟨(.error .enomem, mm'), Ends.succ ?_, hr', fun _ he => (nomatch he), ?_⟩
  · simp only [fullSearch, usub_taskSize_lt hv hlen, if_pos hbig, ne_eq]
    exact ends_some _
  · rintro _ ⟨⟩
    exact ⟨rfl, fun c hc1 hc2 => hseen c hc1 (by omega)⟩

/-- A search that starts elsewhere is followed by one from the base. -/
theorem fullSearch_outcome (hstart : pageSize ∣ startAddr) (hr : Rehinted arch mm mm') :
    Searches arch mm len fun fuel => fullSearch arch len fuel (findVma mm' startAddr).1 startAddr
      startAddr (findVma mm' startAddr).2 := by
  by_cases hbase : startAddr = arch.taskUnmappedBase
  · subst hbase
    exact fullSearch_base hv h hlen hal hr
  · refine fullSearch_found hv h hlen hal (fun mm' addr r hr' hbig hseen => ?_) hstart hr
    obtain ⟨res, hres, hout⟩ := fullSearch_base hv h hlen hal (hr'.setHole 0)
    refine ⟨res, Ends.succ ?_, hout⟩
    simp only [fullSearch, usub_taskSize_lt hv hlen, if_pos hbig, ne_eq, hbase]
    exact hres

omit hv h hlen hal in
theorem pageSize_dvd_pageAlign (x : ℕ) : pageSize ∣ pageAlign x := dvd_mul_left ..

omit hal in
theorem tryHint_spec (hh : mm.Hinted arch) (addr : ℕ) :
    Rehinted arch mm (tryHint arch mm addr len).1 ∧
      ∀ a, (tryHint arch mm addr len).2 = some a → Placed arch mm len a := by
  have hr := Rehinted.refl h hh
  rw [tryHint]
  split
  · obtain ⟨hr', hfound⟩ := hr.findVma h (pageAlign addr)
    refine ⟨hr', fun a ha => ?_⟩
    dsimp only at ha
    split at ha
    · rename_i hcond
      cases ha
      obtain ⟨hbelow, hfits⟩ := hcond
      have hts := hv.taskSize_lt
      rw [usub_of_le hlen hts] at hbelow
      rw [fits, hr'.vma] at hfits
      exact ⟨pageSize_dvd_pageAlign addr, by omega, hfound.free h (by omega) hfits⟩
    · cases ha
  · exact ⟨hr, fun a ha => nomatch ha⟩

theorem archGetUnmappedArea_outcome (hh : mm.Hinted arch) (addr : ℕ) :
    Searches arch mm len fun fuel => archGetUnmappedArea arch fuel mm addr len false := by
  obtain ⟨hr, hplaced⟩ := tryHint_spec hv h hlen hh addr
  simp only [archGetUnmappedArea, not_lt.mpr hlen, if_false, Bool.false_eq_true]
  generalize tryHint arch mm addr len = t at hr hplaced ⊢
  obtain ⟨mm', _ | a⟩ := t
  · dsimp only
    split
    · exact fullSearch_outcome hv h hlen hal hr.hinted.free_aligned hr
    · exact fullSearch_outcome hv h hlen hal hv.base_aligned (hr.setHole 0)
  · exact ⟨_, ends_some _, (hplaced a rfl).outcome hr⟩

end BottomUp

section TopDown

variable {arch : Arch} {mm mm' : Mm} {len : ℕ}

theorem Outcome.of_rehinted {res : Except Errno ℕ × Mm} (hr : Rehinted arch mm mm')
    (h : Outcome arch mm' len res) : Outcome arch mm len res := by
  have hfree : ∀ c, mm'.Free c len ↔ mm.Free c len := fun c => by
    rw [Mm.Free, Mm.Free, hr.areas, hr.vma]
  refine ⟨hr.trans h.hints, fun addr ha => ?_, fun e he => ?_⟩
  · obtain ⟨h1, h2, h3⟩ := h.ok addr ha
    exact ⟨h1, h2, (hfree addr).mp h3⟩
  · obtain ⟨h1, h2⟩ := h.error e he
    exact ⟨h1, fun c hc1 hc2 hf => h2 c hc1 hc2 ((hfree c).mpr hf)⟩

variable (hv : arch.Valid) (h : mm.WellFormed) (hlen : len ≤ arch.taskSize) (hal : pageSize ∣ len)
include hv h hal

/-- The loop goes down the areas and stops at a free range or below the first area. -/
theorem topdownLoop_spec :
    ∀ (n : ℕ) (a b : List ℕ) (mm' : Mm) (addr : ℕ), a.length = n → Rehinted arch mm mm' →
      mm.areas = a ++ b → (∀ y ∈ b, addr + len ≤ (mm.vma y).vmStart) → pageSize ∣ addr →
      addr + len ≤ arch.taskSize →
      ∃ res, Ends (fun fuel => topdownLoop len fuel mm' addr) res ∧ Rehinted arch mm res.2 ∧
        ∀ a, res.1 = some a → Placed arch mm len a := by
  intro n
  induction n using Nat.strongRecOn with
  | ind n ih =>
    intro a b mm' addr hn hr hl hb hadd hbelow
    have hts := hv.taskSize_lt
    obtain ⟨hr', hfound⟩ := hr.findVma h addr
    cases hfind : findVma mm' addr with
    | mk mm₁ r =>
      rw [hfind] at hr' hfound
      have hfits' : fits mm₁ addr len r = fits mm addr len r := by rw [fits, fits, hr'.vma]
      cases hfit : fits mm addr len r with
      | true =>
        refine ⟨(some addr, { mm₁ with freeAreaCache := addr }), Ends.succ ?_,
          hr'.setFree hadd (by omega), ?_⟩
        · simp only [topdownLoop, hfind, hfits', hfit]
          exact ends_some _
        · rintro _ ⟨⟩
          exact ⟨hadd, hbelow, hfound.free h (by omega) hfit⟩
      | false =>
        cases hfound with
        | none => simp [fits] at hfit
        | @some a₁ b₁ x hl₁ ha₁ hx =>
          have hstart : (mm.vma x).vmStart < addr + len := by
            simpa [fits, uadd_of_lt (show addr + len < 2 ^ 64 by omega)] using hfit
          have hmem : x ∈ mm.areas := by simp [hl₁]
          have hxlt := (h.proper x hmem).end_lt
          have hxne := (h.proper x hmem).nonempty
          have hvma : (noteHole mm₁ addr x).vma = mm.vma := (hr'.noteHole addr x).vma
          by_cases hagain : len < (mm.vma x).vmStart
          · -- the area lies in the part above which everything is out of the way
            have hshort : a₁.length < n := by
              obtain ⟨c, rfl, -⟩ := (split_cases (hl.symm.trans hl₁)).resolve_left
                fun ⟨c, _, hc⟩ => by
                  have := hb x (by simp [hc])
                  omega
              simp [← hn]
            have hnew : ∀ y ∈ x :: b₁, (mm.vma x).vmStart - len + len ≤ (mm.vma y).vmStart := by
              rw [Nat.sub_add_cancel (by omega)]
              exact h.le_start hl₁ (le_refl _)
            obtain ⟨res, hres, hout⟩ := ih a₁.length hshort a₁ (x :: b₁) (noteHole mm₁ addr x)
              ((mm.vma x).vmStart - len) rfl (hr'.noteHole addr x) hl₁ hnew
              (dvd_sub (h.proper x hmem).start_aligned hal) (by omega)
            refine ⟨res, Ends.succ ?_, hout⟩
            simp only [topdownLoop, hfind, hfits', hfit, hvma, hagain,
              usub_of_le (le_of_lt hagain) (lt_trans hxne hxlt)]
            exact hres
          · refine ⟨(none, noteHole mm₁ addr x), Ends.succ ?_, hr'.noteHole addr x,
              fun a ha => nomatch ha⟩
            simp only [topdownLoop, hfind, hfits', hfit, hvma, hagain]
            exact ends_some _

include hlen in
theorem bottomup_outcome (addr : ℕ) (hr : Rehinted arch mm mm') :
    Searches arch mm len fun fuel => bottomup arch fuel mm' addr len false := by
  have hr₁ := (hr.setHole (2 ^ 64 - 1)).setFree hv.base_aligned hv.base_le
  obtain ⟨⟨r, mm₂⟩, hres, hout⟩ := archGetUnmappedArea_outcome hv (hr₁.wellFormed h) hlen hal
    hr₁.hinted addr
  have hout' := hout.of_rehinted hr₁
  have hh := hout'.hints.hinted
  refine ⟨_, hres.bind (ends_some _), ?_, hout'.ok, hout'.error⟩
  exact (hout'.hints.setFree hh.base_aligned hh.base_le).setHole _

/-- The range below `free_area_cache` is used only if it is free. -/
theorem tryCache_spec (hr : Rehinted arch mm mm') : Rehinted arch mm (tryCache mm' len).1 ∧
      ∀ a, (tryCache mm' len).2 = some a → Placed arch mm len a := by
  have hr₁ : Rehinted arch mm (if len ≤ mm'.cachedHoleSize then
      { mm' with cachedHoleSize := 0, freeAreaCache := mm'.mmapBase } else mm') := by
    split
    · exact (hr.setHole 0).setFree hr.hinted.base_aligned hr.hinted.base_le
    · exact hr
  rw [tryCache]
  generalize (if len ≤ mm'.cachedHoleSize then
    { mm' with cachedHoleSize := 0, freeAreaCache := mm'.mmapBase } else mm') = mm₁ at hr₁
  obtain ⟨hfa, hfl, -, -⟩ := hr₁.hinted
  have hts := hv.taskSize_lt
  dsimp only
  split
  · obtain ⟨hr₂, hfound⟩ := hr₁.findVma h (mm₁.freeAreaCache - len)
    have hda : pageSize ∣ mm₁.freeAreaCache - len := dvd_sub hfa hal
    split
    · rename_i hcond
      refine ⟨hr₂.setFree hda (by omega), ?_⟩
      rintro _ ⟨⟩
      refine ⟨hda, by omega, hfound.free h (by omega) ?_⟩
      rw [hr₂.vma] at hcond
      rw [fits, uadd_of_lt (by omega), Nat.sub_add_cancel (by omega)]
      exact hcond
    · exact ⟨hr₂, fun a ha => nomatch ha⟩
  · exact ⟨hr₁, fun a ha => nomatch ha⟩

include hlen in
theorem archGetUnmappedAreaTopdown_outcome (hh : mm.Hinted arch) (addr : ℕ) :
    Searches arch mm len fun fuel => archGetUnmappedAreaTopdown arch fuel mm addr len false := by
  obtain ⟨hr, hplaced⟩ := tryHint_spec hv h hlen hh addr
  simp only [archGetUnmappedAreaTopdown, not_lt.mpr hlen, if_false, Bool.false_eq_true]
  generalize tryHint arch mm addr len = t at hr hplaced ⊢
  obtain ⟨mm₁, _ | a⟩ := t
  · obtain ⟨hr₂, hplaced₂⟩ := tryCache_spec hv h hal hr
    dsimp only at hr₂ hplaced₂ ⊢
    generalize tryCache mm₁ len = t₂ at hr₂ hplaced₂ ⊢
    obtain ⟨mm₂, _ | a⟩ := t₂
    · dsimp only at hr₂ ⊢
      have hbase := hr₂.hinted.base_le
      split
      · exact bottomup_outcome hv h hlen hal addr hr₂
      · obtain ⟨⟨_ | a, mm₃⟩, hres, hr₃, hplaced₃⟩ := topdownLoop_spec hv h hal mm.areas.length
          mm.areas [] mm₂ (mm₂.mmapBase - len) rfl hr₂ (by simp) (by simp)
          (dvd_sub hr₂.hinted.base_aligned hal) (by omega)
        · obtain ⟨res, hres', hout⟩ := bottomup_outcome hv h hlen hal addr hr₃
          exact ⟨res, hres.bind hres', hout⟩
        · exact ⟨_, hres.bind (ends_some _), (hplaced₃ a rfl).outcome hr₃⟩
    · exact ⟨_, ends_some _, (hplaced₂ a rfl).outcome hr₂⟩
  · exact ⟨_, ends_some _, (hplaced a rfl).outcome hr⟩

end TopDown

end LinuxKernel.Mmap
