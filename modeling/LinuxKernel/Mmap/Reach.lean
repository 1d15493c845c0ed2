import LinuxKernel.Base.Run
import LinuxKernel.Mmap.Munmap
import LinuxKernel.Mmap.Search

/-! # The hints over whole runs

Searches, mappings and unmappings follow each other in any order. The hints stay aligned and below
`TASK_SIZE`, which is all that a search needs of them.
-/

namespace LinuxKernel.Mmap

open Fuel

variable (bal : SearchTree.Balance ℕ) (arch : Arch)

/-- The search that `mm->get_unmapped_area` points to. -/
def getUnmappedArea (fuel : ℕ) (mm : Mm) (addr len : ℕ) (mapFixed : Bool) :
    Option (Except Errno ℕ × Mm) :=
  if mm.topdown then archGetUnmappedAreaTopdown arch fuel mm addr len mapFixed
  else archGetUnmappedArea arch fuel mm addr len mapFixed

inductive Action where
  | search (addr len : ℕ) (mapFixed : Bool)
  | map
  | unmap (start len : ℕ)

/-- What happens to an address space. A mapping changes the areas and leaves the hints alone. -/
inductive Step : Mm → Action → Mm → Prop
  | search {mm mm' : Mm} {addr len : ℕ} {mapFixed : Bool} {res : Except Errno ℕ} :
      pageSize ∣ len →
      Ends (fun fuel => getUnmappedArea arch fuel mm addr len mapFixed) (res, mm') →
      Step mm (.search addr len mapFixed) mm'
  | map {mm mm' : Mm} : mm'.WellFormed → mm'.layout = mm.layout → Step mm .map mm'
  | unmap {mm mm' : Mm} {start len : ℕ} {al₁ al₂ : Alloc} {res : Option Errno} :
      Fresh mm al₁ al₂ → doMunmap bal arch mm start len al₁ al₂ = some (res, mm') →
      Step mm (.unmap start len) mm'

structure Initial (mm : Mm) : Prop where
  wellFormed : mm.WellFormed
  base_aligned : pageSize ∣ mm.mmapBase
  base_le : mm.mmapBase ≤ arch.taskSize
  free : mm.freeAreaCache = mm.mmapBase ∨ mm.freeAreaCache = arch.taskUnmappedBase

variable {arch} {mm mm' : Mm} {addr len : ℕ}

theorem Initial.hinted (hv : arch.Valid) (h : Initial arch mm) : mm.Hinted arch := by
  rcases h.free with hfree | hfree
  · exact ⟨hfree ▸ h.base_aligned, hfree ▸ h.base_le, h.base_aligned, h.base_le⟩
  · exact ⟨hfree ▸ hv.base_aligned, hfree ▸ hv.base_le, h.base_aligned, h.base_le⟩

theorem getUnmappedArea_rehinted (hv : arch.Valid) (h : mm.WellFormed) (hh : mm.Hinted arch)
    (hal : pageSize ∣ len) {mapFixed : Bool} {res : Except Errno ℕ}
    (hres : Ends (fun fuel => getUnmappedArea arch fuel mm addr len mapFixed) (res, mm')) :
    Rehinted arch mm mm' := by
  have hsame : ∀ r, Ends (fun fuel => getUnmappedArea arch fuel mm addr len mapFixed) (r, mm) →
      Rehinted arch mm mm' := fun r hr => by
    obtain ⟨-, rfl⟩ := Prod.mk.inj (hr.unique hres)
    exact .refl h hh
  by_cases hlen : len > arch.taskSize
  · refine hsame (.error .enomem) ⟨0, fun fuel _ => ?_⟩
    simp [getUnmappedArea, archGetUnmappedArea, archGetUnmappedAreaTopdown, hlen]
  · cases mapFixed with
    | true =>
      refine hsame (.ok addr) ⟨0, fun fuel _ => ?_⟩
      simp [getUnmappedArea, archGetUnmappedArea, archGetUnmappedAreaTopdown, hlen]
    | false =>
      have hle := not_lt.mp hlen
      have hout : ∃ r, Ends (fun fuel => getUnmappedArea arch fuel mm addr len false) r ∧
          Outcome arch mm len r := by
        cases htop : mm.topdown with
        | true =>
          simp only [getUnmappedArea, htop]
          exact archGetUnmappedAreaTopdown_outcome hv h hle hal hh addr
        | false =>
          simp only [getUnmappedArea, htop]
          exact archGetUnmappedArea_outcome hv h hle hal hh addr
      obtain ⟨r, hr, hr'⟩ := hout
      obtain rfl := hr.unique hres
      exact hr'.hints

theorem Step.keeps (hv : arch.Valid) {a : Action} (hs : mm.WellFormed ∧ mm.Hinted arch)
    (hstep : Step bal arch mm a mm') : mm'.WellFormed ∧ mm'.Hinted arch := by
  obtain ⟨h, hh⟩ := hs
  cases hstep with
  | search hal hres =>
    have hr := getUnmappedArea_rehinted hv h hh hal hres
    exact ⟨hr.wellFormed h, hr.hinted⟩
  | map hwf hlay => exact ⟨hwf, hh.of_layout hlay⟩
  | unmap hfresh hun =>
    obtain ⟨res, mm₂, heq, hr, -⟩ := doMunmap_result bal hv.taskSize_lt hv.taskSize_aligned h
      hfresh _ _
    rw [heq] at hun
    obtain ⟨-, rfl⟩ := Prod.mk.inj (Option.some.inj hun)
    exact ⟨hr.wellFormed, hr.hinted hh⟩

/-- In every state that a run reaches both searches end, what they return is a free range of pages
below `TASK_SIZE`, and they give up only if there is none above `TASK_UNMAPPED_BASE`. -/
theorem get_unmapped_area_exact (hv : arch.Valid) {mm₀ : Mm} (h₀ : Initial arch mm₀)
    {as : List Action} (hrun : Run (Step bal arch) mm₀ as mm) (hlen : len ≤ arch.taskSize)
    (hal : pageSize ∣ len) (addr : ℕ) :
    (∃ res, Ends (fun fuel => archGetUnmappedArea arch fuel mm addr len false) res ∧
      Outcome arch mm len res) ∧
    ∃ res, Ends (fun fuel => archGetUnmappedAreaTopdown arch fuel mm addr len false) res ∧
      Outcome arch mm len res := by
  obtain ⟨h, hh⟩ := Run.invariant
    (fun hs hstep => hstep.keeps bal hv hs) hrun ⟨h₀.wellFormed, h₀.hinted hv⟩
  exact ⟨archGetUnmappedArea_outcome hv h hlen hal hh addr,
    archGetUnmappedAreaTopdown_outcome hv h hlen hal hh addr⟩

def searched : Mm := { oneArea with mmapCache := some 0, freeAreaCache := 0x6000 }

theorem search_oneArea :
    Step (SearchTree.noBalance ℕ) smallArch oneArea (.search 0 0x1000 false) searched := by
  have hends : Ends (fun fuel => getUnmappedArea smallArch fuel oneArea 0 0x1000 false)
      (.ok 0x5000, searched) := by
    refine ⟨2, fun fuel hfuel => ?_⟩
    obtain ⟨k, rfl⟩ := Nat.exists_eq_add_of_le' hfuel
    simp [getUnmappedArea, archGetUnmappedArea, tryHint, findVma, cacheHit, rbFind, oneArea,
      fullSearch, smallArch, fourPages, fits, usub, uadd, noteHole, searched]
  exact .search (by decide) hends

/-- The two searches after another one and the removal of a page. -/
theorem get_unmapped_area_exact_oneArea :
    ∃ mm, Run (Step (SearchTree.noBalance ℕ) smallArch) oneArea
        [.search 0 0x1000 false, .unmap 0x2000 0x1000] mm ∧ mm.mapCount = 2 ∧
      (∃ res, Ends (fun fuel => archGetUnmappedArea smallArch fuel mm 0 0x2000 false) res ∧
        Outcome smallArch mm 0x2000 res) ∧
      ∃ res, Ends (fun fuel => archGetUnmappedAreaTopdown smallArch fuel mm 0 0x2000 false) res ∧
        Outcome smallArch mm 0x2000 res := by
  have hfresh : Fresh searched ⟨some 1, true, true⟩ ⟨some 2, true, true⟩ :=
    ⟨by rintro _ ⟨⟩; decide, by rintro _ ⟨⟩; decide, by rintro _ ⟨⟩; decide⟩
  have hrun : ∃ mm, Run (Step (SearchTree.noBalance ℕ) smallArch) oneArea
      [.search 0 0x1000 false, .unmap 0x2000 0x1000] mm ∧ mm.mapCount = 2 :=
    ⟨_, .cons search_oneArea (.cons (.unmap hfresh rfl) (.nil _)), rfl⟩
  obtain ⟨mm, hrun, hcount⟩ := hrun
  exact ⟨mm, hrun, hcount, get_unmapped_area_exact (SearchTree.noBalance ℕ)
    ⟨by decide, by decide, by decide, by decide⟩
    ⟨oneArea_wellFormed, by decide, by decide, .inl rfl⟩ hrun (by decide) (by decide) 0⟩

end LinuxKernel.Mmap
