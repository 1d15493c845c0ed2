import Mathlib.Data.List.TakeWhile
import LinuxKernel.Swap.Exact

/-! # The retry loop of `swap_duplicate`

When the count of a slot needs another digit and there is no page for it, `swap_duplicate`
attaches a page and tries again. The walk that asks for the page and the one that uses it stop
at different digits, but agree on whether all digits are full.
-/

namespace LinuxKernel.Swap

open List Option

/-- The loop of `swap_duplicate`, for at most `fuel` rounds. `alloc n` is what `alloc_page`
returns in round `n`. Returned are the result, the number of allocations and the device. -/
def swapDuplicateLoop (offset : ℕ) (alloc : ℕ → Option ContPage) :
    ℕ → ℕ → SwapInfo → Option (Option Errno × ℕ × SwapInfo)
  | 0, _, _ => none
  | fuel + 1, n, si =>
    match swapDuplicate si offset 1 with
    | none => none
    | some (some .enomem, si) =>
      match addSwapCountContinuation si offset (alloc n) with
      | none => none
      | some (some err, si) => some (some err, n + 1, si)
      | some (none, si) => swapDuplicateLoop offset alloc fuel (n + 1) si
    | some (_, si) => some (none, n, si)

variable {si si' : SwapInfo} {o off : ℕ} {pages pages' full : List ContPage} {map page : ContPage}

/-- All digits of a slot are full, and there is no page for another one. -/
inductive NeedsPage (si : SwapInfo) (o : ℕ) : Prop where
  | first : si.cont (o / pageSize) = none → si.swapMap o &&& ~~~swapHasCache = swapMapMax →
      NeedsPage si o
  | next (full : List ContPage) (map : ContPage) : si.cont (o / pageSize) = some (full ++ [map]) →
      (∀ m ∈ full, m (o % pageSize) = swapContMax ||| countContinued) →
      map (o % pageSize) = swapContMax →
      si.swapMap o &&& ~~~swapHasCache = swapMapMax ||| countContinued → NeedsPage si o

theorem count_cases (b : Byte) (h : ¬ b &&& ~~~swapHasCache &&& ~~~countContinued < swapMapMax)
    (h' : ¬ swapMapMax < b &&& ~~~swapHasCache &&& ~~~countContinued) :
    b &&& ~~~swapHasCache = swapMapMax ∨ b &&& ~~~swapHasCache = swapMapMax ||| countContinued := by
  revert b; decide

/-- A carry fails only when the last digit is full. -/
theorem incrementing_fails (h : incrementing off pages = some (false, pages')) :
    pages' = pages ∧ ∃ full map, pages = full ++ [map] ∧
      (∀ m ∈ full, m off = swapContMax ||| countContinued) ∧ map off = swapContMax := by
  unfold incrementing at h
  rcases hd : pages.dropWhile fun map => map off = swapContMax ||| countContinued
    with _ | ⟨map, rest⟩
  · rw [hd] at h
    cases h
  rw [hd] at h
  dsimp only at h
  split_ifs at h with hmax
  · rcases rest with _ | ⟨fresh, rest⟩
    · have hparts := takeWhile_append_dropWhile
        (p := fun map : ContPage => decide (map off = swapContMax ||| countContinued)) (l := pages)
      rw [hd] at hparts
      refine ⟨(Prod.mk.inj (some.inj h)).2.symm, _, map, hparts.symm, fun m hm => ?_, hmax⟩
      simpa using mem_takeWhile_imp hm
    · cases h
  · cases h

section

variable (hfull : ∀ m ∈ full, m off = swapContMax ||| countContinued) (hmax : map off = swapContMax)
include hfull hmax

theorem incrementing_attached (page : ContPage) :
    ∃ pages, incrementing off (full ++ [map] ++ [page]) = some (true, pages) := by
  have hskip : ∀ m ∈ full, decide (m off = swapContMax ||| countContinued) = true :=
    fun m hm => decide_eq_true (hfull m hm)
  have hstop : ¬ decide (map off = swapContMax ||| countContinued) = true := by
    rw [hmax]
    decide
  unfold incrementing
  rw [append_assoc, dropWhile_append_of_pos hskip, singleton_append,
    dropWhile_cons_of_neg (a := map) hstop]
  dsimp only
  rw [if_pos hmax]
  exact ⟨_, rfl⟩

/-- The walk that asks for a page comes to the end of the full digits. -/
theorem continuationsUsed_full {count : Byte} (hc : count &&& countContinued ≠ 0) :
    continuationsUsed off count (full ++ [map]) = true := by
  induction full generalizing count with
  | nil =>
    simp only [nil_append, continuationsUsed, if_neg hc, hmax]
    decide
  | cons m full ih =>
    obtain ⟨hm, hfull⟩ := forall_mem_cons.mp hfull
    rw [cons_append, continuationsUsed, if_neg hc, hm]
    exact ih hfull (by decide)

end

/-- What a slot is like for which `__swap_duplicate` asks for memory. It has not been changed. -/
theorem swapDuplicate_enomem (h : swapDuplicate si o 1 = some (some .enomem, si')) :
    ¬ si.max ≤ o ∧ NeedsPage si o ∧ si' = si := by
  have hself : si.setMap o (si.swapMap o &&& ~~~swapHasCache ||| si.swapMap o &&& swapHasCache) =
      si := by rw [join_split, setMap_self]
  unfold swapDuplicate at h
  rw [if_neg (by decide : ¬ 1 = swapHasCache)] at h
  split_ifs at h with hmax hu hlt hgt
  · cases h
  · cases h
  · cases h
  · refine ⟨hmax, ?_⟩
    rcases hcont : swapCountContinued si o (si.swapMap o &&& ~~~swapHasCache)
      with _ | ⟨_ | _, s⟩ <;> rw [hcont] at h
    · cases h
    · obtain rfl : s.setMap o _ = si' := (Prod.mk.inj (some.inj h)).2
      unfold swapCountContinued at hcont
      rcases hc : si.cont (o / pageSize) with _ | pages
      · rw [hc] at hcont
        dsimp only at hcont
        split_ifs at hcont with hflag
        obtain rfl : si = s := (Prod.mk.inj (some.inj hcont)).2
        refine ⟨.first hc ((count_cases _ hlt hgt).resolve_right fun hcount => ?_), hself⟩
        rw [hcount] at hflag
        exact absurd hflag (by decide)
      · rw [hc] at hcont
        dsimp only at hcont
        rcases count_cases _ hlt hgt with hcount | hcount
        · rw [if_pos hcount] at hcont
          cases pages <;> cases hcont
        · rw [hcount] at hcont
          obtain ⟨⟨_, pages'⟩, hinc, heq⟩ := map_eq_some_iff.mp hcont
          obtain ⟨rfl, rfl⟩ := Prod.mk.inj heq
          obtain ⟨rfl, full, map, rfl, hfull, hmap⟩ := incrementing_fails hinc
          have hsame : si.setCont o (full ++ [map]) = si := by
            rw [SwapInfo.setCont, ← hc, Function.update_eq_self]
          refine ⟨.next full map hc hfull hmap hcount, ?_⟩
          rw [hsame, hself]
    · cases h
  · cases h

theorem NeedsPage.count_eq (h : NeedsPage si o) : si.swapMap o ≠ 0 ∧
    si.swapMap o &&& ~~~swapHasCache &&& ~~~countContinued = swapMapMax := by
  have hne : ∀ b : Byte, b &&& ~~~swapHasCache = swapMapMax ∨
      b &&& ~~~swapHasCache = swapMapMax ||| countContinued →
      b ≠ 0 ∧ b &&& ~~~swapHasCache &&& ~~~countContinued = swapMapMax := by decide
  cases h with
  | first hc hcount => exact hne _ (.inl hcount)
  | next full map hc hfull hmap hcount => exact hne _ (.inr hcount)

/-- A page is attached to such a slot, and with it the carry succeeds. -/
theorem NeedsPage.attach (h : NeedsPage si o) (hmax : ¬ si.max ≤ o) (page : ContPage) :
    ∃ pages, addSwapCountContinuation si o (some page) = some (none, si.setCont o pages) ∧
      ∃ si', swapDuplicate (si.setCont o pages) o 1 = some (none, si') := by
  have hused : ¬ (si.max ≤ o ∨ si.swapMap o = 0) := not_or.mpr ⟨hmax, h.count_eq.1⟩
  cases h with
  | first hc hcount =>
    refine ⟨[page], ?_, ?_⟩
    · unfold addSwapCountContinuation
      rw [if_neg hused]
      simp only [hcount, hc]
      rfl
    · unfold swapDuplicate swapCountContinued
      simp only [setCont_max, setCont_swapMap, if_neg hmax, hcount, setCont_cont_self]
      exact ⟨_, rfl⟩
  | next full map hc hfull hmap hcount =>
    refine ⟨full ++ [map] ++ [page], ?_, ?_⟩
    · unfold addSwapCountContinuation
      rw [if_neg hused]
      have hwalk := continuationsUsed_full hfull hmap
        (by decide : (swapMapMax ||| countContinued) &&& countContinued ≠ 0)
      simp only [hcount, hc, hwalk]
      rfl
    · obtain ⟨pages, hinc⟩ := incrementing_attached hfull hmap page
      unfold swapDuplicate swapCountContinued
      simp only [setCont_max, setCont_swapMap, if_neg hmax, hcount, setCont_cont_self, hinc]
      exact ⟨_, rfl⟩

theorem NeedsPage.refuse (h : NeedsPage si o) (hmax : ¬ si.max ≤ o) :
    addSwapCountContinuation si o none = some (some .enomem, si) := by
  unfold addSwapCountContinuation
  rw [if_neg (not_or.mpr ⟨hmax, h.count_eq.1⟩)]
  exact if_neg (not_not.mpr h.count_eq.2)

/-- One page is enough for a slot that needs one, so that the retry loop ends after at most one
allocation. -/
theorem one_continuation_is_enough (si : SwapInfo) (o : ℕ) :
    (∀ si₁ page, swapDuplicate si o 1 = some (some .enomem, si₁) →
      ∃ si₂ si₃, addSwapCountContinuation si₁ o (some page) = some (none, si₂) ∧
        swapDuplicate si₂ o 1 = some (none, si₃)) ∧
    ∀ alloc, swapDuplicate si o 1 ≠ none → ∃ err n si', n ≤ 1 ∧
      ∀ fuel ≥ 2, swapDuplicateLoop o alloc fuel 0 si = some (err, n, si') := by
  constructor
  · intro si₁ page h
    obtain ⟨hmax, hneeds, rfl⟩ := swapDuplicate_enomem h
    obtain ⟨pages, hadd, si₃, hdup⟩ := hneeds.attach hmax page
    exact ⟨_, si₃, hadd, hdup⟩
  intro alloc hbug
  obtain ⟨⟨err, si₁⟩, hdup⟩ := ne_none_iff_exists'.mp hbug
  -- two rounds are left
  suffices hloop : ∃ err n si', n ≤ 1 ∧
      ∀ fuel, swapDuplicateLoop o alloc (fuel + 2) 0 si = some (err, n, si') by
    obtain ⟨err, n, si', hn, hloop⟩ := hloop
    refine ⟨err, n, si', hn, fun fuel hfuel => ?_⟩
    rw [← Nat.sub_add_cancel hfuel]
    exact hloop _
  by_cases herr : err = some .enomem
  · subst herr
    obtain ⟨hmax, hneeds, rfl⟩ := swapDuplicate_enomem hdup
    rcases hpage : alloc 0 with _ | page
    · refine ⟨some .enomem, 1, si₁, le_rfl, fun fuel => ?_⟩
      rw [swapDuplicateLoop, hdup]
      simp only [hpage, hneeds.refuse hmax]
    · obtain ⟨pages, hadd, si₃, hdup'⟩ := hneeds.attach hmax page
      refine ⟨none, 1, si₃, le_rfl, fun fuel => ?_⟩
      rw [swapDuplicateLoop, hdup]
      simp only [hpage, hadd]
      rw [swapDuplicateLoop, hdup']
  · refine ⟨none, 0, si₁, by omega, fun fuel => ?_⟩
    rw [swapDuplicateLoop, hdup]
    split
    · rename_i h
      cases h
    · rename_i h
      cases h
      exact (herr rfl).elim
    · rename_i h
      cases h
      rfl

/-- A slot that is used 62 times gets its first continuation page. -/
theorem one_continuation_is_enough_first :
    ∃ si₂ si₃, swapDuplicate (emptyDevice.setMap 3 0x3e) 3 1 =
        some (some .enomem, emptyDevice.setMap 3 0x3e) ∧
      addSwapCountContinuation (emptyDevice.setMap 3 0x3e) 3 (some fun _ => 0x55) =
        some (none, si₂) ∧ swapDuplicate si₂ 3 1 = some (none, si₃) := by
  have h : swapDuplicate (emptyDevice.setMap 3 0x3e) 3 1 =
      some (some .enomem, emptyDevice.setMap 3 0x3e) := by
    simp [swapDuplicate, swapCountContinued, emptyDevice, SwapInfo.setMap, swapHasCache,
      countContinued, swapMapMax]
  obtain ⟨si₂, si₃, hadd, hdup⟩ :=
    (one_continuation_is_enough (emptyDevice.setMap 3 0x3e) 3).1 _ (fun _ => 0x55) h
  exact ⟨si₂, si₃, h, hadd, hdup⟩

end LinuxKernel.Swap
