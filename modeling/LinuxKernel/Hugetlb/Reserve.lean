import LinuxKernel.Base.Intervals
import LinuxKernel.Base.Run
import LinuxKernel.Hugetlb.Model

/-! # The list of regions as a set of offsets

Placeholders of size zero may be anywhere in the list, as long as there is a gap between any two
regions. A reservation is then charged for exactly the offsets that it adds to the set.
-/

namespace LinuxKernel.Hugetlb

open Intervals FileRegion List Int
open Finset (Ico union_assoc Ico_union_Ico' mem_union union_empty)

variable {l l' rest : List FileRegion} {rg : FileRegion} {f t g chg stop : ℤ} {kmalloc : Bool}

noncomputable abbrev offsets (l : List FileRegion) : Finset ℤ := points rgFrom rgTo l

abbrev Sorted (l : List FileRegion) : Prop := Apart rgFrom rgTo l

section Locate

theorem before_append_located (l : List FileRegion) (f : ℤ) : before l f ++ located l f = l :=
  takeWhile_append_dropWhile

theorem offsets_split (l : List FileRegion) (f : ℤ) :
    offsets l = offsets (before l f) ∪ offsets (located l f) := by
  rw [offsets, ← points_append, before_append_located]

theorem lt_of_mem_before (h : rg ∈ before l f) : rg.rgTo < f := by
  simpa using mem_takeWhile_imp h

theorem le_of_located (h : located l f = rg :: rest) : f ≤ rg.rgTo := by
  have := head?_dropWhile_not (fun rg : FileRegion => decide (rg.rgTo < f)) l
  rw [located] at h
  rw [h] at this
  simpa using this

theorem located_append (hbefore : ∀ a ∈ l, a.rgTo < f) (hrg : f ≤ rg.rgTo) :
    before (l ++ rg :: rest) f = l ∧ located (l ++ rg :: rest) f = rg :: rest := by
  have hl : ∀ a ∈ l, decide (a.rgTo < f) = true := fun a ha => decide_eq_true (hbefore a ha)
  constructor
  · rw [before, takeWhile_append_of_pos hl, takeWhile_cons_of_neg (by simpa using hrg), append_nil]
  · rw [located, dropWhile_append_of_pos hl, dropWhile_cons_of_neg (by simpa using hrg)]

theorem sorted_split (h : Sorted l) (f : ℤ) : Sorted (before l f) ∧ Sorted (located l f) ∧
    ∀ a ∈ before l f, ∀ b ∈ located l f, a.rgTo < b.rgFrom :=
  Apart.append_iff.mp (by rwa [before_append_located])

end Locate

section Charge

theorem sum_overlap_eq_zero (h : ∀ a ∈ l, a.rgTo ≤ f ∨ t ≤ a.rgFrom) :
    (l.map (overlap rgFrom rgTo f t)).sum = 0 := by
  apply sum_eq_zero
  intro x hx
  obtain ⟨a, ha, rfl⟩ := mem_map.mp hx
  rw [overlap]
  rcases h a ha with h | h <;> omega

variable (h : Sorted l)
include h

theorem account_eq (hf : ∀ a ∈ l, f ≤ a.rgFrom) :
    account chg t l = chg - (l.map (overlap rgFrom rgTo f t)).sum := by
  induction l generalizing chg t with
  | nil => simp [account]
  | cons rg l ih =>
    obtain ⟨hle, hlt, hl⟩ := Apart.cons_iff.mp h
    obtain ⟨hfrg, hfl⟩ := forall_mem_cons.mp hf
    rw [account, map_cons, sum_cons]
    split_ifs with h₁ h₂
    · rw [sum_overlap_eq_zero fun a ha => .inr (by have := hlt a ha; omega), overlap]
      omega
    · -- the region reaches further, and all others lie behind it
      rw [ih hl hfl, sum_overlap_eq_zero fun a ha => .inr (by have := hlt a ha; omega),
        sum_overlap_eq_zero fun a ha => .inr (by have := hlt a ha; omega), overlap]
      omega
    · rw [ih hl hfl, overlap]
      omega

theorem card_missing (hft : f < t) :
    ((Ico f t \ offsets l).card : ℤ) = t - f - (l.map (overlap rgFrom rgTo f t)).sum := by
  have hcard : ((offsets l ∩ Ico f t).card : ℤ) = _ := h.card_inter_Ico
  have hadd := Finset.card_sdiff_add_card_inter (Ico f t) (offsets l)
  rw [Finset.inter_comm, card_Ico] at hadd
  omega

/-- The regions before an offset do not count, and the first one at it may begin before it. -/
theorem regionChg_charge (hft : f < t) (hl : located l f = rg :: rest) :
    account (t - if f > rg.rgFrom then rg.rgFrom else f) t (rg :: rest) =
      ((Ico f t \ offsets l).card : ℤ) := by
  obtain ⟨-, hsorted, -⟩ := sorted_split h f
  rw [hl] at hsorted
  obtain ⟨hle, hlt, hrest⟩ := Apart.cons_iff.mp hsorted
  have hrg := le_of_located hl
  have hbefore : ((before l f).map (overlap rgFrom rgTo f t)).sum = 0 :=
    sum_overlap_eq_zero fun a ha => .inl (lt_of_mem_before ha).le
  have hsame : ∀ g ≤ rg.rgTo, (rest.map (overlap rgFrom rgTo g t)).sum =
      (rest.map fun a => max 0 (min a.rgTo t - a.rgFrom)).sum := by
    intro g hg
    congr 1
    refine map_congr_left fun a ha => ?_
    have := hlt a ha
    have hmax : max a.rgFrom g = a.rgFrom := by omega
    rw [overlap, hmax]
  rw [card_missing h hft]
  nth_rewrite 1 [← before_append_located l f]
  rw [map_append, sum_append, hl, map_cons, sum_cons, hsame f hrg]
  split_ifs with hcut
  · rw [account_eq hsorted, map_cons, sum_cons, hsame _ hle, overlap,
      overlap]
    · omega
    · exact forall_mem_cons.mpr ⟨le_rfl, fun a ha => by have := hlt a ha; omega⟩
  · rw [account_eq hsorted, map_cons, sum_cons, hsame _ hrg]
    · omega
    · exact forall_mem_cons.mpr ⟨by omega, fun a ha => by have := hlt a ha; omega⟩

theorem missing_of_gap (hft : f < t) (hgap : ∀ a ∈ located l f, t ≤ a.rgFrom) :
    ((Ico f t \ offsets l).card : ℤ) = t - f := by
  rw [card_missing h hft]
  nth_rewrite 1 [← before_append_located l f]
  rw [sum_overlap_eq_zero, sub_zero]
  intro a ha
  rcases mem_append.mp ha with ha | ha
  · exact .inl (lt_of_mem_before ha).le
  · exact .inr (hgap a ha)

end Charge

section Reserve

/-- A reservation is charged for what it adds, and leaves a region for it to be recorded in. -/
def Charged (kmalloc : Bool) (l : List FileRegion) (f t : ℤ)
    (r : Except Errno ℤ × List FileRegion) :
    Prop :=
  (kmalloc = false ∧ r = (.error .enomem, l)) ∨
    ∃ l', r = (.ok (Ico f t \ offsets l).card, l') ∧ Sorted l' ∧ offsets l' = offsets l ∧
      ∃ nrg rest, located l' f = nrg :: rest ∧ nrg.rgFrom ≤ t

variable (h : Sorted l)
include h

theorem regionChg_cases (hft : f < t) : Charged kmalloc l f t (regionChg kmalloc l f t) := by
  -- a new region where there is none
  have hnew (hgap : ∀ a ∈ located l f, t < a.rgFrom) :
      Charged kmalloc l f t (placeholder kmalloc l f t) := by
    cases kmalloc with
    | false => exact .inl ⟨rfl, rfl⟩
    | true =>
      obtain ⟨hbefore, hlocated, hlt⟩ := sorted_split h f
      rw [Charged, missing_of_gap h hft fun a ha => (hgap a ha).le]
      refine .inr ⟨before l f ++ ⟨f, f⟩ :: located l f, rfl, ?_, ?_, ⟨f, f⟩, located l f,
        (located_append (fun a ha => lt_of_mem_before ha) (le_refl f)).2, hft.le⟩
      · refine Apart.append_iff.mpr ⟨hbefore, Apart.cons_iff.mpr ⟨le_rfl, ?_, hlocated⟩, ?_⟩
        · exact fun a ha => hft.trans (hgap a ha)
        · exact fun a ha => forall_mem_cons.mpr ⟨lt_of_mem_before ha, hlt a ha⟩
      · rw [offsets_split l f, offsets, points_append, points_cons, Finset.Ico_self,
          Finset.empty_union]
  rw [regionChg]
  cases hl : located l f with
  | nil => exact hnew (by simp [hl])
  | cons rg rest =>
    dsimp only
    by_cases ht : t < rg.rgFrom
    · rw [if_pos ht]
      refine hnew fun a ha => ?_
      obtain ⟨-, hsorted, -⟩ := sorted_split h f
      rw [hl] at hsorted ha
      obtain ⟨hle, hlt, -⟩ := Apart.cons_iff.mp hsorted
      rcases mem_cons.mp ha with rfl | ha
      · exact ht
      · have := hlt a ha
        omega
    · rw [if_neg ht, regionChg_charge h hft hl]
      exact .inr ⟨l, rfl, h, rfl, rg, rest, hl, not_lt.mp ht⟩

theorem consume_spec (hg : ∀ a ∈ l, g ≤ a.rgFrom) (hgt : g ≤ t) :
    t ≤ (consume t l).1 ∧ (consume t l).2.Sublist l ∧
    (∀ a ∈ (consume t l).2, (consume t l).1 < a.rgFrom) ∧
    Ico g (consume t l).1 ∪ offsets (consume t l).2 = Ico g t ∪ offsets l := by
  induction l generalizing t with
  | nil => exact ⟨le_rfl, List.Sublist.refl _, by simp [consume], rfl⟩
  | cons rg l ih =>
    obtain ⟨hle, hlt, hl⟩ := Apart.cons_iff.mp h
    obtain ⟨hgrg, hg⟩ := forall_mem_cons.mp hg
    rw [consume]
    split_ifs with h₁ h₂
    · refine ⟨le_rfl, List.Sublist.refl _, forall_mem_cons.mpr ⟨h₁, fun a ha => ?_⟩, rfl⟩
      have := hlt a ha
      omega
    · obtain ⟨ht, hsub, hgap, hunion⟩ := ih hl hg (hgrg.trans hle)
      refine ⟨by omega, hsub.cons _, hgap, hunion.trans ?_⟩
      rw [offsets, offsets, points_cons, ← union_assoc,
        Ico_union_Ico' (by omega) (by omega), min_eq_left hgrg, max_eq_right h₂.le]
    · obtain ⟨ht, hsub, hgap, hunion⟩ := ih hl hg hgt
      refine ⟨ht, hsub.cons _, hgap, hunion.trans ?_⟩
      rw [offsets, offsets, points_cons, ← union_assoc,
        Ico_union_Ico' (by omega) (by omega), min_eq_left hgrg, max_eq_left (by omega)]

theorem regionAdd_spec (hl : located l f = rg :: rest) (ht : rg.rgFrom ≤ t) :
    ∃ l', regionAdd l f t = some l' ∧ Sorted l' ∧ offsets l' = offsets l ∪ Ico f t := by
  obtain ⟨hbefore, hsorted, hlt⟩ := sorted_split h f
  rw [hl] at hsorted hlt
  obtain ⟨hle, hrest, hsorted⟩ := Apart.cons_iff.mp hsorted
  have hrg := le_of_located hl
  have hreach : (if rg.rgTo > t then rg.rgTo else t) = max t rg.rgTo := by split_ifs <;> omega
  have hround : (if f > rg.rgFrom then rg.rgFrom else f) = min f rg.rgFrom := by
    split_ifs <;> omega
  obtain ⟨hle', hsub, hgap, hunion⟩ := consume_spec (g := min f rg.rgFrom) (t := max t rg.rgTo)
    hsorted (fun a ha => by have := hrest a ha; omega) (by omega)
  have hadd : regionAdd l f t = some (before l f ++
      ⟨min f rg.rgFrom, (consume (max t rg.rgTo) rest).1⟩ :: (consume (max t rg.rgTo) rest).2) := by
    rw [regionAdd, hl]
    dsimp only
    rw [if_neg (not_lt.mpr ht), hreach, hround]
  refine ⟨_, hadd, ?_, ?_⟩
  · refine Apart.append_iff.mpr ⟨hbefore, Apart.cons_iff.mpr
      ⟨by dsimp only; omega, hgap, hsorted.sublist hsub⟩, fun a ha => ?_⟩
    have := lt_of_mem_before ha
    have := hlt a ha rg (mem_cons_self ..)
    refine forall_mem_cons.mpr ⟨by dsimp only; omega, fun b hb => ?_⟩
    exact hlt a ha b (mem_cons_of_mem _ (hsub.subset hb))
  · rw [offsets, points_append, points_cons, hunion]
    rw [offsets_split l f, hl, offsets, offsets, offsets, points_cons,
      ← Ico_union_Ico' (by omega) (by omega)]
    ext x
    simp only [mem_union]
    tauto

end Reserve

section Truncate

theorem dropAll_eq : dropAll chg l = chg + (l.map fun a => a.rgTo - a.rgFrom).sum := by
  induction l generalizing chg with
  | nil => simp [dropAll]
  | cons rg l ih =>
    rw [dropAll, foldl_cons, ← dropAll, ih, map_cons, sum_cons, add_assoc]

theorem offsets_cut (l₁ l₂ : List FileRegion) (h₁ : ∀ a ∈ l₁, a.rgTo ≤ stop)
    (h₂ : ∀ a ∈ l₂, stop ≤ a.rgFrom) :
    {x ∈ offsets l₁ ∪ offsets l₂ | x < stop} = offsets l₁ ∧
    {x ∈ offsets l₁ ∪ offsets l₂ | stop ≤ x} = offsets l₂ := by
  have hlt : ∀ x ∈ offsets l₁, x < stop := by
    intro x hx
    obtain ⟨a, ha, -, hax⟩ := mem_points.mp hx
    exact hax.trans_le (h₁ a ha)
  have hle : ∀ x ∈ offsets l₂, stop ≤ x := by
    intro x hx
    obtain ⟨a, ha, hax, -⟩ := mem_points.mp hx
    exact (h₂ a ha).trans hax
  constructor <;> ext x <;> rw [Finset.mem_filter] <;> grind

theorem regionTruncate_spec (h : Sorted l) :
    Sorted (regionTruncate l stop).2 ∧
    offsets (regionTruncate l stop).2 = {x ∈ offsets l | x < stop} ∧
    (regionTruncate l stop).1 = ({x ∈ offsets l | stop ≤ x}.card : ℤ) := by
  obtain ⟨hbefore, hsorted, hlt⟩ := sorted_split h stop
  have hl := before_append_located l stop
  have hle : ∀ a ∈ before l stop, a.rgTo ≤ stop := fun a ha => (lt_of_mem_before ha).le
  rw [regionTruncate]
  cases hcases : located l stop with
  | nil =>
    rw [hcases, append_nil] at hl
    obtain ⟨hlow, hhigh⟩ := offsets_cut _ [] hle (by simp)
    rw [hl] at hlow hhigh
    rw [show offsets [] = ∅ from rfl, union_empty] at hlow hhigh
    exact ⟨h, hlow.symm, by rw [hhigh]; rfl⟩
  | cons rg rest =>
    rw [hcases] at hl hsorted hlt
    obtain ⟨hrg, hrest, hsorted'⟩ := Apart.cons_iff.mp hsorted
    have hto := le_of_located hcases
    dsimp only
    split_ifs with hin
    · -- the region is cut into one before the offset and one behind it
      obtain ⟨hlow, hhigh⟩ := offsets_cut (before l stop ++ [⟨rg.rgFrom, stop⟩])
        (⟨stop, rg.rgTo⟩ :: rest)
        (by simpa [or_imp, forall_and] using hle)
        (forall_mem_cons.mpr ⟨le_refl stop, fun a ha => by have := hrest a ha; omega⟩)
      have hsame : offsets (before l stop ++ [⟨rg.rgFrom, stop⟩]) ∪
          offsets (⟨stop, rg.rgTo⟩ :: rest) = offsets l := by
        rw [offsets_split l stop, hcases]
        simp only [points_append, points_cons]
        rw [← Finset.Ico_union_Ico_eq_Ico hin.le hto]
        simp only [points, foldr_nil, union_empty, union_assoc]
      rw [hsame] at hlow hhigh
      refine ⟨?_, hlow.symm, ?_⟩
      · refine Apart.append_iff.mpr ⟨hbefore, Apart.cons_iff.mpr ⟨hin.le, by simp, .nil⟩, ?_⟩
        intro a ha b hb
        rw [mem_singleton.mp hb]
        exact hlt a ha rg (mem_cons_self ..)
      · have hsorted : Sorted (⟨stop, rg.rgTo⟩ :: rest) := Apart.cons_iff.mpr ⟨hto, hrest, hsorted'⟩
        rw [hhigh, hsorted.card_points, dropAll_eq, map_cons, sum_cons]
    · obtain ⟨hlow, hhigh⟩ := offsets_cut _ (rg :: rest) hle
        (forall_mem_cons.mpr ⟨by omega, fun a ha => by have := hrest a ha; omega⟩)
      rw [← hcases, ← offsets_split] at hlow hhigh
      exact ⟨hbefore, hlow.symm, by
        rw [hhigh, hcases, hsorted.card_points, dropAll_eq, zero_add]⟩

end Truncate

section Count

/-- Differences of `int`s that were cut from `long`s are right if they fit. -/
theorem toInt_sub {x y : ℤ} (h₀ : 0 ≤ x - y) (h : x - y < 2 ^ 31) :
    toInt (toInt x - toInt y) = x - y := by
  rw [toInt, toInt, toInt, bmod_sub_bmod, sub_bmod_bmod]
  exact bmod_eq_of_le (by omega) (by omega)

theorem regionCount_eq (h : Sorted l) (hft : f ≤ t) (hshort : t - f < 2 ^ 31) :
    regionCount f t chg l = chg + ((offsets l ∩ Ico f t).card : ℤ) := by
  rw [h.card_inter_Ico]
  induction l generalizing chg with
  | nil => simp [regionCount]
  | cons rg l ih =>
    obtain ⟨hle, hlt, hl⟩ := Apart.cons_iff.mp h
    rw [regionCount, map_cons, sum_cons]
    split_ifs with h₁ h₂
    · rw [ih hl, overlap]
      omega
    · rw [sum_overlap_eq_zero fun a ha => .inr (by have := hlt a ha; omega), overlap]
      omega
    · rw [ih hl, toInt_sub (by omega) (by omega), overlap]
      omega

end Count

section Runs

inductive Op where
  | chg (kmalloc : Bool) (f t : ℤ)
  | chgAdd (kmalloc : Bool) (f t : ℤ)
  | truncate (stop : ℤ)

inductive Step : List FileRegion → Op → List FileRegion → Prop
  | chg {l : List FileRegion} {kmalloc : Bool} {f t : ℤ} : f < t →
      Step l (.chg kmalloc f t) (regionChg kmalloc l f t).2
  | chgAdd {l l₁ l₂ : List FileRegion} {kmalloc : Bool} {f t chg : ℤ} : f < t →
      regionChg kmalloc l f t = (.ok chg, l₁) → regionAdd l₁ f t = some l₂ →
      Step l (.chgAdd kmalloc f t) l₂
  | truncate {l : List FileRegion} {stop : ℤ} :
      Step l (.truncate stop) (regionTruncate l stop).2

theorem Step.sorted {op : Op} (h : Sorted l) (hstep : Step l op l') : Sorted l' := by
  cases hstep with
  | chg hft =>
    rcases regionChg_cases h hft with ⟨-, hchg⟩ | ⟨l', hchg, hsorted, -⟩
    · rwa [hchg]
    · rwa [hchg]
  | chgAdd hft hchg hadd =>
    rcases regionChg_cases h hft with ⟨-, hchg'⟩ | ⟨l', hchg', hsorted, -, nrg, rest, hl, ht⟩
    · cases hchg'.symm.trans hchg
    · obtain ⟨-, rfl⟩ := Prod.mk.inj (hchg'.symm.trans hchg)
      obtain ⟨l₂, hadd', hsorted, -⟩ := regionAdd_spec hsorted hl ht
      rw [Option.some.inj (hadd.symm.trans hadd')]
      exact hsorted
  | truncate => exact (regionTruncate_spec h).1

/-- After any sequence of operations the list of regions is in order, and every operation does to
the set of covered offsets what it is meant to. -/
theorem region_list_refines_set {ops : List Op} (hrun : Run Step [] ops l) :
    Sorted l ∧
    (∀ f t kmalloc, f < t →
      (kmalloc = false ∧ regionChg kmalloc l f t = (.error .enomem, l)) ∨
      ∃ l₁ l₂, regionChg kmalloc l f t = (.ok (Ico f t \ offsets l).card, l₁) ∧
        offsets l₁ = offsets l ∧ regionAdd l₁ f t = some l₂ ∧
        offsets l₂ = offsets l ∪ Ico f t ∧
        (offsets l₂).card = (offsets l).card + (Ico f t \ offsets l).card) ∧
    (∀ stop, offsets (regionTruncate l stop).2 = {x ∈ offsets l | x < stop} ∧
      (regionTruncate l stop).1 = ({x ∈ offsets l | stop ≤ x}.card : ℤ)) ∧
    ∀ f t, f ≤ t → t - f < 2 ^ 31 → regionCount f t 0 l = ((offsets l ∩ Ico f t).card : ℤ) := by
  have h : Sorted l := hrun.invariant Step.sorted .nil
  refine ⟨h, fun f t kmalloc hft => ?_, fun stop => (regionTruncate_spec h).2,
    fun f t hft hshort => by rw [regionCount_eq h hft hshort, zero_add]⟩
  rcases regionChg_cases h hft with hfail | ⟨l₁, hchg, hsorted, hsame, nrg, rest, hl, ht⟩
  · exact .inl hfail
  · obtain ⟨l₂, hadd, -, hunion⟩ := regionAdd_spec hsorted hl ht
    rw [hsame] at hunion
    refine .inr ⟨l₁, l₂, hchg, hsame, hadd, hunion, ?_⟩
    rw [hunion, ← Finset.union_sdiff_self_eq_union,
      Finset.card_union_of_disjoint Finset.disjoint_sdiff]

/-- A placeholder that is left behind, a reservation over it, and a truncation inside it. -/
theorem region_list_refines_set_placeholder :
    Run Step [] [.chg true 5 8, .chgAdd true 2 7, .truncate 4] [⟨2, 4⟩] ∧
    regionCount 0 10 0 [⟨2, 4⟩] = ((offsets [⟨2, 4⟩] ∩ Ico 0 10).card : ℤ) := by
  have hrun : Run Step [] [.chg true 5 8, .chgAdd true 2 7, .truncate 4] [⟨2, 4⟩] :=
    .cons (.chg (by decide))
      (.cons (.chgAdd (by decide) rfl rfl) (.cons .truncate (.nil _)))
  exact ⟨hrun, (region_list_refines_set hrun).2.2.2 0 10 (by decide) (by decide)⟩

end Runs

end LinuxKernel.Hugetlb
