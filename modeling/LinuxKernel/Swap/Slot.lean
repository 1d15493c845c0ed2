import LinuxKernel.Swap.Digits

/-! # The number stored for one slot

The low digit of the swap map and the continuation digits of a slot form one
number. Each call changes the number of its own slot by at most one and leaves
the numbers of all other slots alone, including those on the same map page.
-/

namespace LinuxKernel.Swap

open Function

/-- The continuation bytes of a slot, last digit and garbage included. -/
def slotDigits (si : SwapInfo) (o : ℕ) : List Byte :=
  digits (o % pageSize) ((si.cont (o / pageSize)).getD [])

/-- The low digit of a count, without the two flags. -/
def lowDigit (b : Byte) : ℕ := (b &&& ~~~(swapHasCache ||| countContinued)).toNat

/-- The number that a slot stores: radix 63 for the low digit, 128 for the others. -/
def number (si : SwapInfo) (o : ℕ) : ℕ :=
  lowDigit (si.swapMap o) +
    if si.swapMap o &&& countContinued = 0 then 0 else 63 * contValue (slotDigits si o)

def hasCache (si : SwapInfo) (o : ℕ) : Prop := si.swapMap o &&& swapHasCache ≠ 0

structure SlotOk (si : SwapInfo) (o : ℕ) : Prop where
  low : lowDigit (si.swapMap o) ≤ 62
  cont : si.swapMap o &&& countContinued ≠ 0 → WellFormed (slotDigits si o)

/-- A map page that is marked as continued has a continuation page. -/
def PagesOk (si : SwapInfo) : Prop := ∀ i pages, si.cont i = some pages → pages ≠ []

structure Untouched (si si' : SwapInfo) (o : ℕ) : Prop where
  map : si'.swapMap o = si.swapMap o
  digits : ∃ bs, slotDigits si' o = slotDigits si o ++ bs

theorem Untouched.keeps {si si' : SwapInfo} {o : ℕ} (h : Untouched si si' o) (hs : SlotOk si o) :
    SlotOk si' o ∧ number si' o = number si o ∧ (hasCache si' o ↔ hasCache si o) := by
  obtain ⟨bs, hd⟩ := h.digits
  simp only [number, hasCache, h.map]
  refine ⟨⟨by rw [h.map]; exact hs.low, fun hc => ?_⟩, ?_, trivial⟩
  · rw [h.map] at hc
    rw [hd]
    exact (wellFormed_append (hs.cont hc) bs).1
  · split_ifs with hc
    · rfl
    · rw [hd, (wellFormed_append (hs.cont hc) bs).2]

/-- What a call on slot `o` leaves behind: the slot holds `n` references and has
the cache flag exactly when `c`, and no other slot is touched. -/
structure Effect (si si' : SwapInfo) (o n : ℕ) (c : Prop) : Prop where
  pages : PagesOk si'
  max : si'.max = si.max
  slot : SlotOk si' o
  number : number si' o = n
  cache : hasCache si' o ↔ c
  others : ∀ o' ≠ o, Untouched si si' o'

section Cont

variable {si : SwapInfo} {o : ℕ} {pages pages' : List ContPage}

@[simp] theorem setMap_cont (b : Byte) : (si.setMap o b).cont = si.cont := rfl
@[simp] theorem setMap_swapMap_self (b : Byte) : (si.setMap o b).swapMap o = b := update_self ..
@[simp] theorem setCont_max : (si.setCont o pages).max = si.max := rfl
@[simp] theorem setCont_swapMap : (si.setCont o pages).swapMap = si.swapMap := rfl
@[simp] theorem release_swapMap : (si.release o).swapMap = si.swapMap := rfl

theorem setMap_swapMap_of_ne {o' : ℕ} (h : o' ≠ o) (b : Byte) :
    (si.setMap o b).swapMap o' = si.swapMap o' := update_of_ne h ..

@[simp] theorem setCont_cont_self : (si.setCont o pages).cont (o / pageSize) = some pages :=
  update_self ..

theorem setCont_cont_of_ne {i : ℕ} (h : i ≠ o / pageSize) :
    (si.setCont o pages).cont i = si.cont i := update_of_ne h ..

theorem slotDigits_congr {si si' : SwapInfo} (h : si'.cont = si.cont) (o : ℕ) :
    slotDigits si' o = slotDigits si o := by rw [slotDigits, slotDigits, h]

theorem slotDigits_of_cont (h : si.cont (o / pageSize) = some pages) :
    slotDigits si o = digits (o % pageSize) pages := by rw [slotDigits, h]; rfl

theorem slotDigits_setCont_self : slotDigits (si.setCont o pages) o = digits (o % pageSize) pages :=
  slotDigits_of_cont setCont_cont_self

theorem slotDigits_setCont_of_ne (hc : si.cont (o / pageSize) = some pages)
    (h : SameElsewhere (o % pageSize) pages pages') {o' : ℕ} (ho : o' ≠ o) :
    slotDigits (si.setCont o pages') o' = slotDigits si o' := by
  by_cases hq : o' / pageSize = o / pageSize
  · have hr : o' % pageSize ≠ o % pageSize := by
      intro hr
      exact ho (by rw [← Nat.div_add_mod o' pageSize, ← Nat.div_add_mod o pageSize, hq, hr])
    rw [slotDigits, slotDigits, hq, hc, setCont_cont_self]
    exact h _ hr
  · rw [slotDigits, slotDigits, setCont_cont_of_ne hq]

theorem pagesOk_setCont (h : PagesOk si) (hne : pages ≠ []) : PagesOk (si.setCont o pages) := by
  intro i ps hi
  by_cases hq : i = o / pageSize
  · subst hq
    rw [setCont_cont_self] at hi
    exact Option.some.inj hi ▸ hne
  · rw [setCont_cont_of_ne hq] at hi
    exact h i ps hi

theorem pagesOk_congr {si si' : SwapInfo} (h : si'.cont = si.cont) (hp : PagesOk si) :
    PagesOk si' := by
  intro i pages hi
  exact hp i pages (h ▸ hi)

end Cont

/-- What a carry or borrow may change: the continuation digits of its own slot. -/
structure DigitsOnly (si si' : SwapInfo) (o : ℕ) : Prop where
  pages : PagesOk si'
  max : si'.max = si.max
  map : si'.swapMap = si.swapMap
  others : ∀ o' ≠ o, slotDigits si' o' = slotDigits si o'

section Continued

variable {si : SwapInfo} {o : ℕ}

section

variable (hp : PagesOk si)
include hp

theorem DigitsOnly.refl : DigitsOnly si si o := ⟨hp, rfl, rfl, fun _ _ => rfl⟩

theorem DigitsOnly.setCont {pages pages' : List ContPage}
    (hc : si.cont (o / pageSize) = some pages) (hne : pages' ≠ [])
    (h : SameElsewhere (o % pageSize) pages pages') : DigitsOnly si (si.setCont o pages') o :=
  ⟨pagesOk_setCont hp hne, rfl, rfl, fun _ => slotDigits_setCont_of_ne hc h⟩

theorem swapCountContinued_first :
    ∃ r si', swapCountContinued si o swapMapMax = some (r, si') ∧ DigitsOnly si si' o ∧
      if r then WellFormed (slotDigits si' o) ∧ contValue (slotDigits si' o) = 1
      else si' = si := by
  unfold swapCountContinued
  cases hc : si.cont (o / pageSize) with
  | none => exact ⟨false, si, by simp [swapMapMax, countContinued], .refl hp, rfl⟩
  | some pages =>
    cases pages with
    | nil => exact absurd rfl (hp _ _ hc)
    | cons map rest =>
      refine ⟨true, _, if_pos rfl, .setCont hp hc (by simp) ?_, ?_⟩
      · intro off' ho
        rw [digits_cons, digits_cons, setDigit_of_ne ho]
      · rw [slotDigits_setCont_self, digits_cons, setDigit_self]
        refine ⟨by simp [WellFormed, countContinued], ?_⟩
        rfl

variable (hw : WellFormed (slotDigits si o))
include hw

theorem swapCountContinued_carry :
    ∃ r si', swapCountContinued si o (swapMapMax ||| countContinued) = some (r, si') ∧
      DigitsOnly si si' o ∧
      if r then WellFormed (slotDigits si' o) ∧
        contValue (slotDigits si' o) = contValue (slotDigits si o) + 1
      else si' = si := by
  unfold swapCountContinued
  cases hc : si.cont (o / pageSize) with
  | none =>
    rw [slotDigits, hc] at hw
    exact hw.elim
  | some pages =>
    rw [slotDigits_of_cont hc] at hw ⊢
    obtain ⟨r, pages', he, hne, hs, hv⟩ := incrementing_spec hw
    have hrun : (incrementing (o % pageSize) pages).map (fun r => (r.1, si.setCont o r.2)) =
        some (r, si.setCont o pages') := by rw [he]; rfl
    refine ⟨r, si.setCont o pages', hrun, .setCont hp hc hne hs, ?_⟩
    cases r with
    | true => simpa only [if_pos, slotDigits_setCont_self] using hv
    | false =>
      have hk : si.setCont o pages' = si := by
        rw [hv, SwapInfo.setCont, ← hc, update_eq_self]
      exact hk

theorem swapCountContinued_borrow :
    ∃ r si', swapCountContinued si o countContinued = some (r, si') ∧ DigitsOnly si si' o ∧
      if r then WellFormed (slotDigits si' o) ∧
        contValue (slotDigits si' o) + 1 = contValue (slotDigits si o)
      else contValue (slotDigits si o) = 1 := by
  unfold swapCountContinued
  cases hc : si.cont (o / pageSize) with
  | none =>
    rw [slotDigits, hc] at hw
    exact hw.elim
  | some pages =>
    rw [slotDigits_of_cont hc] at hw ⊢
    obtain ⟨r, pages', he, hne, hs, hv⟩ := decrementing_spec hw
    have hrun : (decrementing (o % pageSize) pages).map (fun r => (r.1, si.setCont o r.2)) =
        some (r, si.setCont o pages') := by rw [he]; rfl
    exact ⟨r, si.setCont o pages', hrun, .setCont hp hc hne hs,
      by simpa only [slotDigits_setCont_self] using hv⟩

end

end Continued

end LinuxKernel.Swap
