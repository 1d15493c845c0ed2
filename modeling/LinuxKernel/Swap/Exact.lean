import LinuxKernel.Base.Run
import LinuxKernel.Swap.Slot

/-! # Swap reference counts are exact

Over any sequence of calls on slots that share a swap map, the number stored for
a slot is the number of references taken on it less the number given back. No
call runs into one of the assertions of the continuation code.
-/

namespace LinuxKernel.Swap

open Function

section Bytes

/-- The low digit, the continuation flag and the cache flag of a map byte. -/
def parts (b : Byte) : ℕ × Bool × Bool :=
  (lowDigit b, b &&& countContinued ≠ 0, b &&& swapHasCache ≠ 0)

theorem join_split (b : Byte) : (b &&& ~~~swapHasCache) ||| (b &&& swapHasCache) = b := by
  revert b; decide

theorem parts_increment (b : Byte) (h : b &&& ~~~swapHasCache &&& ~~~countContinued < swapMapMax) :
    parts ((b &&& ~~~swapHasCache) + 1 ||| b &&& swapHasCache) =
        (lowDigit b + 1, (parts b).2.1, (parts b).2.2) ∧ lowDigit b < 62 := by
  revert b; decide

theorem full_cases (b : Byte) (hl : lowDigit b ≤ 62)
    (h : ¬ b &&& ~~~swapHasCache &&& ~~~countContinued < swapMapMax) :
    lowDigit b = 62 ∧ ¬ swapMapMax < b &&& ~~~swapHasCache &&& ~~~countContinued ∧
      (b &&& countContinued = 0 ∧ b &&& ~~~swapHasCache = swapMapMax ∨
        b &&& countContinued ≠ 0 ∧ b &&& ~~~swapHasCache = swapMapMax ||| countContinued) := by
  revert b; decide

theorem parts_carried (b : Byte) :
    parts (countContinued ||| b &&& swapHasCache) = (0, true, (parts b).2.2) := by
  revert b; decide

theorem parts_decrement (b : Byte) (h : b &&& ~~~swapHasCache ≠ countContinued)
    (h' : b &&& ~~~swapHasCache ≠ 0) (hl : lowDigit b ≤ 62) :
    b &&& ~~~swapHasCache ≠ swapMapShmem ∧
      b &&& ~~~swapHasCache &&& ~~~countContinued ≤ swapMapMax ∧
      parts ((b &&& ~~~swapHasCache) - 1 ||| b &&& swapHasCache) =
        (lowDigit b - 1, (parts b).2.1, (parts b).2.2) ∧ 0 < lowDigit b := by
  revert b; decide

theorem parts_borrowed (b : Byte) :
    parts (swapMapMax ||| countContinued ||| b &&& swapHasCache) = (62, true, (parts b).2.2) ∧
      parts (swapMapMax ||| b &&& swapHasCache) = (62, false, (parts b).2.2) := by
  revert b; decide

theorem parts_count (b : Byte) :
    parts (b &&& ~~~swapHasCache ||| swapHasCache) = (lowDigit b, (parts b).2.1, true) ∧
      parts (b &&& ~~~swapHasCache ||| 0) = (lowDigit b, (parts b).2.1, false) := by
  revert b; decide

theorem count_eq_continued (b : Byte) (h : b &&& ~~~swapHasCache = countContinued) :
    lowDigit b = 0 ∧ b &&& countContinued ≠ 0 := by
  revert b; decide

theorem flag_of_count {b : Byte} (h : b &&& ~~~swapHasCache &&& countContinued ≠ 0) :
    b &&& countContinued ≠ 0 := by
  revert b; decide

theorem count_eq_zero (b : Byte) (h : b &&& ~~~swapHasCache = 0) :
    lowDigit b = 0 ∧ b &&& countContinued = 0 := by
  revert b; decide

theorem eq_zero_iff (b : Byte) :
    b = 0 ↔ lowDigit b = 0 ∧ b &&& countContinued = 0 ∧ b &&& swapHasCache = 0 := by
  revert b; decide

end Bytes

variable {si si' si'' : SwapInfo} {o : ℕ} {c : Prop} {usable : Set ℕ} {refs : ℕ → ℕ}

theorem contValue_pos {bs : List Byte} (h : WellFormed bs) : 0 < contValue bs := by
  induction bs with
  | nil => exact h.elim
  | cons b bs ih =>
    rw [contValue, active, Nat.ofDigits_cons]
    rw [WellFormed] at h
    split_ifs at h ⊢ with hc
    · have hpos : 0 < digit b := by revert b; decide
      omega
    · have := ih h
      rw [contValue] at this
      omega

/-- A slot without references and cache has a zero map byte. -/
theorem swapMap_eq_zero_iff (h : SlotOk si o) :
    si.swapMap o = 0 ↔ number si o = 0 ∧ ¬ hasCache si o := by
  rw [eq_zero_iff, number, hasCache, not_not]
  constructor
  · rintro ⟨hl, hc, hh⟩
    simp [hl, hc, hh]
  · rintro ⟨hn, hh⟩
    by_cases hc : si.swapMap o &&& countContinued = 0
    · rw [if_pos hc] at hn
      exact ⟨hn, hc, hh⟩
    · have := contValue_pos (h.cont hc)
      rw [if_neg hc] at hn
      omega

/-- The effect of storing a new map byte after the continuation digits have changed. -/
theorem Effect.setMap (hd : DigitsOnly si si' o) {b : Byte} {l n : ℕ} {cont cache : Bool}
    (hb : parts b = (l, cont, cache)) (hl : l ≤ 62) (hc : cache = true ↔ c)
    (hw : cont = true → WellFormed (slotDigits si' o))
    (hn : n = l + if cont then 63 * contValue (slotDigits si' o) else 0) :
    Effect si (si'.setMap o b) o n c := by
  obtain ⟨rfl, rfl, rfl⟩ := hb
  constructor
  · exact pagesOk_congr rfl hd.pages
  · exact hd.max
  · refine ⟨by rwa [setMap_swapMap_self], fun h => ?_⟩
    rw [setMap_swapMap_self] at h
    exact hw (decide_eq_true h)
  · rw [Swap.number, slotDigits_congr (setMap_cont b), hn]
    by_cases h : b &&& countContinued = 0 <;> simp
  · rw [hasCache, setMap_swapMap_self, ← hc, decide_eq_true_eq]
  · intro o' ho
    refine ⟨?_, [], ?_⟩
    · rw [setMap_swapMap_of_ne ho, hd.map]
    · rw [slotDigits_congr (setMap_cont b), hd.others o' ho, List.append_nil]

theorem Effect.congr {n : ℕ} (h : Effect si si' o n c) (hm : si''.swapMap = si'.swapMap)
    (hc : si''.cont = si'.cont) (hx : si''.max = si'.max) : Effect si si'' o n c := by
  have hd : ∀ o', slotDigits si'' o' = slotDigits si' o' := slotDigits_congr hc
  constructor
  · exact pagesOk_congr hc h.pages
  · rw [hx, h.max]
  · exact ⟨by rw [hm]; exact h.slot.low, by rw [hm, hd]; exact h.slot.cont⟩
  · rw [Swap.number, hm, hd]; exact h.number
  · rw [hasCache, hm]; exact h.cache
  · intro o' ho
    obtain ⟨hm', bs, hd'⟩ := h.others o' ho
    exact ⟨by rw [hm, hm'], bs, by rw [hd, hd']⟩

theorem setMap_self : si.setMap o (si.swapMap o) = si := by
  rw [SwapInfo.setMap, update_eq_self]

theorem number_eq (si : SwapInfo) (o : ℕ) : number si o = lowDigit (si.swapMap o) +
    if (parts (si.swapMap o)).2.1 then 63 * contValue (slotDigits si o) else 0 := by
  rw [number]
  by_cases h : si.swapMap o &&& countContinued = 0 <;> simp [parts]

theorem hasCache_iff (si : SwapInfo) (o : ℕ) :
    (parts (si.swapMap o)).2.2 = true ↔ hasCache si o := decide_eq_true_iff

theorem SlotOk.cont' (h : SlotOk si o) (hc : (parts (si.swapMap o)).2.1 = true) :
    WellFormed (slotDigits si o) := h.cont (of_decide_eq_true hc)

/-- The end of `swap_entry_free`: the byte is stored, and a zero byte releases the slot. -/
theorem Effect.finish {b : Byte} {n : ℕ} (h : Effect si (si'.setMap o b) o n c) :
    Effect si (if b = 0 then (si'.setMap o b).release o else si'.setMap o b) o n c := by
  split_ifs
  · exact h.congr rfl rfl rfl
  · exact h

section Calls

variable (hp : PagesOk si) (hs : SlotOk si o)
include hp hs

theorem Effect.refl : Effect si si o (Swap.number si o) (hasCache si o) :=
  ⟨hp, rfl, hs, rfl, Iff.rfl, fun _ _ => ⟨rfl, [], (List.append_nil _).symm⟩⟩

theorem Effect.rejoin :
    Effect si (si.setMap o (si.swapMap o &&& ~~~swapHasCache ||| si.swapMap o &&& swapHasCache)) o
      (Swap.number si o) (hasCache si o) := by
  rw [join_split, setMap_self]
  exact .refl hp hs

/-- A duplication whose low digit is full, in terms of what the carry reports. -/
theorem carry_effect {count : Byte} {k : ℕ}
    (hcount : si.swapMap o &&& ~~~swapHasCache = count) (hk : 63 * k = number si o + 1)
    (h : ∃ r si', swapCountContinued si o count = some (r, si') ∧ DigitsOnly si si' o ∧
      if r then WellFormed (slotDigits si' o) ∧ contValue (slotDigits si' o) = k else si' = si) :
    ∃ err si', (match swapCountContinued si o count with
        | none => none
        | some (true, si') =>
          some (none, si'.setMap o (countContinued ||| si.swapMap o &&& swapHasCache))
        | some (false, si') =>
          some (some Errno.enomem, si'.setMap o (count ||| si.swapMap o &&& swapHasCache))) =
          some (err, si') ∧
      Effect si si' o (if err = none then number si o + 1 else number si o) (hasCache si o) := by
  obtain ⟨r, si', he, hd, hv⟩ := h
  rw [he]
  cases r with
  | true =>
    refine ⟨_, _, rfl, .setMap hd (parts_carried _) (by decide) (hasCache_iff si o)
      (fun _ => hv.1) ?_⟩
    rw [if_pos rfl, if_pos rfl, hv.2, hk, zero_add]
  | false =>
    obtain rfl : si' = si := hv
    subst hcount
    refine ⟨_, _, rfl, ?_⟩
    exact .rejoin hp hs

theorem swapDuplicate_effect :
    ∃ err si', swapDuplicate si o 1 = some (err, si') ∧
      Effect si si' o (if err = none then number si o + 1 else number si o) (hasCache si o) := by
  unfold swapDuplicate
  by_cases hmax : si.max ≤ o
  · exact ⟨_, _, if_pos hmax, .refl hp hs⟩
  rw [if_neg (by decide : ¬ 1 = swapHasCache)]
  split_ifs with hu hlt hgt
  · -- room in the low digit
    obtain ⟨hpart, hlow⟩ := parts_increment _ hlt
    refine ⟨_, _, rfl, .setMap (.refl hp) hpart hlow (hasCache_iff si o) hs.cont' ?_⟩
    rw [if_pos rfl, number_eq]
    omega
  · exact absurd hgt (full_cases _ hs.low hlt).2.1
  · obtain ⟨hlow, -, ⟨hc, hcount⟩ | ⟨hc, hcount⟩⟩ := full_cases _ hs.low hlt
    · rw [hcount]
      refine carry_effect hp hs hcount ?_ (swapCountContinued_first hp)
      rw [number, if_pos hc, hlow]
    · rw [hcount]
      refine carry_effect hp hs hcount ?_ (swapCountContinued_carry hp (hs.cont hc))
      rw [number, if_neg hc, hlow]
      ring
  · exact ⟨_, _, rfl, .rejoin hp hs⟩

theorem setCache_effect :
    ∃ err si', swapDuplicate si o swapHasCache = some (err, si') ∧
      Effect si si' o (number si o) (hasCache si o ∨ err = none) := by
  unfold swapDuplicate
  by_cases hmax : si.max ≤ o
  · refine ⟨_, _, if_pos hmax, ?_⟩
    simpa using Effect.refl hp hs
  rw [if_pos rfl]
  split_ifs with hset hcache
  · refine ⟨_, _, rfl, .setMap (.refl hp) (parts_count _).1 hs.low (by simp) hs.cont'
      (number_eq si o)⟩
  · refine ⟨_, _, rfl, ?_⟩
    simpa using Effect.rejoin hp hs
  · refine ⟨_, _, rfl, ?_⟩
    simpa using Effect.rejoin hp hs

theorem swapEntryFree_effect (hn : 0 < number si o) :
    ∃ usage si', swapEntryFree si o 1 = some (usage, si') ∧ usage = si'.swapMap o ∧
      Effect si si' o (number si o - 1) (hasCache si o) := by
  have hread : ∀ (t : SwapInfo) (b : Byte),
      b = (if b = 0 then (t.setMap o b).release o else t.setMap o b).swapMap o := by
    intro t b
    split_ifs <;> simp
  unfold swapEntryFree
  dsimp only
  by_cases hcont : si.swapMap o &&& ~~~swapHasCache = countContinued
  · obtain ⟨hlow, hc⟩ := count_eq_continued _ hcont
    obtain ⟨r, t, he, hd, hv⟩ := swapCountContinued_borrow hp (hs.cont hc)
    have hfree : freeCount si o (si.swapMap o &&& ~~~swapHasCache) =
        some (if r then swapMapMax ||| countContinued else swapMapMax, t) := by
      rw [hcont, freeCount, if_neg (by decide), he]
      rfl
    rw [hfree]
    refine ⟨_, _, rfl, hread _ _, .finish ?_⟩
    obtain ⟨hyes, hno⟩ := parts_borrowed (si.swapMap o)
    cases r with
    | true =>
      refine .setMap hd hyes (by decide) (hasCache_iff si o) (fun _ => hv.1) ?_
      rw [if_pos rfl, number, if_neg hc, ← hv.2]
      omega
    | false =>
      refine .setMap hd hno (by decide) (hasCache_iff si o) (fun h => absurd h (by decide)) ?_
      rw [if_neg (by decide), number, if_neg hc, hlow, hv]
  · have hpos : si.swapMap o &&& ~~~swapHasCache ≠ 0 := by
      intro hz
      obtain ⟨hl, hc⟩ := count_eq_zero _ hz
      rw [number, hl, if_pos hc] at hn
      exact absurd hn (by decide)
    obtain ⟨hsh, hle, hpart, hlow⟩ := parts_decrement _ hcont hpos hs.low
    have hfree : freeCount si o (si.swapMap o &&& ~~~swapHasCache) =
        some ((si.swapMap o &&& ~~~swapHasCache) - 1, si) := by
      rw [freeCount, if_neg hsh, if_pos hle, if_neg hcont]
    rw [hfree]
    refine ⟨_, _, rfl, hread _ _, .finish ?_⟩
    refine .setMap (.refl hp) hpart ?_ (hasCache_iff si o) hs.cont' ?_
    · have := hs.low
      omega
    · rw [number_eq]
      omega

theorem clearCache_effect (hc : hasCache si o) :
    ∃ usage si', swapEntryFree si o swapHasCache = some (usage, si') ∧ usage = si'.swapMap o ∧
      Effect si si' o (number si o) False := by
  unfold swapEntryFree
  rw [if_pos rfl, if_neg hc]
  refine ⟨_, _, rfl, ?_, .finish ?_⟩
  · split_ifs <;> simp
  · exact .setMap (.refl hp) (parts_count _).2 hs.low (by simp) hs.cont' (number_eq si o)

/-- A fresh page goes to the end of the list, so it only adds garbage to every slot. -/
theorem Effect.appendPage {pages : List ContPage} (page : ContPage)
    (hd : (si.cont (o / pageSize)).getD [] = pages) :
    Effect si (si.setCont o (pages ++ [page])) o (Swap.number si o) (hasCache si o) := by
  have hu : ∀ o', Untouched si (si.setCont o (pages ++ [page])) o' := by
    intro o'
    refine ⟨rfl, ?_⟩
    by_cases hq : o' / pageSize = o / pageSize
    · refine ⟨[page (o' % pageSize)], ?_⟩
      rw [slotDigits, slotDigits, hq, hd, setCont_cont_self, Option.getD_some, digits_append,
        digits_cons, digits_nil]
    · exact ⟨[], by rw [slotDigits, slotDigits, setCont_cont_of_ne hq, List.append_nil]⟩
  obtain ⟨hs', hn, hc⟩ := (hu o).keeps hs
  exact ⟨pagesOk_setCont hp (by simp), rfl, hs', hn, hc, fun o' _ => hu o'⟩

theorem addSwapCountContinuation_effect
    (page : Option ContPage) :
    ∃ err si', addSwapCountContinuation si o page = some (err, si') ∧
      Effect si si' o (number si o) (hasCache si o) := by
  unfold addSwapCountContinuation
  by_cases hfree : si.max ≤ o ∨ si.swapMap o = 0
  · exact ⟨_, _, if_pos hfree, .refl hp hs⟩
  rw [if_neg hfree]
  by_cases hfull : si.swapMap o &&& ~~~swapHasCache &&& ~~~countContinued ≠ swapMapMax
  · exact ⟨_, _, if_pos hfull, .refl hp hs⟩
  rw [if_neg hfull]
  cases page with
  | none => exact ⟨_, _, rfl, .refl hp hs⟩
  | some page =>
    cases hc : si.cont (o / pageSize) with
    | none =>
      -- a slot that is continued has continuation pages, so the assertion holds
      have hflag : si.swapMap o &&& ~~~swapHasCache &&& countContinued = 0 := by
        by_contra hne
        have hw := hs.cont (flag_of_count hne)
        rw [slotDigits, hc] at hw
        exact hw
      dsimp only
      rw [if_pos hflag]
      have hd : (si.cont (o / pageSize)).getD [] = [] := by rw [hc]; rfl
      exact ⟨_, _, rfl, .appendPage hp hs page hd⟩
    | some pages =>
      dsimp only
      split_ifs with hused
      · exact ⟨_, _, rfl, .appendPage hp hs page (by rw [hc]; rfl)⟩
      · exact ⟨_, _, rfl, .refl hp hs⟩

end Calls

theorem takeSlot_effect (hp : PagesOk si) : Effect si (takeSlot si o swapHasCache) o 0 True := by
  have hparts : parts swapHasCache = (0, false, true) := rfl
  have h : Effect si (si.setMap o swapHasCache) o 0 True :=
    .setMap (.refl hp) hparts (by decide) (by simp) (by simp) rfl
  apply h.congr <;> unfold takeSlot <;> dsimp only <;> split_ifs <;> rfl

/-! ## Runs of calls -/

/-- The calls on a swap map. A slot is taken with the cache flag set, as `get_swap_page` does. -/
inductive Op where
  | take (o : ℕ)
  | duplicate (o : ℕ)
  | free (o : ℕ)
  | setCache (o : ℕ)
  | clearCache (o : ℕ)
  | addContinuation (o : ℕ) (page : Option ContPage)

inductive Ret where
  | done
  | err (e : Option Errno)
  | usage (b : Byte)

def Op.slot : Op → ℕ
  | take o | duplicate o | free o | setCache o | clearCache o | addContinuation o _ => o

/-- Carry out a call; `none` is a failed assertion. -/
def exec (si : SwapInfo) : Op → Option (Ret × SwapInfo)
  | .take o => some (.done, takeSlot si o swapHasCache)
  | .duplicate o => (swapDuplicate si o 1).map fun r => (.err r.1, r.2)
  | .free o => (swapEntryFree si o 1).map fun r => (.usage r.1, r.2)
  | .setCache o => (swapDuplicate si o swapHasCache).map fun r => (.err r.1, r.2)
  | .clearCache o => (swapEntryFree si o swapHasCache).map fun r => (.usage r.1, r.2)
  | .addContinuation o page => (addSwapCountContinuation si o page).map fun r => (.err r.1, r.2)

/-- What the callers promise: a reference that is given back exists, the cache
flag that is cleared is set, and a slot that is taken is free. -/
def Legal (si : SwapInfo) (refs : ℕ → ℕ) : Op → Prop
  | .take o => si.swapMap o = 0
  | .free o => 0 < refs o
  | .clearCache o => hasCache si o
  | _ => True

/-- Count a successful duplication up and a free down. -/
def account (refs : ℕ → ℕ) : Op → Ret → ℕ → ℕ
  | .duplicate o, .err none => update refs o (refs o + 1)
  | .free o, _ => update refs o (refs o - 1)
  | _, _ => refs

/-- One call on a usable slot, together with the ledger of references. -/
def Step (usable : Set ℕ) (s : SwapInfo × (ℕ → ℕ)) (e : Op × Ret) (t : SwapInfo × (ℕ → ℕ)) : Prop :=
  e.1.slot ∈ usable ∧ Legal s.1 s.2 e.1 ∧ exec s.1 e.1 = some (e.2, t.1) ∧ t.2 = account s.2 e.1 e.2

def Fresh (usable : Set ℕ) (si : SwapInfo) : Prop := PagesOk si ∧ ∀ o ∈ usable, si.swapMap o = 0

/-- Every usable slot is in order and stores the number of its references. -/
structure Exact (usable : Set ℕ) (s : SwapInfo × (ℕ → ℕ)) : Prop where
  pages : PagesOk s.1
  slots : ∀ o ∈ usable, SlotOk s.1 o ∧ number s.1 o = s.2 o

theorem exact_of_fresh (h : Fresh usable si) : Exact usable (si, fun _ => 0) := by
  refine ⟨h.1, fun o ho => ?_⟩
  have hz := h.2 o ho
  constructor
  · constructor
    · dsimp only; rw [hz]; decide
    · intro hc; dsimp only at hc; rw [hz] at hc; exact absurd rfl hc
  · dsimp only; rw [number, hz]; rfl

/-- The specification of every call, in one place. -/
theorem exec_effect {op : Op} (hp : PagesOk si) (hs : SlotOk si op.slot)
    (hr : number si op.slot = refs op.slot) (hl : Legal si refs op) :
    ∃ ret si' c, exec si op = some (ret, si') ∧
      Effect si si' op.slot (account refs op ret op.slot) c ∧
      (ret = .err (some .enomem) → number si' op.slot = number si op.slot) ∧
      ∀ usage, ret = .usage usage → usage = si'.swapMap op.slot := by
  cases op <;> simp only [Op.slot] at hs hr ⊢
  case take o =>
    have hz : refs o = 0 := by rw [← hr]; exact ((swapMap_eq_zero_iff hs).mp hl).1
    refine ⟨_, _, True, rfl, ?_, nofun, nofun⟩
    simpa only [account, hz] using takeSlot_effect hp
  case duplicate o =>
    obtain ⟨err, si', he, hf⟩ := swapDuplicate_effect hp hs
    refine ⟨.err err, si', hasCache si o, by rw [exec, he]; rfl, ?_, ?_, nofun⟩
    · rw [hr] at hf
      cases err <;> simpa [account] using hf
    · intro h
      obtain rfl : err = some .enomem := Ret.err.inj h
      exact hf.number
  case free o =>
    obtain ⟨usage, si', he, hu, hf⟩ := swapEntryFree_effect hp hs (by rw [hr]; exact hl)
    refine ⟨.usage usage, si', hasCache si o, by rw [exec, he]; rfl, ?_, nofun, ?_⟩
    · rw [hr] at hf
      simpa [account] using hf
    · rintro _ ⟨⟩
      exact hu
  case setCache o =>
    obtain ⟨err, si', he, hf⟩ := setCache_effect hp hs
    rw [hr] at hf
    exact ⟨.err err, si', _, by rw [exec, he]; rfl, hf, fun _ => hf.number.trans hr.symm, nofun⟩
  case clearCache o =>
    obtain ⟨usage, si', he, hu, hf⟩ := clearCache_effect hp hs hl
    rw [hr] at hf
    refine ⟨.usage usage, si', _, by rw [exec, he]; rfl, hf, nofun, ?_⟩
    rintro _ ⟨⟩
    exact hu
  case addContinuation o page =>
    obtain ⟨err, si', he, hf⟩ := addSwapCountContinuation_effect hp hs page
    rw [hr] at hf
    exact ⟨.err err, si', _, by rw [exec, he]; rfl, hf, fun _ => hf.number.trans hr.symm, nofun⟩

theorem account_of_ne {op : Op} {ret : Ret} {o : ℕ} (h : o ≠ op.slot) :
    account refs op ret o = refs o := by
  unfold account
  split
  · exact update_of_ne h ..
  · exact update_of_ne h ..
  · rfl

theorem Exact.step {s t : SwapInfo × (ℕ → ℕ)} {e : Op × Ret} (h : Exact usable s)
    (hst : Step usable s e t) : Exact usable t := by
  obtain ⟨hu, hl, he, ht⟩ := hst
  obtain ⟨hs, hr⟩ := h.slots _ hu
  obtain ⟨ret, si', c, he', hf, -, -⟩ := exec_effect h.pages hs hr hl
  obtain ⟨rfl, rfl⟩ : e.2 = ret ∧ t.1 = si' := by
    rw [he] at he'
    simpa using he'
  refine ⟨hf.pages, fun o ho => ?_⟩
  by_cases hq : o = e.1.slot
  · subst hq
    exact ⟨hf.slot, by rw [hf.number, ht]⟩
  · obtain ⟨hs', hn', -⟩ := (hf.others o hq).keeps (h.slots o ho).1
    exact ⟨hs', by rw [hn', (h.slots o ho).2, ht, account_of_ne hq]⟩

/-- Over every run of calls the stored numbers are the reference counts. From
every state reached, a further call meets no failed assertion, changes no other
slot's number, keeps the number when it fails for want of memory, and reports a
slot as free exactly when no reference and no cache flag is left. -/
theorem swap_counts_exact {usable : Set ℕ} {si₀ si : SwapInfo} {refs : ℕ → ℕ}
    {trace : List (Op × Ret)} (hfresh : Fresh usable si₀)
    (hrun : Run (Step usable) (si₀, fun _ => 0) trace (si, refs)) :
    (∀ o ∈ usable, number si o = refs o) ∧
    ∀ op : Op, op.slot ∈ usable → Legal si refs op →
      ∃ ret si', exec si op = some (ret, si') ∧
        number si' op.slot = account refs op ret op.slot ∧
        (∀ o ∈ usable, o ≠ op.slot → number si' o = number si o) ∧
        (ret = .err (some .enomem) → number si' op.slot = number si op.slot) ∧
        (∀ usage, ret = .usage usage →
          (usage = 0 ↔ number si' op.slot = 0 ∧ ¬ hasCache si' op.slot)) := by
  have hex : Exact usable (si, refs) := hrun.invariant Exact.step (exact_of_fresh hfresh)
  refine ⟨fun o ho => (hex.slots o ho).2, fun op hu hl => ?_⟩
  obtain ⟨hs, hr⟩ := hex.slots _ hu
  obtain ⟨ret, si', c, he, hf, hm, hus⟩ := exec_effect hex.pages hs hr hl
  refine ⟨ret, si', he, hf.number, fun o ho hq => ?_, hm, fun usage h => ?_⟩
  · exact ((hf.others o hq).keeps (hex.slots o ho).1).2.1
  · rw [hus usage h]
    exact swapMap_eq_zero_iff hf.slot

def emptyDevice : SwapInfo where
  max := 8
  pages := 8
  swapMap _ := 0
  cont _ := none
  lowestBit := 0
  highestBit := 7
  inusePages := 0
  nrSwapPages := 8

/-- A slot that was taken for the swap cache, with some references. -/
def cached (k : ℕ) : SwapInfo :=
  (takeSlot emptyDevice 3 swapHasCache).setMap 3 (BitVec.ofNat 8 (0x40 + k))

theorem cached_duplicate {k : ℕ} (hk : k < 62) :
    swapDuplicate (cached k) 3 1 = some (none, cached (k + 1)) := by
  have hbyte : ∀ k < 62, BitVec.ofNat 8 (0x40 + k) &&& swapHasCache = swapHasCache ∧
      BitVec.ofNat 8 (0x40 + k) &&& ~~~swapHasCache &&& ~~~countContinued < swapMapMax ∧
      ((BitVec.ofNat 8 (0x40 + k) &&& ~~~swapHasCache) + 1 ||| swapHasCache) =
        BitVec.ofNat 8 (0x40 + (k + 1)) := by decide
  obtain ⟨hcache, hlt, hnext⟩ := hbyte k hk
  have hmap : (cached k).swapMap 3 = BitVec.ofNat 8 (0x40 + k) := by
    simp [cached, SwapInfo.setMap]
  have hmax : ¬(cached k).max ≤ 3 := by simp [cached, SwapInfo.setMap, takeSlot, emptyDevice]
  have hset : (cached k).setMap 3 (BitVec.ofNat 8 (0x40 + (k + 1))) = cached (k + 1) := by
    simp only [cached, SwapInfo.setMap, update_idem]
  rw [swapDuplicate, if_neg hmax, hmap, hcache]
  simp only [if_neg (show (1 : Byte) ≠ swapHasCache by decide), hlt, if_true,
    show swapHasCache ≠ 0 by decide, ne_eq, not_false_eq_true, or_true, hnext, hset]

theorem run_duplicates {k : ℕ} (hk : k ≤ 62) :
    Run (Step {3}) (cached 0, fun _ => 0) (List.replicate k (.duplicate 3, .err none))
      (cached k, update (fun _ => 0) 3 k) := by
  induction k with
  | zero =>
    rw [update_eq_self_iff.mpr rfl]
    exact .nil _
  | succ k ih =>
    rw [List.replicate_succ']
    refine (ih (by omega)).append (.cons ⟨rfl, trivial, ?_, ?_⟩ (.nil _))
    · rw [exec, cached_duplicate (by omega)]
      rfl
    · simp [account]

/-- A page with any contents is attached for the 63rd reference, which is carried into it. -/
theorem swap_counts_exact_emptyDevice :
    ∃ trace si refs, Run (Step {3}) (emptyDevice, fun _ => 0) trace (si, refs) ∧
      (∃ page, si.cont 0 = some [page] ∧ page 3 = 1) ∧ refs 3 = 63 ∧ number si 3 = 63 := by
  let page : ContPage := fun _ => 0x55
  let refs : ℕ → ℕ := update (fun _ => 0) 3 62
  let s₁ := (cached 62).setCont 3 [page]
  let s₂ := (s₁.setCont 3 [setDigit 3 1 page]).setMap 3 0xc0
  have htake : Step {3} (emptyDevice, fun _ => 0) (.take 3, .done) (cached 0, fun _ => 0) := by
    refine ⟨rfl, rfl, ?_, rfl⟩
    simp only [exec, cached, takeSlot, SwapInfo.setMap, update_idem]
    rfl
  have hattach : addSwapCountContinuation (cached 62) 3 (some page) = some (none, s₁) := rfl
  have hcarry : swapDuplicate s₁ 3 1 = some (none, s₂) := by
    simp [s₁, s₂, swapDuplicate, swapCountContinued, cached, takeSlot, emptyDevice,
      SwapInfo.setMap, SwapInfo.setCont, swapHasCache, swapMapMax, countContinued, pageSize]
  have hstep₁ : Step {3} (cached 62, refs) (.addContinuation 3 page, .err none) (s₁, refs) :=
    ⟨rfl, trivial, by rw [exec, hattach]; rfl, rfl⟩
  have hstep₂ : Step {3} (s₁, refs) (.duplicate 3, .err none) (s₂, update refs 3 63) :=
    ⟨rfl, trivial, by rw [exec, hcarry]; rfl, rfl⟩
  have hrun := Run.cons htake ((run_duplicates le_rfl).append
    (.cons hstep₁ (.cons hstep₂ (.nil _))))
  have hfresh : Fresh {3} emptyDevice := by
    refine ⟨fun i pages h => ?_, fun _ _ => rfl⟩
    cases h
  exact ⟨_, _, _, hrun, ⟨_, rfl, rfl⟩, rfl, (swap_counts_exact hfresh hrun).1 3 rfl⟩

end LinuxKernel.Swap
