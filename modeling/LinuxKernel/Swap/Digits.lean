import LinuxKernel.Base.Carry
import LinuxKernel.Swap.Model

/-! # The digits of one slot

The bytes of a slot in the continuation pages are digits in base 128, each with a
flag that says whether the next byte belongs to the number. Bytes after the last
digit are garbage. Carrying and borrowing change the number by one.
-/

namespace LinuxKernel.Swap

open List Nat

/-- The digit that a byte of a continuation page holds. -/
def digit (b : Byte) : ℕ := (b &&& swapContMax).toNat

/-- The digits of a number, up to the first byte that is not continued. -/
def active : List Byte → List ℕ
  | [] => []
  | b :: bs => digit b :: if b &&& countContinued = 0 then [] else active bs

/-- The number ends inside the list, and its last digit is not zero. -/
def WellFormed : List Byte → Prop
  | [] => False
  | b :: bs => if b &&& countContinued = 0 then b ≠ 0 else WellFormed bs

/-- The number that the bytes of a slot spell out. -/
def contValue (bs : List Byte) : ℕ := ofDigits 128 (active bs)

def digits (off : ℕ) (pages : List ContPage) : List Byte := pages.map (· off)

@[simp] theorem digits_nil (off : ℕ) : digits off [] = [] := rfl

@[simp] theorem digits_cons (off : ℕ) (map : ContPage) (pages : List ContPage) :
    digits off (map :: pages) = map off :: digits off pages := rfl

@[simp] theorem digits_append (off : ℕ) (ps qs : List ContPage) :
    digits off (ps ++ qs) = digits off ps ++ digits off qs := map_append

@[simp] theorem digits_reverse (off : ℕ) (ps : List ContPage) :
    digits off ps.reverse = (digits off ps).reverse := map_reverse

@[simp] theorem setDigit_self (off : ℕ) (b : Byte) (map : ContPage) : setDigit off b map off = b :=
  Function.update_self ..

theorem setDigit_of_ne {off off' : ℕ} (h : off' ≠ off) (b : Byte) (map : ContPage) :
    setDigit off b map off' = map off' := Function.update_of_ne h ..

theorem digits_map_setDigit (off : ℕ) (b : Byte) (pages : List ContPage) :
    digits off (pages.map (setDigit off b)) = replicate pages.length b := by
  induction pages with
  | nil => rfl
  | cons map pages ih => simp [replicate_succ, ih]

theorem digits_map_setDigit_of_ne {off off' : ℕ} (h : off' ≠ off) (b : Byte)
    (pages : List ContPage) : digits off' (pages.map (setDigit off b)) = digits off' pages := by
  induction pages with
  | nil => rfl
  | cons map pages ih => simp [setDigit_of_ne h, ih]

theorem active_replicate (k : ℕ) (b : Byte) (hb : b &&& countContinued ≠ 0) (bs : List Byte) :
    active (replicate k b ++ bs) = replicate k (digit b) ++ active bs := by
  induction k with
  | zero => rfl
  | succ k ih =>
    simp only [replicate_succ, cons_append, active, if_neg hb, ih]

theorem wellFormed_replicate (k : ℕ) (b : Byte) (hb : b &&& countContinued ≠ 0)
    (bs : List Byte) : WellFormed (replicate k b ++ bs) ↔ WellFormed bs := by
  induction k with
  | zero => rfl
  | succ k ih =>
    simp only [replicate_succ, cons_append, WellFormed, if_neg hb, ih]

theorem span_digit (off : ℕ) (b : Byte) (pages : List ContPage) :
    digits off (pages.takeWhile fun map => map off = b) =
        replicate (pages.takeWhile fun map => map off = b).length b ∧
      ∀ map rest, (pages.dropWhile fun map => map off = b) = map :: rest → map off ≠ b := by
  induction pages with
  | nil => simp
  | cons map pages ih =>
    by_cases h : map off = b
    · simpa [h, replicate_succ] using ih
    · simp only [h, decide_false, Bool.false_eq_true, not_false_eq_true, takeWhile_cons_of_neg,
        dropWhile_cons_of_neg]
      exact ⟨rfl, fun _ _ he => by obtain ⟨rfl, rfl⟩ := cons.inj he; exact h⟩

theorem digits_span (off : ℕ) (b : Byte) (pages : List ContPage) :
    digits off pages = replicate (pages.takeWhile fun map => map off = b).length b ++
      digits off (pages.dropWhile fun map => map off = b) := by
  rw [← (span_digit off b pages).1, ← digits_append, takeWhile_append_dropWhile]

section Bytes

theorem digit_succ (b : Byte) (h : b ≠ swapContMax) (h' : b ≠ swapContMax ||| countContinued) :
    digit (b + 1) = digit b + 1 := by
  revert b; decide

theorem continued_succ (b : Byte) (h : b ≠ swapContMax)
    (h' : b ≠ swapContMax ||| countContinued) :
    (b + 1 &&& countContinued = 0 ↔ b &&& countContinued = 0) ∧ b + 1 ≠ 0 := by
  revert b; decide

theorem digit_pred (b : Byte) (h : b ≠ 0) (h' : b ≠ countContinued) :
    digit b = digit (b - 1) + 1 := by
  revert b; decide

theorem continued_pred (b : Byte) (h : b ≠ 0) (h' : b ≠ countContinued) :
    b - 1 &&& countContinued = 0 ↔ b &&& countContinued = 0 := by
  revert b; decide

theorem eq_one_of_pred {b : Byte} (h : b - 1 = 0) : b = 1 := by
  revert b; decide

end Bytes

theorem wellFormed_append {bs : List Byte} (h : WellFormed bs) (cs : List Byte) :
    WellFormed (bs ++ cs) ∧ contValue (bs ++ cs) = contValue bs := by
  induction bs with
  | nil => exact h.elim
  | cons b bs ih =>
    simp only [WellFormed, contValue, cons_append, active] at h ih ⊢
    split_ifs with hb
    · exact ⟨by simpa only [if_pos hb] using h, rfl⟩
    · obtain ⟨hw, hv⟩ := ih (by simpa only [if_neg hb] using h)
      exact ⟨hw, by rw [ofDigits_cons, ofDigits_cons, hv]⟩

/-- What a carry or borrow may not touch: the list keeps its bytes at other offsets. -/
def SameElsewhere (off : ℕ) (pages pages' : List ContPage) : Prop :=
  ∀ off' ≠ off, digits off' pages' = digits off' pages

theorem incrementing_spec {off : ℕ} {pages : List ContPage}
    (h : WellFormed (digits off pages)) :
    ∃ r pages', incrementing off pages = some (r, pages') ∧ pages' ≠ [] ∧
      SameElsewhere off pages pages' ∧
      if r then WellFormed (digits off pages') ∧
        contValue (digits off pages') = contValue (digits off pages) + 1
      else pages' = pages := by
  have hspan := digits_span off (swapContMax ||| countContinued) pages
  have hne := (span_digit off (swapContMax ||| countContinued) pages).2
  have happ := takeWhile_append_dropWhile (l := pages)
    (p := fun map => map off = swapContMax ||| countContinued)
  unfold incrementing
  generalize (pages.takeWhile fun map => map off = swapContMax ||| countContinued) = full at *
  generalize (pages.dropWhile fun map => map off = swapContMax ||| countContinued) = tail at *
  cases tail with
  | nil =>
    rw [hspan, wellFormed_replicate _ _ (by decide)] at h
    exact h.elim
  | cons map rest =>
    have hmap := hne map rest rfl
    rw [hspan, wellFormed_replicate _ _ (by decide), digits_cons] at h
    by_cases hfull : map off = swapContMax
    · cases rest with
      | nil => exact ⟨false, pages, by simp [hfull], by simp [← happ], fun _ _ => rfl, rfl⟩
      | cons fresh rest =>
        refine ⟨true, _, if_pos hfull, by simp, ?_, ?_⟩
        · intro off' ho
          rw [← happ]
          simp [digits_map_setDigit_of_ne ho, setDigit_of_ne ho]
        · have hnew : digits off ((full ++ [map]).map (setDigit off countContinued) ++
              setDigit off (0 + 1) fresh :: rest) =
              replicate (full.length + 1) countContinued ++ (0 + 1) :: digits off rest := by
            rw [digits_append, digits_map_setDigit, digits_cons]
            simp
          rw [hnew, wellFormed_replicate _ _ (by decide), hspan]
          refine ⟨by simp [WellFormed, countContinued], ?_⟩
          -- the value grows from a row of full digits to a one after as many zeros
          have hold : active (replicate full.length (swapContMax ||| countContinued) ++
              digits off (map :: fresh :: rest)) = replicate (full.length + 1) 127 := by
            rw [active_replicate _ _ (by decide), digits_cons, active, hfull, replicate_succ']
            rfl
          have hone : active ((0 + 1) :: digits off rest) = [1] := by
            rw [active]; rfl
          rw [contValue, active_replicate _ _ (by decide), hone, contValue, hold]
          have hc := ofDigits_carry 128 (full.length + 1) 0 [] (by decide)
          rwa [ofDigits_append_zero] at hc
    · refine ⟨true, _, if_neg hfull, by simp, ?_, ?_⟩
      · intro off' ho
        rw [← happ]
        simp [digits_map_setDigit_of_ne ho, setDigit_of_ne ho]
      · obtain ⟨hflag, hnz⟩ := continued_succ _ hfull hmap
        rw [if_pos rfl, digits_append, digits_map_setDigit, digits_cons, setDigit_self,
          wellFormed_replicate _ _ (by decide), hspan]
        constructor
        · simp only [WellFormed, hflag] at h ⊢
          split_ifs with hb
          · exact hnz
          · simpa only [if_neg hb] using h
        · rw [contValue, active_replicate _ _ (by decide), contValue,
            active_replicate _ _ (by decide), digits_cons, active, active, digit_succ _ hfull hmap]
          simp only [hflag]
          exact ofDigits_carry 128 full.length _ _ (by decide)

theorem borrowBack_spec (off : ℕ) (count : Byte) (map : ContPage) (prev : List ContPage) :
    (borrowBack off count (map :: prev)).1 = countContinued ∧
      digits off (borrowBack off count (map :: prev)).2 =
        (swapContMax ||| count) :: replicate prev.length (swapContMax ||| countContinued) := by
  induction prev generalizing count map with
  | nil => exact ⟨rfl, by simp [borrowBack]⟩
  | cons map' prev ih =>
    obtain ⟨hc, hd⟩ := ih countContinued map'
    rw [borrowBack]
    exact ⟨hc, by rw [digits_cons, setDigit_self, hd, length_cons, replicate_succ]⟩

theorem borrowBack_elsewhere {off off' : ℕ} (h : off' ≠ off) (count : Byte)
    (prev : List ContPage) : digits off' (borrowBack off count prev).2 = digits off' prev := by
  induction prev generalizing count with
  | nil => rfl
  | cons map prev ih => rw [borrowBack, digits_cons, digits_cons, setDigit_of_ne h, ih]

/-- The value after a borrow from a row of `k` zeros in front of digit `b`. -/
theorem borrow_value {k : ℕ} {b : Byte} {bs : List Byte} (hb : b ≠ 0) (hb' : b ≠ countContinued)
    (h : WellFormed (b :: bs)) :
    let count := if b - 1 = 0 then 0 else countContinued
    let new := replicate k (swapContMax ||| countContinued) ++
      (swapContMax ||| count) :: (b - 1) :: bs
    WellFormed new ∧
      contValue new + 1 = contValue (replicate (k + 1) countContinued ++ b :: bs) := by
  have hold : active (replicate (k + 1) countContinued ++ b :: bs) =
      replicate (k + 1) 0 ++ (digit (b - 1) + 1) ::
        if b &&& countContinued = 0 then [] else active bs := by
    rw [active_replicate _ _ (by decide), active, digit_pred b hb hb']; rfl
  have hcarry := ofDigits_carry 128 (k + 1) (digit (b - 1))
    (if b &&& countContinued = 0 then [] else active bs) (by decide)
  dsimp only
  rw [contValue, contValue, hold, hcarry, wellFormed_replicate _ _ (by decide),
    active_replicate _ _ (by decide), replicate_succ', append_assoc]
  split_ifs with hz hc hc
  · -- the digit ran down to zero, so the one below it becomes the last
    refine ⟨by simp [WellFormed, swapContMax, countContinued], ?_⟩
    have hzero := ofDigits_append_zero (b := 128) (replicate k 127 ++ [127])
    rw [append_assoc] at hzero
    rw [hz]
    exact congrArg (· + 1) hzero.symm
  · exact absurd ((continued_pred b hb hb').mp (by rw [hz]; decide)) hc
  · refine ⟨?_, ?_⟩
    · simp only [WellFormed]
      rw [if_pos ((continued_pred b hb hb').mpr hc)]
      exact hz
    · rw [active, active, if_pos ((continued_pred b hb hb').mpr hc)]
      rfl
  · refine ⟨?_, ?_⟩
    · simp only [WellFormed] at h ⊢
      rw [if_neg (mt (continued_pred b hb hb').mp hc)]
      rwa [if_neg hc] at h
    · rw [active, active, if_neg (mt (continued_pred b hb hb').mp hc)]
      rfl

theorem decrementing_spec {off : ℕ} {pages : List ContPage}
    (h : WellFormed (digits off pages)) :
    ∃ r pages', decrementing off pages = some (r, pages') ∧ pages' ≠ [] ∧
      SameElsewhere off pages pages' ∧
      if r then WellFormed (digits off pages') ∧
        contValue (digits off pages') + 1 = contValue (digits off pages)
      else contValue (digits off pages) = 1 := by
  have hspan := digits_span off countContinued pages
  have hne := (span_digit off countContinued pages).2
  have happ := takeWhile_append_dropWhile (l := pages) (p := fun map => map off = countContinued)
  unfold decrementing
  generalize (pages.takeWhile fun map => map off = countContinued) = zero at *
  generalize (pages.dropWhile fun map => map off = countContinued) = tail at *
  cases tail with
  | nil =>
    rw [hspan, wellFormed_replicate _ _ (by decide)] at h
    exact h.elim
  | cons map rest =>
    have hmap := hne map rest rfl
    rw [hspan, wellFormed_replicate _ _ (by decide), digits_cons] at h
    have hnz : map off ≠ 0 := by
      intro hz
      rw [WellFormed, hz] at h
      exact h rfl
    refine ⟨_, _, if_neg hnz, by simp, ?_, ?_⟩
    · intro off' ho
      rw [← happ, digits_append, digits_reverse, borrowBack_elsewhere ho, digits_reverse,
        reverse_reverse, digits_cons, setDigit_of_ne ho, digits_append, digits_cons]
    · rw [hspan]
      rcases eq_nil_or_concat zero with rfl | ⟨front, last, rfl⟩
      · -- no zero in front: the first digit itself is decremented
        simp only [reverse_nil, borrowBack, nil_append, digits_cons, setDigit_self,
          length_nil, replicate_zero, decide_eq_true_eq]
        by_cases hz : map off - 1 = 0
        · have hone := eq_one_of_pred hz
          rw [if_pos hz, if_neg (by decide), hone, contValue, active]
          rfl
        · rw [if_neg hz]
          have hflag := continued_pred _ hnz hmap
          refine ⟨?_, ?_⟩
          · simp only [WellFormed, hflag] at h ⊢
            split_ifs with hc
            · exact hz
            · rwa [if_neg hc] at h
          · rw [contValue, contValue, active, active, digit_pred _ hnz hmap,
              ofDigits_cons, ofDigits_cons]
            simp only [hflag]
            ring
      · obtain ⟨hr, hd⟩ := borrowBack_spec off
          (if map off - 1 = 0 then 0 else countContinued) last front.reverse
        rw [length_reverse] at hd
        have hrev : (front.concat last).reverse = last :: front.reverse := by simp
        simp only [hrev, hr, digits_append, digits_reverse, hd,
          reverse_cons, reverse_replicate, digits_cons, setDigit_self,
          append_assoc, length_concat]
        exact borrow_value hnz hmap h

end LinuxKernel.Swap
