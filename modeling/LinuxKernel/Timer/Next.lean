import Mathlib.Data.BitVec
import LinuxKernel.Timer.Exact
import LinuxKernel.Timer.Search

/-! # The cached next expiry

`get_next_timer_interrupt` uses the cached `next_timer` while that lies ahead, and
searches the wheel otherwise. The result is not later than any timer that is not
deferrable, in every run in which such timers are enqueued less than a lap of the
last vector ahead and the cached value does not fall back too far.
-/

namespace LinuxKernel.Timer

variable {c : Config} {b b' : Base} {i : ℕ} {e : Jiffies} {a : Act} {as : List Act}

/-- The steps for which the wrapped comparisons and the bucket order are exact. -/
def Punctual (c : Config) (b : Base) : Act → Prop
  | .mod i e _ => (b.timer i).deferrable = false →
      -maxPast c ≤ offset b.timerJiffies e ∧ offset b.timerJiffies e < 2 ^ c.shift 4
  | .tick => -maxPast c < offset b.timerJiffies b.nextTimer
  | _ => True

def PunctualStep (c : Config) (b : Base) (a : Act) (b' : Base) : Prop :=
  Step c b a b' ∧ Punctual c b a

theorem Punctual.inLap (h : Punctual c b a) : InLap c b a := by
  cases a with
  | mod i e po =>
    intro hd
    obtain ⟨-, hlt⟩ := h hd
    have hcast : ((2 ^ c.shift 4 : ℕ) : ℤ) = 2 ^ c.shift 4 := by push_cast; rfl
    obtain ⟨hpos, -⟩ := shift_four_bounds c
    rw [ticksUntil_eq_offset]
    omega
  | _ => trivial

/-- What the cached next expiry says about the timers on the wheel. A timer on the work
list was due in the last iteration. -/
structure Cache (c : Config) (b : Base) : Prop where
  past : ∀ v, ∀ i ∈ b.vec v, (b.timer i).deferrable = false →
    -maxPast c ≤ offset b.timerJiffies (b.timer i).expires
  stale : -maxPast c ≤ offset b.timerJiffies b.nextTimer
  next : 0 < offset b.timerJiffies b.nextTimer → ∀ v, ∀ i ∈ b.vec v,
    (b.timer i).deferrable = false → 0 ≤ offset b.timerJiffies (b.timer i).expires →
      offset b.timerJiffies b.nextTimer ≤ offset b.timerJiffies (b.timer i).expires
  work : ∀ i ∈ b.workList, ticksUntil (b.timerJiffies - 1) (b.timer i).expires = 0

theorem maxPast_pos (c : Config) : 0 < maxPast c := by
  obtain ⟨-, hle⟩ := shift_four_bounds c
  unfold maxPast
  omega

theorem Cache.remove (h : Cache c b) (ht : Touch i b b') (hu : Unlinked b' i)
    (hn : b'.nextTimer = b.nextTimer ∨ b'.nextTimer = b.timerJiffies) : Cache c b' := by
  have hvec : ∀ v, ∀ j ∈ b'.vec v, j ∈ b.vec v ∧ b'.timer j = b.timer j := by
    intro v j hj
    have hne : j ≠ i := by
      rintro rfl
      exact hu.2 v hj
    exact ⟨(ht.vec j hne v).mp hj, ht.timer j hne⟩
  constructor
  · intro v j hj hd
    obtain ⟨hj, he⟩ := hvec v j hj
    rw [he] at hd
    rw [ht.timerJiffies, he]
    exact h.past v j hj hd
  · rw [ht.timerJiffies]
    rcases hn with hn | hn
    · rw [hn]
      exact h.stale
    · rw [hn, offset_self]
      exact neg_nonpos.mpr (maxPast_pos c).le
  · rw [ht.timerJiffies]
    rcases hn with hn | hn
    · rw [hn]
      intro hpos v j hj hd hle
      obtain ⟨hj, he⟩ := hvec v j hj
      rw [he] at hd hle ⊢
      exact h.next hpos v j hj hd hle
    · rw [hn, offset_self]
      intro hpos
      exact absurd hpos (lt_irrefl 0)
  · intro j hj
    have hne : j ≠ i := by
      rintro rfl
      exact hu.1 hj
    rw [ht.timerJiffies, ht.timer j hne]
    exact h.work j ((ht.workList j hne).mp hj)

theorem enqueue_nextTimer : (enqueue c b i e).nextTimer =
    if timeBefore e b.nextTimer ∧ (b.timer i).deferrable = false then e else b.nextTimer := by
  unfold enqueue Base.setTimer
  simp only [Function.update_self]
  split_ifs <;> rfl

theorem enqueue_deferrable : ((enqueue c b i e).timer i).deferrable = (b.timer i).deferrable := by
  unfold enqueue Base.setTimer
  dsimp only
  split_ifs <;> simp

section

variable (h : Cache c b)
include h

/-- Enqueueing lowers the cached value to the new expiry when that is earlier. -/
theorem Cache.enqueue (hu : Unlinked b i)
    (hw : (b.timer i).deferrable = false → -maxPast c ≤ offset b.timerJiffies e ∧
      offset b.timerJiffies e < 2 ^ c.shift 4) :
    Cache c (enqueue c b i e) := by
  have ht : Touch i b (Timer.enqueue c b i e) := touch_enqueue
  have hvec : ∀ v, ∀ j ∈ (Timer.enqueue c b i e).vec v, j = i ∨ j ≠ i ∧ j ∈ b.vec v := by
    intro v j hj
    by_cases hne : j = i
    · exact .inl hne
    · exact .inr ⟨hne, (ht.vec j hne v).mp hj⟩
  obtain ⟨hpos, hle⟩ := shift_four_bounds c
  have hstale := h.stale
  have hbnd := offset_bounds b.timerJiffies b.nextTimer
  -- within the window the wrapped comparison of the new expiry is exact
  have hbefore : (b.timer i).deferrable = false → 0 ≤ offset b.timerJiffies e →
      (timeBefore e b.nextTimer = true ↔
        offset b.timerJiffies e < offset b.timerJiffies b.nextTimer) := by
    intro hd hge
    obtain ⟨-, hlt⟩ := hw hd
    unfold maxPast at hstale
    exact timeBefore_iff _ (by omega) (by omega)
  constructor
  · intro v j hj hd
    rw [ht.timerJiffies]
    rcases hvec v j hj with rfl | ⟨hne, hj⟩
    · rw [enqueue_timer.1]
      rw [enqueue_deferrable] at hd
      exact (hw hd).1
    · rw [ht.timer j hne] at hd ⊢
      exact h.past v j hj hd
  · rw [ht.timerJiffies, enqueue_nextTimer]
    split_ifs with hlow
    · exact (hw hlow.2).1
    · exact hstale
  · rw [ht.timerJiffies, enqueue_nextTimer]
    intro hnext v j hj hd hge
    rcases hvec v j hj with rfl | ⟨hne, hj⟩
    · rw [enqueue_timer.1] at hge ⊢
      rw [enqueue_deferrable] at hd
      split_ifs with hlow
      · exact le_rfl
      · rw [hbefore hd hge] at hlow
        simp only [hd, and_true] at hlow
        omega
    · rw [ht.timer j hne] at hd hge ⊢
      split_ifs at hnext ⊢ with hlow
      · have hlt := (hbefore hlow.2 hnext.le).mp hlow.1
        exact hlt.le.trans (h.next (hnext.trans hlt) v j hj hd hge)
      · exact h.next hnext v j hj hd hge
  · intro j hj
    rw [enqueue_workList] at hj
    have hne : j ≠ i := by
      rintro rfl
      exact hu.1 hj
    rw [ht.timerJiffies, ht.timer j hne]
    exact h.work j hj

/-- A tick brings everything one step nearer and moves the due timers to the work list. -/
theorem Cache.tick (hinv : Inv c True b)
    (hs : -maxPast c < offset b.timerJiffies b.nextTimer) : Cache c (startIteration c b) := by
  obtain ⟨-, -, hj, hn, ht, hwork, hvec⟩ := startIteration_spec hinv.lists hinv.placed
  have hpast := maxPast_pos c
  have hlap := shift_four_bounds c
  have hstep : ∀ v, ∀ i ∈ (startIteration c b).vec v, (∃ v, i ∈ b.vec v) ∧
      0 < offset b.timerJiffies (b.timer i).expires ∧
      offset (b.timerJiffies + 1) (b.timer i).expires =
        offset b.timerJiffies (b.timer i).expires - 1 := by
    intro v i hi
    obtain ⟨hv, hne⟩ := (hvec i).mp ⟨v, hi⟩
    rw [ticksUntil_eq_offset] at hne
    exact ⟨hv, by omega, offset_succ (by omega)⟩
  have hnext : offset (b.timerJiffies + 1) b.nextTimer = offset b.timerJiffies b.nextTimer - 1 := by
    apply offset_succ
    unfold maxPast at hs
    omega
  constructor
  · intro v i hi _
    obtain ⟨-, hpos, heq⟩ := hstep v i hi
    rw [hj, ht]
    omega
  · rw [hj, hn]
    omega
  · rw [hj, hn, ht]
    intro hlt v i hi hd _
    obtain ⟨⟨w, hw⟩, hpos, heq⟩ := hstep v i hi
    have := h.next (by omega) w i hw hd hpos.le
    omega
  · intro i hi
    obtain ⟨-, hz⟩ := (hwork i).mp hi
    rw [hj, ht, BitVec.add_sub_cancel]
    exact hz

theorem Cache.query (hinv : Inv c True b) : Cache c (getNextTimerInterrupt c b) := by
  have hs : Searchable c b := ⟨hinv.placed, h.past⟩
  have hearly := nextTimerInterrupt_earliest hs
  unfold getNextTimerInterrupt
  split_ifs
  · refine ⟨h.past, (hearly.toCandidate.window hs).1, fun hpos v i hi hd hge => ?_, h.work⟩
    have hle := hearly.least v i hi hd
    simp only [left, ticksUntil_eq_offset] at hle
    dsimp only at hpos hge ⊢
    omega
  · exact h

theorem Cache.step (hinv : Inv c True b) (hs : Step c b a b') (hp : Punctual c b a) :
    Cache c b' := by
  cases hs with
  | mod i e po =>
    rcases modTimer_cases hinv i e po with ⟨heq, -⟩ | ⟨b₁, heq, ht, hu, -, hi, hn⟩ <;> rw [heq]
    · exact h
    · apply (h.remove ht hu hn).enqueue hu
      rw [hi, ht.timerJiffies]
      exact hp
  | del i =>
    unfold delTimer
    split_ifs
    · refine h.remove ((touch_detachPending b i).trans (touch_setTimer ..)) ?_
        detachPending_nextTimer
      exact unlinked_detachPending b i
    · exact h
  | tick _ => exact h.tick hinv hp
  | run i rest hw =>
    refine h.remove (touch_runFirst hw) (unlinked_runFirst hinv.lists hw) (.inl ?_)
    rw [runFirst_eq hw]
    rfl
  | query => exact h.query hinv

end

theorem cache_reachable (h₀ : Initial b) (hrun : Run (PunctualStep c) b as b') :
    Inv c True b' ∧ Cache c b' := by
  have hstep : ∀ {s a t}, Inv c True s ∧ Cache c s → PunctualStep c s a t →
      Inv c True t ∧ Cache c t := fun ⟨hi, hc⟩ ⟨hs, hp⟩ =>
    ⟨hi.step hs fun _ => hp.inLap, hc.step hi hs hp⟩
  refine Run.invariant (I := fun b => Inv c True b ∧ Cache c b) hstep hrun ⟨h₀.inv, ?_⟩
  refine ⟨by simp [h₀.vec], ?_, by simp [h₀.vec], by simp [h₀.workList]⟩
  rw [h₀.nextTimer, offset_self]
  exact neg_nonpos.mpr (maxPast_pos c).le

/-- The pending timers that the tickless query has to respect. -/
def Base.respected (b : Base) (i : ℕ) : Prop :=
  (b.timer i).pending = true ∧ (b.timer i).deferrable = false

/-- A timer of the past iteration that still seems to lie ahead is as far away as a
time can be. -/
theorem offset_of_work {now : Jiffies} (h : ticksUntil (now - 1) e = 0)
    (hge : 0 ≤ offset now e) : offset now e = 2 ^ 63 - 1 := by
  have hsucc : (e - (now - 1)).toNat = ((e - now).toNat + 1) % 2 ^ 64 := by
    have h1 : (1 : Jiffies).toNat = 1 := rfl
    simp only [BitVec.toNat_sub]
    omega
  have hfut : (e - now).toNat < 2 ^ 63 := by
    by_contra hp
    exact absurd hge (not_le.mpr (sub_toInt_neg_iff.mpr (not_lt.mp hp)))
  have heq : (offset now e).toNat = (e - now).toNat := by
    rw [← ticksUntil_eq_offset, ticksUntil_of_future hfut]
  have hpast : 2 ^ 63 ≤ (e - (now - 1)).toNat := by
    by_contra hf
    rw [ticksUntil_of_future (not_le.mp hf)] at h
    omega
  omega

theorem timeAfterEq_iff_offset {now : Jiffies} :
    timeAfterEq e now = true ↔ 0 ≤ offset now e := decide_eq_true_iff

theorem timeBeforeEq_of_offset {now e' : Jiffies} (h : 0 ≤ offset now e)
    (hle : offset now e ≤ offset now e') : timeBeforeEq e e' = true := by
  have := offset_bounds now e'
  rw [timeBeforeEq_iff now (by omega) (by omega)]
  exact hle

/-- A pending timer is on the wheel, or else on the work list and out of reach. -/
theorem Cache.pending_cases (h : Cache c b) (hinv : Inv c True b)
    (hp : (b.timer i).pending = true) (hge : 0 ≤ offset b.timerJiffies (b.timer i).expires) :
    (∃ v, i ∈ b.vec v) ∨ offset b.timerJiffies (b.timer i).expires = 2 ^ 63 - 1 := by
  by_cases hw : i ∈ b.workList
  · exact .inr (offset_of_work (h.work i hw) hge)
  · left
    by_contra hv
    have hu : Unlinked b i := ⟨hw, fun v hi => hv ⟨v, hi⟩⟩
    rw [(hinv.pending i).mpr hu] at hp
    cases hp

theorem Inv.pending_of_mem (h : Inv c True b) {v : Vec} (hi : i ∈ b.vec v) :
    (b.timer i).pending = true := by
  rw [← Bool.not_eq_false, h.pending i]
  exact fun hu => hu.2 v hi

section Query

variable (hinv : Inv c True b) (hcache : Cache c b)
  (hahead : ∀ i, (b.timer i).pending = true → 0 ≤ offset b.timerJiffies (b.timer i).expires)

include hinv hcache hahead

theorem offset_nextTimerInterrupt_nonneg : 0 ≤ offset b.timerJiffies (nextTimerInterrupt c b) := by
  have hearly := nextTimerInterrupt_earliest ⟨hinv.placed, hcache.past⟩
  rcases hearly.origin with heq | ⟨v, i, hi, -, heq⟩ <;> rw [heq]
  · rw [offset_add _ (by decide)]
    exact Int.natCast_nonneg _
  · exact hahead i (hinv.pending_of_mem hi)

theorem nextTimerInterrupt_le (hi : b.respected i) :
    timeBeforeEq (nextTimerInterrupt c b) (b.timer i).expires = true := by
  have hearly := nextTimerInterrupt_earliest ⟨hinv.placed, hcache.past⟩
  have hnn := offset_nextTimerInterrupt_nonneg hinv hcache hahead
  apply timeBeforeEq_of_offset hnn
  rcases hcache.pending_cases hinv hi.1 (hahead i hi.1) with ⟨v, hv⟩ | hfar
  · have hle := hearly.least v i hv hi.2
    have hge := hahead i hi.1
    simp only [left, ticksUntil_eq_offset] at hle
    omega
  · have := offset_bounds b.timerJiffies (nextTimerInterrupt c b)
    omega

theorem nextTimer_le (hnext : timeBeforeEq b.nextTimer b.timerJiffies = false)
    (hi : b.respected i) : timeBeforeEq b.nextTimer (b.timer i).expires = true := by
  have hstale := hcache.stale
  have hbnd := offset_bounds b.timerJiffies b.nextTimer
  obtain ⟨hpos, -⟩ := shift_four_bounds c
  unfold maxPast at hstale
  rw [← Bool.not_eq_true, timeBeforeEq_iff b.timerJiffies (by rw [offset_self]; omega)
    (by rw [offset_self]; omega), offset_self, not_le] at hnext
  apply timeBeforeEq_of_offset hnext.le
  rcases hcache.pending_cases hinv hi.1 (hahead i hi.1) with ⟨v, hv⟩ | hfar
  · exact hcache.next hnext v i hv hi.2 (hahead i hi.1)
  · omega

/-- A fresh search returns the expiry of a timer when one is due soon enough. -/
theorem nextTimerInterrupt_exists (hi : b.respected i)
    (hsoon : timeBefore (b.timer i).expires
      (b.timerJiffies + BitVec.ofNat 64 nextTimerMaxDelta) = true) :
    ∃ j, b.respected j ∧ nextTimerInterrupt c b = (b.timer j).expires := by
  have hearly := nextTimerInterrupt_earliest ⟨hinv.placed, hcache.past⟩
  have hge := hahead i hi.1
  have hbnd := offset_bounds b.timerJiffies (b.timer i).expires
  have hmax : offset b.timerJiffies (b.timerJiffies + BitVec.ofNat 64 nextTimerMaxDelta) =
      nextTimerMaxDelta := offset_add _ (by decide)
  have hsmall : (nextTimerMaxDelta : ℤ) < 2 ^ 62 := by decide
  rw [timeBefore_iff b.timerJiffies (by omega) (by omega)] at hsoon
  rcases hearly.origin with heq | ⟨v, j, hj, hd, heq⟩
  · -- the default is later than the timer that is due soon
    rcases hcache.pending_cases hinv hi.1 hge with ⟨v, hv⟩ | hfar
    · have hle := hearly.least v i hv hi.2
      simp only [left, ticksUntil_eq_offset, heq] at hle
      omega
    · omega
  · exact ⟨j, ⟨hinv.pending_of_mem hj, hd⟩, heq⟩

end Query

/-- In every run of punctual steps the value that the tickless query uses is not later
than any pending timer that is not deferrable, and a fresh one is the earliest of
their expiries if that comes before `NEXT_TIMER_MAX_DELTA`. -/
theorem next_timer_never_late {b₀ : Base} (h₀ : Initial b₀) (hrun : Run (PunctualStep c) b₀ as b)
    (hahead : ∀ i, (b.timer i).pending = true →
      timeAfterEq (b.timer i).expires b.timerJiffies = true) :
    (∀ i, b.respected i →
      timeBeforeEq (getNextTimerInterrupt c b).nextTimer (b.timer i).expires = true) ∧
    ((∃ i, b.respected i ∧ timeBefore (b.timer i).expires
        (b.timerJiffies + BitVec.ofNat 64 nextTimerMaxDelta) = true) →
      ∃ i, b.respected i ∧ nextTimerInterrupt c b = (b.timer i).expires ∧
        ∀ j, b.respected j → timeBeforeEq (b.timer i).expires (b.timer j).expires = true) := by
  obtain ⟨hinv, hcache⟩ := cache_reachable h₀ hrun
  have hge : ∀ i, (b.timer i).pending = true → 0 ≤ offset b.timerJiffies (b.timer i).expires :=
    fun i hi => timeAfterEq_iff_offset.mp (hahead i hi)
  constructor
  · intro i hi
    unfold getNextTimerInterrupt
    split_ifs with hnext
    · exact nextTimerInterrupt_le hinv hcache hge hi
    · exact nextTimer_le hinv hcache hge (Bool.not_eq_true _ ▸ hnext) hi
  · rintro ⟨i, hi, hsoon⟩
    obtain ⟨j, hj, heq⟩ := nextTimerInterrupt_exists hinv hcache hge hi hsoon
    exact ⟨j, hj, heq, fun k hk => heq ▸ nextTimerInterrupt_le hinv hcache hge hk⟩

/-- One iteration on an empty base, and then two timers. -/
def twoTimers (c : Config) (e₀ e₁ : Jiffies) : Base :=
  modTimer c (modTimer c (startIteration c emptyBase) 0 e₀ false) 1 e₁ false

theorem run_twoTimers (c : Config) (e₀ e₁ : Jiffies) :
    Run (Step c) emptyBase [.tick, .mod 0 e₀ false, .mod 1 e₁ false] (twoTimers c e₀ e₁) :=
  .cons (.tick _ rfl) (.cons (.mod ..) (.cons (.mod ..) (.nil _)))

theorem pending_twoTimers {e₀ e₁ : Jiffies} (h : ((twoTimers c e₀ e₁).timer i).pending = true) :
    i = 0 ∨ i = 1 := by
  by_contra hi
  obtain ⟨h0, h1⟩ := not_or.mp hi
  have hinv : Inv c False emptyBase := emptyBase_initial.inv
  have hfin : Inv c False (twoTimers c e₀ e₁) :=
    (run_twoTimers c e₀ e₁).invariant (fun hi hs => hi.step hs False.elim) hinv
  have htouch : ∀ a ∈ [Act.tick, .mod 0 e₀ false, .mod 1 e₁ false], a.touches i = false := by
    simp [Act.touches, Ne.symm h0, Ne.symm h1]
  obtain ⟨-, hu⟩ := unlinked_run hinv (run_twoTimers c e₀ e₁) htouch ((hinv.pending i).mp rfl)
  rw [(hfin.pending i).mpr hu] at h
  cases h

/-- The tickless query oversleeps although no pending timer lies in the past. -/
def Oversleeps (c : Config) (b : Base) : Prop :=
  (∀ i, (b.timer i).pending = true → timeAfterEq (b.timer i).expires b.timerJiffies = true) ∧
    ∃ i, b.respected i ∧
      timeBeforeEq (getNextTimerInterrupt c b).nextTimer (b.timer i).expires = false

/-- An expiry that is almost half the time range ahead seems to be before a cached value
that is one tick old, and replaces it although another timer is due much earlier. With
small vectors, a timer more than a lap ahead hides a nearer one from the search. -/
theorem next_timer_late :
    Run (Step ⟨false⟩) emptyBase [.tick, .mod 0 20 false, .mod 1 (2 ^ 63) false]
        (twoTimers ⟨false⟩ 20 (2 ^ 63)) ∧
      Oversleeps ⟨false⟩ (twoTimers ⟨false⟩ 20 (2 ^ 63)) ∧
      Run (Step ⟨true⟩) emptyBase [.tick, .mod 0 (2 ^ 19) false, .mod 1 (2 ^ 22 + 2 ^ 18) false]
        (twoTimers ⟨true⟩ (2 ^ 19) (2 ^ 22 + 2 ^ 18)) ∧
      Oversleeps ⟨true⟩ (twoTimers ⟨true⟩ (2 ^ 19) (2 ^ 22 + 2 ^ 18)) := by
  refine ⟨run_twoTimers .., ⟨fun i hi => ?_, 0, ⟨?_, ?_⟩, ?_⟩, run_twoTimers ..,
    fun i hi => ?_, 0, ⟨?_, ?_⟩, ?_⟩
  iterate 2
    · rcases pending_twoTimers hi with rfl | rfl <;> decide +kernel
    iterate 3 decide +kernel

/-- The query after one timer for tick 20 is enqueued on an empty base. -/
theorem next_timer_never_late_one :
    Run (PunctualStep ⟨false⟩) emptyBase [.mod 0 20 false] (modTimer ⟨false⟩ emptyBase 0 20 false) ∧
      timeBeforeEq (getNextTimerInterrupt ⟨false⟩ (modTimer ⟨false⟩ emptyBase 0 20 false)).nextTimer
        20 = true := by
  have hrun : Run (PunctualStep ⟨false⟩) emptyBase [.mod 0 20 false]
      (modTimer ⟨false⟩ emptyBase 0 20 false) :=
    .cons ⟨.mod .., fun _ => by decide +kernel⟩ (.nil _)
  have hother : ∀ i, i ≠ 0 → ((modTimer ⟨false⟩ emptyBase 0 20 false).timer i).pending = false := by
    intro i hi
    have hinv : Inv ⟨false⟩ False emptyBase := emptyBase_initial.inv
    rw [(touch_modTimer hinv 0 20 false).timer i hi]
    rfl
  refine ⟨hrun, (next_timer_never_late emptyBase_initial hrun fun i hi => ?_).1 0 ?_⟩
  · by_cases h0 : i = 0
    · subst h0
      decide +kernel
    · rw [hother i h0] at hi
      cases hi
  · exact ⟨by decide +kernel, by decide +kernel⟩

end LinuxKernel.Timer
