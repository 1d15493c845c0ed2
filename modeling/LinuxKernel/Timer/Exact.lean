import LinuxKernel.Timer.Invariant

/-! # Timers run exactly when they are due

A timer that stays pending waits on the wheel for the number of ticks that
remained when it was enqueued. The next iteration moves it to the work list, from
where it runs once.
-/

namespace LinuxKernel.Timer

open List BitVec

variable {c : Config} {b b' : Base} {i r : ℕ} {a : Act} {as : List Act}

/-- The calls that modify or delete a timer. -/
def Act.touches (i : ℕ) : Act → Bool
  | .mod j _ _ => j = i
  | .del j => j = i
  | .tick => false
  | .run _ => false
  | .query => false

def ticks (as : List Act) : ℕ := as.count .tick

def runs (i : ℕ) (as : List Act) : ℕ := as.count (.run i)

/-- The tick at which a timer that is enqueued for `expires` is to run. -/
def due (timerJiffies expires : Jiffies) : Jiffies :=
  if timeBefore expires timerJiffies then timerJiffies else expires

def Waiting (b : Base) (i r : ℕ) : Prop :=
  (∃ v, i ∈ b.vec v) ∧ ticksUntil b.timerJiffies (b.timer i).expires = r

theorem Waiting.touch {j : ℕ} (h : Waiting b i r) (ht : Touch j b b') (hi : i ≠ j) :
    Waiting b' i r := by
  obtain ⟨⟨v, hv⟩, hr⟩ := h
  exact ⟨⟨v, (ht.vec i hi v).mpr hv⟩, by rw [ht.timerJiffies, ht.timer i hi, hr]⟩

section

variable (h : Inv c False b)
include h

section

variable (hs : Step c b a b') (ha : a.touches i = false)
include hs ha

theorem step_touch (hr : a ≠ .run i) : a = .tick ∨ ∃ j, i ≠ j ∧ Touch j b b' := by
  cases hs with
  | mod j e po => exact .inr ⟨j, fun hj => by simp [Act.touches, hj] at ha, touch_modTimer h j e po⟩
  | del j => exact .inr ⟨j, fun hj => by simp [Act.touches, hj] at ha, touch_delTimer⟩
  | tick hw => exact .inl rfl
  | run j rest hw => exact .inr ⟨j, fun hj => hr (by rw [hj]), touch_runFirst hw⟩
  | query => exact .inr ⟨i + 1, by omega, touch_getNextTimerInterrupt (i + 1)⟩

/-- A waiting timer comes one tick nearer in every iteration and is moved to the work
list by the one in which it is due. -/
theorem waiting_step (hw : Waiting b i r) :
    a ≠ .run i ∧
      (a ≠ .tick ∧ Waiting b' i r ∨ a = .tick ∧ r = 0 ∧ i ∈ b'.workList ∨
        a = .tick ∧ ∃ k, r = k + 1 ∧ Waiting b' i k) := by
  have hrun : a ≠ .run i := by
    rintro rfl
    cases hs with
    | run _ rest hl =>
      obtain ⟨⟨v, hv⟩, -⟩ := hw
      exact h.lists.apart i v (by rw [hl]; exact mem_cons_self) hv
  refine ⟨hrun, ?_⟩
  by_cases htick : a = .tick
  · subst htick
    cases hs with
    | tick hl =>
      obtain ⟨-, -, hj, -, ht, hwork, hvec⟩ := startIteration_spec h.lists h.placed
      obtain ⟨hv, hr⟩ := hw
      cases r with
      | zero => exact .inr (.inl ⟨rfl, rfl, (hwork i).mpr ⟨hv, hr⟩⟩)
      | succ k =>
        have hpos : 0 < ticksUntil b.timerJiffies (b.timer i).expires := by omega
        obtain ⟨-, hs⟩ := ticksUntil_succ hpos
        refine .inr (.inr ⟨rfl, k, rfl, (hvec i).mpr ⟨hv, by omega⟩, ?_⟩)
        rw [hj, ht]
        omega
  · obtain rfl | ⟨j, hj, ht⟩ := step_touch h hs ha hrun
    · exact absurd rfl htick
    · exact .inl ⟨htick, hw.touch ht hj⟩

/-- A timer on the work list stays there until it is run, and no iteration starts before. -/
theorem expired_step (hi : i ∈ b.workList) :
    a ≠ .tick ∧ (a = .run i ∧ Unlinked b' i ∨ a ≠ .run i ∧ i ∈ b'.workList) := by
  have htick : a ≠ .tick := by
    rintro rfl
    cases hs with
    | tick hl => simp [hl] at hi
  refine ⟨htick, ?_⟩
  by_cases hrun : a = .run i
  · subst hrun
    cases hs with
    | run _ rest hl => exact .inl ⟨rfl, unlinked_runFirst h.lists hl⟩
  · obtain rfl | ⟨j, hj, ht⟩ := step_touch h hs ha hrun
    · exact absurd rfl htick
    · exact .inr ⟨hrun, (ht.workList i hj).mpr hi⟩

theorem unlinked_step (hu : Unlinked b i) : a ≠ .run i ∧ Unlinked b' i := by
  have hrun : a ≠ .run i := by
    rintro rfl
    cases hs with
    | run _ rest hl => exact hu.1 (by rw [hl]; exact mem_cons_self)
  refine ⟨hrun, ?_⟩
  obtain rfl | ⟨j, hj, ht⟩ := step_touch h hs ha hrun
  · cases hs with
    | tick hl =>
      obtain ⟨-, -, -, -, -, hwork, hvec⟩ := startIteration_spec h.lists h.placed
      refine ⟨fun hi => ?_, fun v hv => ?_⟩
      · obtain ⟨⟨v, hv⟩, -⟩ := (hwork i).mp hi
        exact hu.2 v hv
      · obtain ⟨⟨v, hv⟩, -⟩ := (hvec i).mp ⟨v, hv⟩
        exact hu.2 v hv
  · exact (ht.unlinked hj).mpr hu

end

variable (hr : Run (Step c) b as b')
include hr

section

variable (ha : ∀ a ∈ as, a.touches i = false)
include ha

theorem unlinked_run (hu : Unlinked b i) : runs i as = 0 ∧ Unlinked b' i := by
  induction hr with
  | nil => exact ⟨rfl, hu⟩
  | cons hs _ ih =>
    obtain ⟨ha, hrest⟩ := forall_mem_cons.mp ha
    obtain ⟨hrun, hu⟩ := unlinked_step h hs ha hu
    obtain ⟨hz, hu⟩ := ih (h.step hs False.elim) hrest hu
    exact ⟨by rw [runs, count_cons_of_ne hrun]; exact hz, hu⟩

theorem expired_run (hi : i ∈ b.workList) :
    runs i as = 1 ∧ Unlinked b' i ∨ runs i as = 0 ∧ ticks as = 0 ∧ i ∈ b'.workList := by
  induction hr with
  | nil => exact .inr ⟨rfl, rfl, hi⟩
  | cons hs hr ih =>
    obtain ⟨ha, hrest⟩ := forall_mem_cons.mp ha
    obtain ⟨htick, ⟨rfl, hu⟩ | ⟨hrun, hi⟩⟩ := expired_step h hs ha hi
    · obtain ⟨hz, hu⟩ := unlinked_run (h.step hs False.elim) hr hrest hu
      exact .inl ⟨by rw [runs, count_cons_self]; exact congrArg (· + 1) hz, hu⟩
    · rw [runs, ticks, count_cons_of_ne hrun, count_cons_of_ne htick]
      exact ih (h.step hs False.elim) hrest hi

/-- The life of a timer from the wheel over the work list to its call. -/
theorem waiting_run (hw : Waiting b i r) :
    ticks as ≤ r ∧ runs i as = 0 ∧ Waiting b' i (r - ticks as) ∨
      r < ticks as ∧ runs i as = 1 ∧ Unlinked b' i ∨
      ticks as = r + 1 ∧ runs i as = 0 ∧ i ∈ b'.workList := by
  induction hr generalizing r with
  | nil => exact .inl ⟨Nat.zero_le _, rfl, hw⟩
  | cons hs hr ih =>
    obtain ⟨ha, hrest⟩ := forall_mem_cons.mp ha
    obtain ⟨hrun, ⟨htick, hw'⟩ | ⟨rfl, rfl, hi⟩ | ⟨rfl, k, rfl, hw'⟩⟩ := waiting_step h hs ha hw
    · rw [runs, ticks, count_cons_of_ne hrun, count_cons_of_ne htick]
      exact ih (h.step hs False.elim) hrest hw'
    · rw [runs, ticks, count_cons_self]
      rcases expired_run (h.step hs False.elim) hr hrest hi with ⟨h1, hu⟩ | ⟨h0, ht, hi⟩
      · exact .inr (.inl ⟨by omega, h1, hu⟩)
      · exact .inr (.inr ⟨congrArg (· + 1) ht, h0, hi⟩)
    · rw [runs, ticks, count_cons_self]
      rcases ih (h.step hs False.elim) hrest hw' with ⟨hle, h0, hw⟩ | ⟨hlt, h1, hu⟩ | ⟨ht, h0, hi⟩
      · refine .inl ⟨Nat.succ_le_succ hle, h0, ?_⟩
        rwa [Nat.add_sub_add_right]
      · exact .inr (.inl ⟨Nat.succ_lt_succ hlt, h1, hu⟩)
      · exact .inr (.inr ⟨congrArg (· + 1) ht, h0, hi⟩)

end

theorem timerJiffies_run : b'.timerJiffies = b.timerJiffies + BitVec.ofNat 64 (ticks as) := by
  induction hr with
  | nil => simp [ticks]
  | cons hs _ ih =>
    rw [ih (h.step hs False.elim), ticks, ticks]
    cases hs with
    | mod j e po =>
      rw [(touch_modTimer h j e po).timerJiffies, count_cons_of_ne (by simp)]
    | del j => rw [touch_delTimer.timerJiffies, count_cons_of_ne (by simp)]
    | tick hw =>
      obtain ⟨-, -, hj, -⟩ := startIteration_spec h.lists h.placed
      rw [hj, count_cons_self, Nat.add_comm, ofNat_add, ← BitVec.add_assoc]
      rfl
    | run j rest hw => rw [(touch_runFirst hw).timerJiffies, count_cons_of_ne (by simp)]
    | query =>
      rw [(touch_getNextTimerInterrupt 0).timerJiffies, count_cons_of_ne (by simp)]

end

/-- The number of ticks to go leads to the tick at which the timer is due. -/
theorem add_ticksUntil (t e : Jiffies) : t + BitVec.ofNat 64 (ticksUntil t e) = due t e := by
  unfold due ticksUntil timeBefore timeAfter
  by_cases h : (e - t).toInt < 0
  · simp only [h]
    exact BitVec.add_zero t
  · simp only [h, if_false, decide_false, Bool.false_eq_true]
    rw [ofNat_toNat, setWidth_eq, BitVec.add_comm, sub_add_cancel]

theorem ticksUntil_lt (t e : Jiffies) : ticksUntil t e < 2 ^ 63 := by
  unfold ticksUntil
  split_ifs with h
  · norm_num
  · rw [sub_toInt_neg_iff] at h
    omega

theorem waiting_modTimer {e : Jiffies} {po : Bool} (h : Inv c False b)
    (henq : (b.timer i).pending = true ∨ po = false) :
    Waiting (modTimer c b i e po) i (ticksUntil b.timerJiffies e) := by
  rcases modTimer_cases h i e po with ⟨-, hp, hpo⟩ | ⟨b₁, heq, ht, -⟩
  · simp [hp, hpo] at henq
  · rw [heq]
    exact ⟨⟨_, mem_enqueue.mpr (.inr ⟨rfl, rfl⟩)⟩,
      by rw [touch_enqueue.timerJiffies, ht.timerJiffies, enqueue_timer.1]⟩

/-- A timer that is enqueued in any reachable state and then left alone is run exactly
once. It is moved to the work list by the iteration whose old `timer_jiffies` is its
expiry, or the tick at which it was enqueued if the expiry lies in the past. -/
theorem timer_runs_exactly_once {b₀ b₁ b₂ : Base} {pre post : List Act} {e : Jiffies} {po : Bool}
    (h₀ : Initial b₀) (hpre : Run (Step c) b₀ pre b₁)
    (henq : (b₁.timer i).pending = true ∨ po = false)
    (hpost : Run (Step c) (modTimer c b₁ i e po) post b₂)
    (hkeep : ∀ a ∈ post, a.touches i = false) :
    ∃ n < 2 ^ 63, b₁.timerJiffies + BitVec.ofNat 64 n = due b₁.timerJiffies e ∧
      b₂.timerJiffies = b₁.timerJiffies + BitVec.ofNat 64 (ticks post) ∧
      (ticks post ≤ n → runs i post = 0 ∧ i ∉ b₂.workList ∧ (b₂.timer i).pending = true) ∧
      (n < ticks post → runs i post = 1 ∨ runs i post = 0 ∧ ticks post = n + 1 ∧ i ∈ b₂.workList) ∧
      (∀ b₃, Step c b₂ .tick b₃ → (i ∈ b₃.workList ↔ ticks post = n)) ∧
      ∀ b₃, Step c b₂ (.run i) b₃ → ticks post = n + 1 := by
  have h₁ : Inv c False b₁ := hpre.invariant (fun hi hs => hi.step hs False.elim) h₀.inv
  have hm := h₁.modTimer i e po fun hd => hd.1.elim
  have hw := waiting_modTimer (e := e) h₁ henq
  have h₂ : Inv c False b₂ := hpost.invariant (fun hi hs => hi.step hs False.elim) hm
  have hlife := waiting_run hm hpost hkeep hw
  refine ⟨ticksUntil b₁.timerJiffies e, ticksUntil_lt .., add_ticksUntil .., ?_, ?_, ?_, ?_, ?_⟩
  · rw [timerJiffies_run hm hpost, (touch_modTimer h₁ i e po).timerJiffies]
  · intro hle
    obtain ⟨-, h0, ⟨v, hv⟩, -⟩ | ⟨hlt, -⟩ | ⟨ht, -⟩ := hlife
    · refine ⟨h0, fun hi => h₂.lists.apart i v hi hv, ?_⟩
      rw [← Bool.not_eq_false, h₂.pending i]
      exact fun hu => hu.2 v hv
    all_goals omega
  · intro hlt
    obtain ⟨hle, -⟩ | ⟨-, h1, -⟩ | ⟨ht, h0, hi⟩ := hlife
    · omega
    · exact .inl h1
    · exact .inr ⟨h0, ht, hi⟩
  · intro b₃ hs
    cases hs with
    | tick hl =>
      obtain ⟨-, -, -, -, -, hwork, -⟩ := startIteration_spec h₂.lists h₂.placed
      rw [hwork]
      obtain ⟨hle, -, hv, hr⟩ | ⟨hlt, -, hu⟩ | ⟨-, -, hi⟩ := hlife
      · exact ⟨fun h => by omega, fun h => ⟨hv, by omega⟩⟩
      · exact ⟨fun ⟨⟨v, hv⟩, _⟩ => absurd hv (hu.2 v), fun h => by omega⟩
      · simp [hl] at hi
  · intro b₃ hs
    cases hs with
    | run _ rest hl =>
      have hi : i ∈ b₂.workList := by rw [hl]; exact mem_cons_self
      obtain ⟨-, -, ⟨v, hv⟩, -⟩ | ⟨-, -, hu⟩ | ⟨ht, -⟩ := hlife
      · exact absurd hv (h₂.lists.apart i v hi)
      · exact absurd hi hu.1
      · exact ht

def emptyBase : Base where
  timerJiffies := 0
  nextTimer := 0
  timer _ := ⟨0, false, false⟩
  vec _ := []
  workList := []

theorem emptyBase_initial : Initial emptyBase := ⟨fun _ => rfl, rfl, fun _ => rfl, rfl⟩

theorem run_ticks : ∀ {k : ℕ}, (∀ j < k, ((startIteration c)^[j] b).workList = []) →
    Run (Step c) b (replicate k .tick) ((startIteration c)^[k] b)
  | 0, _ => .nil b
  | k + 1, h => by
    rw [List.replicate_succ', Function.iterate_succ_apply']
    exact (run_ticks fun j hj => h j (by omega)).append (.cons (.tick _ (h k (by omega))) (.nil _))

/-- A base at tick 127 with a timer for tick 191, which is 64 ticks ahead and hence not in `tv1`. -/
def farTimer : Base :=
  modTimer ⟨true⟩ { emptyBase with timerJiffies := 127, nextTimer := 127 } 3 191 false

/-- The timer is moved down by the second tick and run after 65 of them. -/
theorem timer_runs_after_cascade :
    farTimer.vec (.tvn 0 2) = [3] ∧ ((startIteration ⟨true⟩)^[2] farTimer).vec (.tv1 63) = [3] ∧
    ∃ b, Run (Step ⟨true⟩) farTimer (replicate 65 .tick ++ [.run 3]) b ∧
      ∃ n < 2 ^ 63, 127 + BitVec.ofNat 64 n = due 127 191 ∧
        (n < 65 → runs 3 (replicate 65 .tick ++ [.run 3]) = 1 ∨ 3 ∈ b.workList) := by
  have hticks : ∀ j < 65, ((startIteration ⟨true⟩)^[j] farTimer).workList = [] := by
    decide +kernel
  have hwork : ((startIteration ⟨true⟩)^[65] farTimer).workList = [3] := by decide +kernel
  have hrun := (run_ticks hticks).append (.cons (Step.run _ 3 [] hwork) (.nil _))
  refine ⟨by decide, by decide, _, hrun, ?_⟩
  obtain ⟨n, hn, hdue, -, -, hlate, -⟩ := timer_runs_exactly_once
    ⟨fun _ => rfl, rfl, fun _ => rfl, rfl⟩ (.nil _) (.inr rfl) hrun (by decide)
  exact ⟨n, hn, hdue, fun h => (hlate h).imp id fun h => h.2.2⟩

/-- Only `mod_timer` enqueues a timer that is on no list. -/
theorem unlinked_stays (h : Inv c False b) (hs : Step c b a b') (ha : ∀ e, a ≠ .mod i e false)
    (hu : Unlinked b i) : a ≠ .run i ∧ Unlinked b' i := by
  by_cases htouch : a.touches i = false
  · exact unlinked_step h hs htouch hu
  · have hp := (h.pending i).mpr hu
    cases hs with
    | mod j e po =>
      obtain rfl : j = i := by simpa [Act.touches] using htouch
      cases po with
      | false => exact absurd rfl (ha e)
      | true => simpa [modTimer, hp] using hu
    | del j =>
      obtain rfl : j = i := by simpa [Act.touches] using htouch
      simpa [delTimer, hp] using hu
    | _ => simp [Act.touches] at htouch

/-- A deleted timer is not run, even if it was already expired, until `mod_timer` enqueues it. -/
theorem deleted_timer_never_runs {b₀ b₁ b₂ : Base} {pre post : List Act} (h₀ : Initial b₀)
    (hpre : Run (Step c) b₀ pre b₁)
    (hpost : Run (fun b a b' => Step c b a b' ∧ ∀ e, a ≠ .mod i e false) (delTimer b₁ i) post b₂) :
    (b₂.timer i).pending = false ∧ ∀ b₃, ¬ Step c b₂ (.run i) b₃ := by
  have h₁ : Inv c False b₁ := hpre.invariant (fun hi hs => hi.step hs False.elim) h₀.inv
  have hdel := h₁.delTimer i
  have hu : Unlinked (delTimer b₁ i) i := by
    rw [← hdel.pending i, delTimer]
    split_ifs with hp <;> simp [Base.setTimer, hp]
  obtain ⟨h₂, hu⟩ := hpost.invariant (I := fun b => Inv c False b ∧ Unlinked b i)
    (fun h hs => ⟨h.1.step hs.1 False.elim, (unlinked_stays h.1 hs.1 hs.2 h.2).2⟩) ⟨hdel, hu⟩
  exact ⟨(h₂.pending i).mpr hu, fun b₃ hs => (unlinked_stays h₂ hs (by simp) hu).1 rfl⟩

/-- The timer is deleted when it is on the work list. -/
theorem deleted_timer_never_runs_expired :
    ∃ b b', Run (Step ⟨false⟩) emptyBase [.mod 3 0 false, .tick] b ∧ b.workList = [3] ∧
      Step ⟨false⟩ (delTimer b 3) (.mod 3 9 true) b' ∧ (b'.timer 3).pending = false :=
  have hrun := .cons (.mod emptyBase 3 0 false) (.cons (.tick _ (by decide)) (.nil _))
  ⟨_, _, hrun, by decide, .mod _ 3 9 true,
    (deleted_timer_never_runs emptyBase_initial hrun (.cons ⟨.mod _ 3 9 true, by simp⟩ (.nil _))).1⟩

end LinuxKernel.Timer
