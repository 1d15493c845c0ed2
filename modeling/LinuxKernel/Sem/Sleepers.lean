import LinuxKernel.Sem.Update

/-! # No runnable sleeper is left behind

In every reachable state of a semaphore array each operation in the queue would have to
sleep if it were tried again, and no call runs into an assertion.
-/

namespace LinuxKernel.Sem

open List Function

variable {sma sma' : SemArray} {q : SemQueue} {u u' : Update} {sops : List SemBuf} {as : List Act}
  {pid : ℤ}

structure Settled (sma : SemArray) : Prop extends Queues sma where
  blocked : ∀ q ∈ sma.semPending, Blocked sma q

/-- The scans of semaphores that the loop of `do_smart_update` still has before it. -/
def Triggered (sma : SemArray) (sops : List SemBuf) (i : ℕ) : Prop :=
  ∃ sop ∈ sops, sop.semNum = i ∧ (sop.semOp > 0 ∨ sop.semOp < 0 ∧ sma.semval i = 0)

theorem smartLoop_spec {otime : Bool} (h : Queues u.sma) (hc : u.sma.complexCount = 0)
    (hb : ∀ q ∈ u.sma.semPending, Blocked u.sma q ∨ Excused (Triggered u.sma sops) q) :
    ∃ r u', smartLoop sops otime u = some (r, u') ∧ Settled u'.sma := by
  induction sops generalizing u otime with
  | nil =>
    refine ⟨otime, u, rfl, h, fun q hq => ?_⟩
    rcases hb q hq with hb | ⟨_, _, _, hmem, _⟩
    · exact hb
    · cases hmem
  | cons sop sops ih =>
    rw [smartLoop]
    by_cases htrig : sop.semOp > 0 ∨ sop.semOp < 0 ∧ u.sma.semval sop.semNum = 0
    · rw [if_pos htrig]
      have hsplit : ∀ q ∈ u.sma.semPending, Blocked u.sma q ∨ Excused (fun j => j = sop.semNum ∨
          j ≠ sop.semNum ∧ Triggered u.sma sops j) q := by
        intro q hq
        refine (hb q hq).imp id ?_
        rintro ⟨qsop, hqsop, x, hx, hnum, hop⟩
        refine ⟨qsop, hqsop, ?_⟩
        by_cases hj : qsop.semNum = sop.semNum
        · exact .inl hj
        · right
          rcases mem_cons.mp hx with rfl | hx
          · exact absurd hnum.symm hj
          · exact ⟨hj, x, hx, hnum, hop⟩
      obtain ⟨u', heq, hframe, hq', hc', hb'⟩ := updateQueue_one
        (fun j => j ≠ sop.semNum ∧ Triggered u.sma sops j) h hc (fun hd => hd.1 rfl) hsplit
      rw [heq]
      refine ih hq' hc' fun q hq => (hb' q hq).imp id ?_
      rintro ⟨qsop, hqsop, hj, x, hx, hnum, hop⟩
      refine ⟨qsop, hqsop, x, hx, hnum, ?_⟩
      rw [hframe.semval sop.semNum rfl _ hj]
      exact hop
    · rw [if_neg htrig]
      refine ih h hc fun q hq => (hb q hq).imp id ?_
      rintro ⟨qsop, hqsop, x, hx, hnum, hop⟩
      rcases mem_cons.mp hx with rfl | hx
      · rw [← hnum] at hop
        exact absurd hop htrig
      · exact ⟨qsop, hqsop, x, hx, hnum, hop⟩

theorem Settled.setOtime (h : Settled u.sma) (otime : Bool) (seconds : ℕ) :
    Settled (setOtime otime seconds u).sma := by
  unfold Sem.setOtime
  split_ifs
  · have hv : SameValues u.sma { u.sma with semOtime := seconds } := ⟨rfl, rfl⟩
    exact ⟨h.toQueues.congr ⟨rfl, rfl, rfl, rfl⟩ h.nonneg h.short,
      fun q hq => (blocked_congr hv).mpr (h.blocked q hq)⟩
  · exact h

theorem doSmartUpdate_none (h : Queues sma) (otime : Bool) (seconds : ℕ) :
    ∃ u, doSmartUpdate sma none otime seconds = some u ∧ Settled u.sma := by
  obtain ⟨u, heq, hq, hb⟩ := updateQueue_full (u := ⟨sma, [], false⟩) h (.inl rfl)
  exact ⟨_, congrArg (Option.map _) heq, Settled.setOtime ⟨hq, hb⟩ ..⟩

theorem total_nonpos {i : ℕ} (h : ∀ sop ∈ sops, sop.semNum = i → sop.semOp ≤ 0) :
    total sops i ≤ 0 := by
  induction sops with
  | nil => exact le_rfl
  | cons sop sops ih =>
    obtain ⟨hsop, hrest⟩ := forall_mem_cons.mp h
    have := ih hrest
    rw [total, map_cons, sum_cons, ← total]
    split_ifs with hi
    · omega
    · omega

theorem total_eq_zero {i : ℕ} (h : ∀ sop ∈ sops, sop.semNum = i → sop.semOp = 0) :
    total sops i = 0 := by
  apply sum_eq_zero
  intro x hx
  obtain ⟨sop, hsop, rfl⟩ := mem_map.mp hx
  split_ifs with hi
  · exact h sop hsop hi
  · rfl

/-- After a call only the semaphores that the call has incremented, or decremented to zero,
can have a sleeper that can go on. -/
theorem Settled.triggered (h : Settled sma) {un : ℕ}
    (hdone : tryAtomicSemop un pid sma sops = (.done, sma')) (hc : sma.complexCount = 0)
    (hq : q ∈ sma.semPending) : Blocked sma' q ∨ Excused (Triggered sma' sops) q := by
  obtain ⟨-, hval, -⟩ := tryAtomicSemop_performed hdone
  obtain ⟨sop, hsop⟩ := h.exists_simple hc hq
  by_cases htrig : Triggered sma' sops sop.semNum
  · exact .inr ⟨sop, hsop, htrig⟩
  left
  have hle : ∀ x ∈ sops, x.semNum = sop.semNum → x.semOp ≤ 0 := by
    intro x hx hnum
    by_contra hpos
    exact htrig ⟨x, hx, hnum, .inl (not_le.mp hpos)⟩
  have hb := h.blocked q hq
  have htot := total_nonpos hle
  rw [blocked_simple hsop] at hb ⊢
  refine ⟨hb.1, ?_⟩
  rcases hb.2 with ⟨h0, hne⟩ | hlt
  · refine .inl ⟨h0, fun hz => hne ?_⟩
    have hall : ∀ x ∈ sops, x.semNum = sop.semNum → x.semOp = 0 := by
      intro x hx hnum
      by_contra hx0
      exact htrig ⟨x, hx, hnum, .inr ⟨lt_of_le_of_ne (hle x hx hnum) hx0, hz⟩⟩
    rw [hval, total_eq_zero hall, add_zero] at hz
    exact hz
  · rw [hval]
    omega

theorem Settled.doSmartUpdate (h : Settled sma) {un : ℕ}
    (hdone : tryAtomicSemop un pid sma sops = (.done, sma')) (otime : Bool) (seconds : ℕ) :
    ∃ u, doSmartUpdate sma' (some sops) otime seconds = some u ∧ Settled u.sma := by
  obtain ⟨hsame, -, hqueues⟩ := tryAtomicSemop_performed hdone
  have hq := hqueues h.toQueues
  rw [Sem.doSmartUpdate]
  by_cases hc : sma'.complexCount ≠ 0
  · obtain ⟨u, heq, hq', hb⟩ := updateQueue_full (u := ⟨sma', [], false⟩) hq (.inl rfl)
    rw [if_pos hc, heq]
    exact ⟨_, rfl, Settled.setOtime ⟨hq', hb⟩ ..⟩
  · have hc' := not_not.mp hc
    obtain ⟨r, u, heq, hset⟩ := smartLoop_spec (u := ⟨sma', [], false⟩) hq hc'
      fun q hqm => h.triggered hdone (hsame.complexCount ▸ hc') (hsame.semPending ▸ hqm)
    rw [if_neg hc, heq]
    exact ⟨_, rfl, hset.setOtime ..⟩

theorem enqueue_semPending : (enqueue sma q).semPending =
    if q.alter then sma.semPending ++ [q] else q :: sma.semPending := by
  unfold enqueue
  dsimp only
  split <;> rfl

theorem enqueue_values : SameValues sma (enqueue sma q) := by
  unfold enqueue
  dsimp only
  split <;> exact ⟨rfl, rfl⟩

theorem mem_enqueue {x : SemQueue} :
    x ∈ (enqueue sma q).semPending ↔ x = q ∨ x ∈ sma.semPending := by
  rw [enqueue_semPending]
  split_ifs
  · simp [or_comm]
  · simp

theorem Queues.enqueue_simple (h : Queues sma) (i : ℕ) :
    (enqueue sma q).semSimple i = (enqueue sma q).semPending.filter (simpleOn i) := by
  have hold := h.simple i
  rw [enqueue_semPending]
  by_cases hs : simpleOn i q = true
  · obtain ⟨sop, hsop, rfl⟩ := simpleOn_iff.mp hs
    have hnew : (enqueue sma q).semSimple sop.semNum =
        if q.alter then sma.semSimple sop.semNum ++ [q] else q :: sma.semSimple sop.semNum := by
      unfold enqueue
      rw [hsop]
      exact update_self ..
    rw [hnew, hold]
    split_ifs
    · rw [filter_append, filter_cons_of_pos hs, filter_nil]
    · rw [filter_cons_of_pos hs]
  · have hnew : (enqueue sma q).semSimple i = sma.semSimple i := by
      unfold enqueue
      dsimp only
      split
      · next sop hsop =>
        refine update_of_ne (fun hi => hs ?_) ..
        exact simpleOn_iff.mpr ⟨sop, hsop, hi.symm⟩
      · rfl
    rw [hnew, hold]
    split_ifs
    · rw [filter_append, filter_cons_of_neg hs, filter_nil, append_nil]
    · rw [filter_cons_of_neg hs]

theorem Queues.enqueue_complex (h : Queues sma) : (enqueue sma q).complexCount =
    ((enqueue sma q).semPending.countP (·.sops.length ≠ 1) : ℤ) := by
  have hnew : (enqueue sma q).complexCount =
      sma.complexCount + if q.sops.length ≠ 1 then 1 else 0 := by
    unfold enqueue
    dsimp only
    split
    · next sop hsop => simp [hsop]
    · next hno =>
      have hlen : q.sops.length ≠ 1 := by
        intro hlen
        obtain ⟨sop, hsop⟩ := length_eq_one_iff.mp hlen
        exact hno sop hsop
      rw [if_pos hlen]
  have hcount : (enqueue sma q).semPending.countP (·.sops.length ≠ 1) =
      sma.semPending.countP (·.sops.length ≠ 1) + if q.sops.length ≠ 1 then 1 else 0 := by
    rw [enqueue_semPending]
    split_ifs <;> simp_all
  rw [hnew, hcount, h.complex]
  push_cast
  rfl

theorem Settled.enqueue (h : Settled sma) (hb : Blocked sma q) (hne : q.sops ≠ [])
    (ha : q.alter = q.sops.any (·.semOp ≠ 0))
    (hfresh : ∀ x ∈ sma.semPending, x.sleeper ≠ q.sleeper) : Settled (enqueue sma q) := by
  have hv : SameValues sma (Sem.enqueue sma q) := enqueue_values
  have hmem : ∀ {P : SemQueue → Prop}, P q → (∀ x ∈ sma.semPending, P x) →
      ∀ x ∈ (Sem.enqueue sma q).semPending, P x := by
    intro P hq hall x hx
    rcases mem_enqueue.mp hx with rfl | hx
    · exact hq
    · exact hall x hx
  refine ⟨⟨h.enqueue_simple, h.enqueue_complex, ?_, ?_, hmem ha h.alter, hmem hne h.nonempty,
    hmem (fun sop hsop => ?_) h.waits, ?_, ?_⟩, ?_⟩
  · have hnot : q.sleeper ∉ sma.semPending.map (·.sleeper) := by
      intro hin
      obtain ⟨x, hx, heq⟩ := mem_map.mp hin
      exact hfresh x hx heq
    rw [enqueue_semPending]
    split_ifs
    · rw [map_append, map_singleton, nodup_append]
      exact ⟨h.nodup, nodup_singleton _, fun x hx y hy => by
        rintro rfl
        exact hnot (mem_singleton.mp hy ▸ hx)⟩
    · exact nodup_cons.mpr ⟨hnot, h.nodup⟩
  · rw [enqueue_semPending]
    split_ifs with halt
    · refine pairwise_append.mpr ⟨h.order, pairwise_singleton .., fun x _ y hy _ => ?_⟩
      rw [mem_singleton.mp hy]
      exact halt
    · exact pairwise_cons.mpr ⟨fun _ _ hq => absurd hq halt, h.order⟩
  · have hb' := hb
    rw [blocked_simple hsop] at hb'
    have hpos := h.nonneg sop.semNum
    refine ⟨hb'.1, ?_⟩
    rcases hb'.2 with ⟨h0, -⟩ | hlt
    · exact h0.le
    · omega
  · rw [hv.semval]
    exact h.nonneg
  · rw [hv.semadj]
    exact h.short
  · exact hmem ((blocked_congr hv).mpr hb) fun x hx => (blocked_congr hv).mpr (h.blocked x hx)

theorem Settled.semtimedop (h : Settled sma) {sleeper un : ℕ} {seconds : ℕ}
    (hfresh : ∀ x ∈ sma.semPending, x.sleeper ≠ sleeper) :
    ∃ r, semtimedop sma sleeper un pid sops seconds = some r ∧ Settled r.2.1 := by
  unfold Sem.semtimedop
  by_cases hnil : sops = []
  · exact ⟨_, if_pos hnil, h⟩
  rw [if_neg hnil]
  by_cases hbig : (sops.any fun sop => sop.semNum ≥ sma.nsems) = true
  · exact ⟨_, if_pos hbig, h⟩
  rw [if_neg hbig]
  rcases htry : tryAtomicSemop un pid sma sops with ⟨r, sma'⟩
  cases r with
  | done =>
    by_cases halt : (sops.any fun sop => sop.semOp ≠ 0) = true
    · obtain ⟨u, heq, hset⟩ := h.doSmartUpdate htry true seconds
      refine ⟨(.done, u.sma, u.tasks), ?_, hset⟩
      dsimp only
      rw [if_pos halt, heq]
      rfl
    · obtain ⟨hq, -, hqueues⟩ := tryAtomicSemop_performed htry
      have hv : SameValues sma sma' := by
        apply tryAtomicSemop_waits htry h.toQueues
        simpa using halt
      refine ⟨_, if_neg halt, hqueues h.toQueues, fun q hqm => ?_⟩
      exact (blocked_congr hv).mpr (h.blocked q (hq.semPending ▸ hqm))
  | error e =>
    obtain rfl := tryAtomicSemop_fail htry (by simp)
    exact ⟨_, rfl, h⟩
  | sleep =>
    obtain rfl := tryAtomicSemop_fail htry (by simp)
    refine ⟨_, rfl, h.enqueue ?_ hnil rfl hfresh⟩
    rw [Blocked, htry]

theorem Settled.unlink (h : Settled sma) (hq : q ∈ sma.semPending) :
    Settled (unlinkQueue sma q) := by
  refine ⟨h.toQueues.unlink hq, fun x hx => ?_⟩
  rw [blocked_congr (unlinkQueue_values sma q)]
  exact h.blocked x (mem_unlinkQueue.mp hx).1

theorem toShort_zero : toShort 0 = 0 := by decide

theorem Settled.exitSem (h : Settled sma) (un : ℕ) (pid : ℤ) (seconds : ℕ) :
    ∃ u, exitSem sma un pid seconds = some u ∧ Settled u.sma := by
  have hq : Queues (adjust sma un pid) := by
    refine h.toQueues.congr ⟨rfl, rfl, rfl, rfl⟩ (fun i => ?_) fun un' i => ?_
    · unfold adjust
      dsimp only
      split_ifs
      · exact le_min (le_max_right _ _) (by decide)
      · exact h.nonneg i
    · unfold adjust
      dsimp only
      by_cases hun : un' = un
      · subst hun
        rw [update_self, toShort_zero]
      · rw [update_of_ne hun]
        exact h.short un' i
  exact doSmartUpdate_none hq true seconds

theorem Settled.semctlSetval (h : Settled sma) (semnum : ℕ) (val pid : ℤ) (seconds : ℕ) :
    ∃ r, semctlSetval sma semnum val pid seconds = some r ∧ Settled r.2 := by
  unfold Sem.semctlSetval
  split_ifs with hnum hval
  · exact ⟨_, rfl, h⟩
  · exact ⟨_, rfl, h⟩
  have hq : Queues (putVal sma semnum val pid) := by
    refine h.toQueues.congr ⟨rfl, rfl, rfl, rfl⟩ (fun i => ?_) fun un i => ?_
    · change 0 ≤ (sma.setVal semnum val).semval i
      by_cases hi : i = semnum
      · subst hi
        rw [setVal_semval_self]
        omega
      · rw [setVal_semval_of_ne hi]
        exact h.nonneg i
    · unfold putVal
      dsimp only
      by_cases hi : i = semnum
      · subst hi
        rw [update_self, toShort_zero]
      · rw [update_of_ne hi]
        exact h.short un i
  obtain ⟨u, heq, hset⟩ := doSmartUpdate_none hq false seconds
  rw [heq]
  exact ⟨_, rfl, hset⟩

theorem Settled.semctlSetall (h : Settled sma) (semIo : ℕ → ℕ) (seconds : ℕ) :
    ∃ r, semctlSetall sma semIo seconds = some r ∧ Settled r.2 := by
  unfold Sem.semctlSetall
  split_ifs
  · exact ⟨_, rfl, h⟩
  have hq : Queues (putAll sma semIo) := by
    refine h.toQueues.congr ⟨rfl, rfl, rfl, rfl⟩ (fun i => ?_) fun un i => ?_
    · unfold putAll
      dsimp only
      split_ifs
      · exact Int.natCast_nonneg _
      · exact h.nonneg i
    · unfold putAll
      dsimp only
      split_ifs
      · exact toShort_zero
      · exact h.short un i
  obtain ⟨u, heq, hset⟩ := doSmartUpdate_none hq false seconds
  rw [heq]
  exact ⟨_, rfl, hset⟩

theorem Initial.settled (h : Initial sma) : Settled sma where
  simple i := by rw [h.semSimple, h.semPending]; rfl
  complex := by rw [h.complexCount, h.semPending]; rfl
  nodup := by rw [h.semPending]; exact .nil
  order := by rw [h.semPending]; exact .nil
  alter q hq := by rw [h.semPending] at hq; cases hq
  nonempty q hq := by rw [h.semPending] at hq; cases hq
  waits q hq := by rw [h.semPending] at hq; cases hq
  nonneg i := (h.semval i).ge
  short un i := by rw [h.semadj]; exact toShort_zero
  blocked q hq := by rw [h.semPending] at hq; cases hq

/-- Every call that can happen comes to an end and leaves a settled array. -/
theorem Settled.exec (h : Settled sma) {a : Act} (ha : a.enabled sma) :
    ∃ sma', exec sma a = some sma' ∧ Settled sma' := by
  cases a with
  | semop sleeper un pid sops seconds =>
    obtain ⟨r, heq, hset⟩ : ∃ r, Sem.semtimedop sma sleeper un pid sops seconds = some r ∧
        Settled r.2.1 := h.semtimedop ha
    exact ⟨_, congrArg (Option.map _) heq, hset⟩
  | unlink q => exact ⟨_, rfl, h.unlink ha⟩
  | exit un pid seconds =>
    obtain ⟨u, heq, hset⟩ := h.exitSem un pid seconds
    exact ⟨_, congrArg (Option.map _) heq, hset⟩
  | setval semnum val pid seconds =>
    obtain ⟨r, heq, hset⟩ := h.semctlSetval semnum val pid seconds
    exact ⟨_, congrArg (Option.map _) heq, hset⟩
  | setall semIo seconds =>
    obtain ⟨r, heq, hset⟩ := h.semctlSetall semIo seconds
    exact ⟨_, congrArg (Option.map _) heq, hset⟩

theorem Settled.step {a : Act} (h : Settled sma) (hs : Step sma a sma') : Settled sma' := by
  obtain ⟨ha, heq⟩ := hs
  obtain ⟨t, ht, hset⟩ := h.exec ha
  rw [heq] at ht
  rwa [Option.some.inj ht]

/-- In every reachable state all operations in the queue have to go on sleeping, and every
call that can happen next comes to an end. -/
theorem no_runnable_sleeper {sma₀ : SemArray} (h₀ : Initial sma₀) (hrun : Run Step sma₀ as sma) :
    (∀ q ∈ sma.semPending, (tryAtomicSemop q.undo q.pid sma q.sops).1 = .sleep) ∧
      ∀ a : Act, a.enabled sma → ∃ sma', Step sma a sma' := by
  have hset : Settled sma := hrun.invariant (fun h hs => h.step hs) h₀.settled
  refine ⟨hset.blocked, fun a ha => ?_⟩
  obtain ⟨sma', heq, -⟩ := hset.exec ha
  exact ⟨sma', ha, heq⟩

/-- Two tasks sleep at an empty semaphore, and a third one adds to it: the first sleeper completes
and the second one, which takes two, goes on sleeping. -/
theorem no_runnable_sleeper_one :
    ∃ sma, Run Step emptyArray [.semop 5 7 1 [⟨0, -1, false, false⟩] 0,
        .semop 6 7 1 [⟨0, -2, false, false⟩] 0, .semop 8 7 2 [⟨0, 1, false, false⟩] 3] sma ∧
      sma.semPending.map (·.sleeper) = [6] ∧ sma.semOtime = 3 ∧
      ∀ q ∈ sma.semPending, (tryAtomicSemop q.undo q.pid sma q.sops).1 = .sleep := by
  have h₀ : Initial emptyArray := ⟨fun _ => rfl, fun _ => rfl, rfl, rfl, fun _ _ => rfl⟩
  have hrun : ∃ sma, Run Step emptyArray [.semop 5 7 1 [⟨0, -1, false, false⟩] 0,
      .semop 6 7 1 [⟨0, -2, false, false⟩] 0, .semop 8 7 2 [⟨0, 1, false, false⟩] 3] sma ∧
      sma.semPending.map (·.sleeper) = [6] ∧ sma.semOtime = 3 :=
    ⟨_, .cons ⟨by unfold Act.enabled; decide, rfl⟩ <| .cons ⟨by unfold Act.enabled; decide, rfl⟩ <|
      .cons ⟨by unfold Act.enabled; decide, rfl⟩ (.nil _), rfl, rfl⟩
  obtain ⟨sma, hrun, hpending, htime⟩ := hrun
  exact ⟨sma, hrun, hpending, htime, (no_runnable_sleeper h₀ hrun).1⟩

end LinuxKernel.Sem
