import LinuxKernel.Sem.Undo

/-! # The queue of sleeping operations

The optimised scan of `update_queue` relies on how the queue is built. Operations that
only wait for zero come first, a single operation in the queue never increments, and
`complex_count` says whether there is any other operation.
-/

namespace LinuxKernel.Sem

open List

variable {sma sma' : SemArray} {q q' : SemQueue} {sop : SemBuf} {i : ℕ}

/-- A single operation on the given semaphore. -/
def simpleOn (i : ℕ) (q : SemQueue) : Bool :=
  match q.sops with
  | [sop] => sop.semNum = i
  | _ => false

theorem simpleOn_iff : simpleOn i q = true ↔ ∃ sop, q.sops = [sop] ∧ sop.semNum = i := by
  unfold simpleOn
  split
  · next sop h => simp [h]
  · next h =>
    simp only [Bool.false_eq_true, false_iff]
    rintro ⟨sop, hsop, -⟩
    exact h sop hsop

/-- The order of the queue: after an operation that alters the array come only such. -/
def AltersLast (l : List SemQueue) : Prop := l.Pairwise fun q q' => q.alter = true → q'.alter = true

/-- The invariant of the queues and the ranges of the values. -/
structure Queues (sma : SemArray) : Prop where
  simple : ∀ i, sma.semSimple i = sma.semPending.filter (simpleOn i)
  complex : sma.complexCount = (sma.semPending.countP (·.sops.length ≠ 1) : ℤ)
  nodup : (sma.semPending.map (·.sleeper)).Nodup
  order : AltersLast sma.semPending
  alter : ∀ q ∈ sma.semPending, q.alter = q.sops.any (·.semOp ≠ 0)
  nonempty : ∀ q ∈ sma.semPending, q.sops ≠ []
  waits : ∀ q ∈ sma.semPending, ∀ sop, q.sops = [sop] → sop.ipcNowait = false ∧ sop.semOp ≤ 0
  nonneg : ∀ i, 0 ≤ sma.semval i
  short : ∀ un i, toShort (sma.semadj un i) = sma.semadj un i

theorem Queues.congr (h : Queues sma) (hq : SameQueues sma sma') (hpos : ∀ i, 0 ≤ sma'.semval i)
    (hs : ∀ un i, toShort (sma'.semadj un i) = sma'.semadj un i) : Queues sma' where
  simple i := by rw [hq.semSimple, hq.semPending, h.simple]
  complex := by rw [hq.complexCount, hq.semPending, h.complex]
  nodup := by rw [hq.semPending]; exact h.nodup
  order := by rw [hq.semPending]; exact h.order
  alter := by rw [hq.semPending]; exact h.alter
  nonempty := by rw [hq.semPending]; exact h.nonempty
  waits := by rw [hq.semPending]; exact h.waits
  nonneg := hpos
  short := hs

theorem Queues.exists_simple (h : Queues sma) (h0 : sma.complexCount = 0)
    (hq : q ∈ sma.semPending) : ∃ sop, q.sops = [sop] := by
  have hcount : sma.semPending.countP (·.sops.length ≠ 1) = 0 := by
    have := h.complex
    omega
  rw [countP_eq_zero] at hcount
  have hlen := hcount q hq
  simp only [decide_not, Bool.not_eq_true', decide_eq_false_iff_not, not_not] at hlen
  exact length_eq_one_iff.mp hlen

/-- A single sleeping operation that alters the array is a decrement. -/
theorem Queues.decrement (h : Queues sma) (hq : q ∈ sma.semPending) (hs : q.sops = [sop])
    (ha : q.alter = true) : sop.semOp < 0 := by
  have hle := (h.waits q hq sop hs).2
  have hne : sop.semOp ≠ 0 := by
    have := h.alter q hq
    rw [ha, hs] at this
    simpa using this.symm
  omega

section Unlink

theorem unlinkQueue_semPending (sma : SemArray) (q : SemQueue) :
    (unlinkQueue sma q).semPending = sma.semPending.filter (·.sleeper ≠ q.sleeper) := by
  unfold unlinkQueue
  split_ifs <;> rfl

theorem unlinkQueue_values (sma : SemArray) (q : SemQueue) :
    SameValues sma (unlinkQueue sma q) := by
  unfold unlinkQueue
  split_ifs <;> exact ⟨rfl, rfl⟩

theorem mem_unlinkQueue : q' ∈ (unlinkQueue sma q).semPending ↔
    q' ∈ sma.semPending ∧ q'.sleeper ≠ q.sleeper := by
  simp [unlinkQueue_semPending]

theorem unlinkQueue_complexCount (sma : SemArray) (q : SemQueue) :
    (unlinkQueue sma q).complexCount =
      if q.sops.length = 1 then sma.complexCount else sma.complexCount - 1 := by
  unfold unlinkQueue
  split_ifs <;> rfl

/-- Among distinct sleepers exactly one goes. -/
theorem countP_filter_sleeper {l : List SemQueue} (p : SemQueue → Bool)
    (hn : (l.map (·.sleeper)).Nodup) (hq : q ∈ l) :
    l.countP p = (l.filter (·.sleeper ≠ q.sleeper)).countP p + if p q then 1 else 0 := by
  induction l with
  | nil => cases hq
  | cons x l ih =>
    obtain ⟨hx, hn⟩ := nodup_cons.mp hn
    rcases mem_cons.mp hq with rfl | hq
    · have hall : l.filter (·.sleeper ≠ q.sleeper) = l := by
        rw [filter_eq_self]
        intro y hy
        simp only [decide_not, Bool.not_eq_true', decide_eq_false_iff_not]
        intro heq
        exact hx (mem_map.mpr ⟨y, hy, heq⟩)
      rw [filter_cons_of_neg (by simp), hall, countP_cons]
    · have hne : x.sleeper ≠ q.sleeper := by
        intro heq
        exact hx (mem_map.mpr ⟨q, hq, heq.symm⟩)
      rw [filter_cons_of_pos (by simpa using hne), countP_cons, countP_cons, ih hn hq]
      omega

theorem Queues.unlink (h : Queues sma) (hq : q ∈ sma.semPending) : Queues (unlinkQueue sma q) := by
  have hsub : (unlinkQueue sma q).semPending.Sublist sma.semPending := by
    rw [unlinkQueue_semPending]
    exact filter_sublist
  have hvals := unlinkQueue_values sma q
  refine ⟨fun i => ?_, ?_, h.nodup.sublist (hsub.map _), h.order.sublist hsub,
    fun q' hq' => h.alter q' (hsub.subset hq'), fun q' hq' => h.nonempty q' (hsub.subset hq'),
    fun q' hq' => h.waits q' (hsub.subset hq'), ?_, ?_⟩
  · rw [unlinkQueue_semPending]
    by_cases hlen : q.sops.length = 1
    · have : (unlinkQueue sma q).semSimple i =
          (sma.semSimple i).filter (·.sleeper ≠ q.sleeper) := by
        unfold unlinkQueue
        rw [if_pos hlen]
      rw [this, h.simple, filter_filter, filter_filter]
      congr 1
      funext x
      exact Bool.and_comm ..
    · -- a complex operation is on none of the lists of single ones
      have : (unlinkQueue sma q).semSimple i = sma.semSimple i := by
        unfold unlinkQueue
        rw [if_neg hlen]
      rw [this, h.simple, filter_filter]
      apply filter_congr
      intro x hx
      by_cases hs : simpleOn i x = true
      · have hne : x.sleeper ≠ q.sleeper := by
          intro heq
          have := inj_on_of_nodup_map h.nodup hx hq heq
          obtain ⟨sop, hsop, -⟩ := simpleOn_iff.mp hs
          rw [← this, hsop] at hlen
          exact hlen rfl
        simp [hne]
      · simp [hs]
  · have hcount := countP_filter_sleeper (·.sops.length ≠ 1) h.nodup hq
    rw [unlinkQueue_complexCount, unlinkQueue_semPending, h.complex]
    split_ifs with hlen <;> simp [hlen] at hcount ⊢ <;> omega
  · rw [hvals.semval]
    exact h.nonneg
  · rw [hvals.semadj]
    exact h.short

end Unlink

end LinuxKernel.Sem
