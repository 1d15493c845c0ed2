import LinuxKernel.Sem.Queue

/-! # What the optimised scan leaves behind

A walk along the queue keeps the operations behind it blocked, or starts again. When
`update_queue` ends, all operations that it was responsible for have to go on sleeping.
-/

namespace LinuxKernel.Sem

open List Prod

variable {sma sma' : SemArray} {q q' : SemQueue} {sop : SemBuf} {semnum : Option ℕ} {i : ℕ}
  {dirty : ℕ → Prop} {l : List SemQueue} {u u' : Update}

/-- A single operation on a semaphore whose list is still to be scanned. -/
def Excused (dirty : ℕ → Prop) (q : SemQueue) : Prop := ∃ sop, q.sops = [sop] ∧ dirty sop.semNum

/-- The state of a walk that has `l` still before it: all other operations are blocked or
excused. A walk along the list of one semaphore is made without complex operations. -/
structure Walking (dirty : ℕ → Prop) (semnum : Option ℕ) (l : List SemQueue) (sma : SemArray) :
    Prop where
  queues : Queues sma
  complex : semnum.isSome → sma.complexCount = 0
  clean : ∀ i ∈ semnum, ¬ dirty i
  sublist : l.Sublist (pendingList sma semnum)
  blocked : ∀ q ∈ sma.semPending, q ∈ l ∨ Blocked sma q ∨ Excused dirty q

theorem pendingList_sublist (h : Queues sma) : (pendingList sma semnum).Sublist sma.semPending := by
  cases semnum with
  | none => exact .refl _
  | some i =>
    rw [pendingList, h.simple]
    exact filter_sublist

theorem Walking.simpleOn (h : Walking dirty (some i) l sma) (hq : q ∈ l) :
    ∃ sop, q.sops = [sop] ∧ sop.semNum = i := by
  have hmem := h.sublist.subset hq
  rw [pendingList, h.queues.simple] at hmem
  exact simpleOn_iff.mp (mem_filter.mp hmem).2

theorem pendingList_unlink (h : Queues sma) (hq : q ∈ sma.semPending) :
    pendingList (unlinkQueue sma q) semnum =
      (pendingList sma semnum).filter (·.sleeper ≠ q.sleeper) := by
  cases semnum with
  | none => exact unlinkQueue_semPending sma q
  | some i =>
    rw [pendingList, pendingList, (h.unlink hq).simple, h.simple, unlinkQueue_semPending,
      filter_filter, filter_filter]
    congr 1
    funext x
    exact Bool.and_comm ..

section Performed

variable {un : ℕ} {pid : ℤ} {sops : List SemBuf}

variable (h : tryAtomicSemop un pid sma sops = (.done, sma'))
include h

theorem tryAtomicSemop_performed :
    SameQueues sma sma' ∧ (∀ i, sma'.semval i = sma.semval i + total sops i) ∧
      (Queues sma → Queues sma') := by
  have hdone : (tryLoop un pid sma [] sops).1 = .done := congrArg fst h
  have hsma : (tryLoop un pid sma [] sops).2 = sma' := congrArg snd h
  obtain ⟨hsame, hval, hpos⟩ := tryLoop_done hdone
  rw [hsma] at hsame hval hpos
  refine ⟨hsame, hval, fun hq => hq.congr hsame (hpos hq.nonneg) fun un' i => ?_⟩
  obtain ⟨hown, hother⟩ := tryAtomicSemop_semadj h
  by_cases hun : un' = un
  · subst hun
    rw [hown i (hq.short un' i), toShort, toShort, Int.bmod_bmod]
  · rw [hother un' hun]
    exact hq.short un' i

/-- An operation array without increments and decrements changes no value. -/
theorem tryAtomicSemop_waits (hq : Queues sma) (h0 : ∀ sop ∈ sops, sop.semOp = 0) :
    SameValues sma sma' := by
  obtain ⟨-, hval, -⟩ := tryAtomicSemop_performed h
  obtain ⟨hown, hother⟩ := tryAtomicSemop_semadj h
  have hsum : ∀ p : SemBuf → Prop, ∀ [DecidablePred p],
      (sops.map fun sop => if p sop then sop.semOp else 0).sum = 0 := by
    intro p _
    apply sum_eq_zero
    intro x hx
    obtain ⟨sop, hsop, rfl⟩ := mem_map.mp hx
    rw [h0 sop hsop, ite_self]
  constructor
  · funext i
    rw [hval, total, hsum, add_zero]
  · funext un' i
    by_cases hun : un' = un
    · subst hun
      rw [hown i (hq.short un' i), undoTotal, hsum, sub_zero, hq.short]
    · rw [hother un' hun]

end Performed

theorem total_singleton : total [sop] i = if sop.semNum = i then sop.semOp else 0 := by
  simp [total]

theorem Blocked.of_semval (hq : q.sops = [sop])
    (hv : sma'.semval sop.semNum = sma.semval sop.semNum)
    (h : Blocked sma q) : Blocked sma' q := by
  rw [blocked_simple hq] at h ⊢
  rwa [hv]

section Step

variable (h : Walking dirty semnum (q :: l) sma)
include h

theorem Walking.mem : q ∈ sma.semPending :=
  (h.sublist.trans (pendingList_sublist h.queues)).subset mem_cons_self

/-- An operation that a walk along the list of one semaphore performs is not a complex one. -/
theorem Walking.complexCount (hsame : SameQueues sma sma') (hs : semnum.isSome) :
    (unlinkQueue sma' q).complexCount = 0 := by
  obtain ⟨i, rfl⟩ := Option.isSome_iff_exists.mp hs
  obtain ⟨sop, hsop, -⟩ := h.simpleOn mem_cons_self
  rw [unlinkQueue_complexCount, hsame.complexCount, h.complex hs, hsop]
  rfl

theorem Walking.rest (hq : q' ∈ sma.semPending) (hne : q'.sleeper ≠ q.sleeper) :
    q' ∈ l ∨ Blocked sma q' ∨ Excused dirty q' :=
  (h.blocked q' hq).imp_left fun hl => (mem_cons.mp hl).resolve_left fun heq => hne (heq ▸ rfl)

/-- The walk goes on after the operation at its head has left the queue. -/
theorem Walking.unlink
    (hb : ∀ q' ∈ sma.semPending, q'.sleeper ≠ q.sleeper →
      q' ∈ l ∨ Blocked sma' q' ∨ Excused dirty q')
    (hsame : SameQueues sma sma') (hq : Queues sma') :
    Walking dirty semnum l (unlinkQueue sma' q) := by
  have hmem : q ∈ sma'.semPending := hsame.semPending ▸ h.mem
  refine ⟨hq.unlink hmem, h.complexCount hsame, h.clean, ?_, fun q' hq' => ?_⟩
  · have hnd := h.queues.nodup.sublist ((h.sublist.trans (pendingList_sublist h.queues)).map _)
    have hl : l.filter (·.sleeper ≠ q.sleeper) = l := by
      rw [filter_eq_self]
      intro y hy
      simp only [decide_not, Bool.not_eq_true', decide_eq_false_iff_not]
      intro heq
      exact (nodup_cons.mp hnd).1 (mem_map.mpr ⟨y, hy, heq⟩)
    have hpl : pendingList sma' semnum = pendingList sma semnum := by
      cases semnum <;> simp only [pendingList, hsame.semPending, hsame.semSimple]
    rw [pendingList_unlink hq hmem, hpl, ← hl]
    exact ((sublist_cons_self q l).trans h.sublist).filter _
  · rw [mem_unlinkQueue, hsame.semPending] at hq'
    rw [blocked_congr (unlinkQueue_values sma' q)]
    exact hb q' hq'.1 hq'.2

theorem Walking.unlink_same (hsame : SameQueues sma sma') (hv : SameValues sma sma') :
    Walking dirty semnum l (unlinkQueue sma' q) := by
  refine h.unlink (fun q' hq' hne => ?_) hsame (h.queues.congr hsame ?_ ?_)
  · rw [blocked_congr hv]
    exact h.rest hq' hne
  · rw [hv.semval]
    exact h.queues.nonneg
  · rw [hv.semadj]
    exact h.queues.short

variable (hdone : tryAtomicSemop q.undo q.pid sma q.sops = (.done, sma'))
include hdone

theorem Walking.restart :
    Walking dirty semnum (pendingList (unlinkQueue sma' q) semnum) (unlinkQueue sma' q) := by
  obtain ⟨hsame, hval, hqueues⟩ := tryAtomicSemop_performed hdone
  have hq' := hqueues h.queues
  have hmem : q ∈ sma'.semPending := hsame.semPending ▸ h.mem
  refine ⟨hq'.unlink hmem, h.complexCount hsame, h.clean, .refl _, fun x hx => ?_⟩
  cases semnum with
  | none => exact .inl hx
  | some i =>
    -- only the value of the semaphore whose list is scanned has changed
    by_cases hxi : Sem.simpleOn i x = true
    · left
      rw [pendingList, (hq'.unlink hmem).simple, mem_filter]
      exact ⟨hx, hxi⟩
    · rw [mem_unlinkQueue, hsame.semPending] at hx
      rcases h.blocked x hx.1 with hl | hb | he
      · exact absurd (simpleOn_iff.mpr (h.simpleOn hl)) hxi
      · right; left
        obtain ⟨sop, hsop, hnum⟩ := h.simpleOn mem_cons_self
        obtain ⟨xsop, hxsop⟩ := h.queues.exists_simple (h.complex rfl) hx.1
        rw [blocked_congr (unlinkQueue_values sma' q)]
        refine hb.of_semval hxsop ?_
        rw [hval, hsop, total_singleton, if_neg, add_zero]
        rintro heq
        exact hxi (simpleOn_iff.mpr ⟨xsop, hxsop, heq.symm.trans hnum⟩)
      · exact .inr (.inr he)

/-- After a single decrement the operations behind the walk stay blocked, unless the value
has become zero and one of them waits for that. -/
theorem Walking.decrement (h0 : sma'.complexCount = 0) (hsop : q.sops = [sop])
    (hneg : sop.semOp < 0)
    (hzero : sma'.semval sop.semNum = 0 → ∀ x ∈ sma.semPending, x.sleeper ≠ q.sleeper →
      ∀ xsop, x.sops = [xsop] → xsop.semNum = sop.semNum → xsop.semOp ≠ 0) :
    Walking dirty semnum l (unlinkQueue sma' q) := by
  obtain ⟨hsame, hval, hqueues⟩ := tryAtomicSemop_performed hdone
  refine h.unlink (fun x hx hne => ?_) hsame (hqueues h.queues)
  rcases h.rest hx hne with hl | hb | he
  · exact .inl hl
  · right; left
    rw [hsame.complexCount] at h0
    obtain ⟨xsop, hxsop⟩ := h.queues.exists_simple h0 hx
    by_cases hnum : xsop.semNum = sop.semNum
    · have hnew := hval sop.semNum
      rw [hsop, total_singleton] at hnew
      rw [blocked_simple hxsop] at hb ⊢
      rw [hnum] at hb ⊢
      have hz := fun hv => hzero hv x hx hne xsop hxsop hnum
      refine ⟨hb.1, ?_⟩
      rcases hb.2 with ⟨hx0, -⟩ | hlt
      · exact .inl ⟨hx0, fun hv => hz hv hx0⟩
      · exact .inr (by omega)
    · refine hb.of_semval hxsop ?_
      rw [hval, hsop, total_singleton, if_neg (Ne.symm hnum), add_zero]
  · exact .inr (.inr he)

/-- No assertion of `check_restart` fails, and when it sees no need to start again there
is none. -/
theorem Walking.checkRestart : ∃ r, checkRestart (unlinkQueue sma' q) q = some r ∧
    (r = false → Walking dirty semnum l (unlinkQueue sma' q)) := by
  obtain ⟨hsame, hval, hqueues⟩ := tryAtomicSemop_performed hdone
  have hq' := hqueues h.queues
  have hmem : q ∈ sma'.semPending := hsame.semPending ▸ h.mem
  have hunl := hq'.unlink hmem
  have hvals := unlinkQueue_values sma' q
  unfold Sem.checkRestart
  by_cases ha : q.alter = false
  · refine ⟨false, if_pos ha, fun _ => h.unlink_same hsame ?_⟩
    apply tryAtomicSemop_waits hdone h.queues
    have := h.queues.alter q h.mem
    rw [ha] at this
    simpa using this.symm
  rw [if_neg ha]
  rw [Bool.not_eq_false] at ha
  by_cases hc : (unlinkQueue sma' q).complexCount ≠ 0
  · exact ⟨true, if_pos hc, nofun⟩
  rw [if_neg hc]
  by_cases hlen : q.sops.length > 1
  · exact ⟨true, if_pos hlen, nofun⟩
  rw [if_neg hlen]
  have hne := h.queues.nonempty q h.mem
  obtain ⟨sop, hsop⟩ : ∃ sop, q.sops = [sop] := by
    rw [← length_eq_one_iff]
    have := length_pos_iff.mpr hne
    omega
  have hneg := h.queues.decrement h.mem hsop ha
  have h0 : sma'.complexCount = 0 := by
    rw [unlinkQueue_complexCount, hsop] at hc
    simpa using hc
  rw [hsop]
  dsimp only
  rw [hvals.semval, hunl.simple]
  rcases hhead : (unlinkQueue sma' q).semPending.filter (Sem.simpleOn sop.semNum) with _ | ⟨x, xs⟩
  · -- nobody waits for this semaphore
    refine ⟨false, rfl, fun _ => h.decrement hdone h0 hsop hneg
      fun _ y hy hne' ysop hysop hnum => ?_⟩
    rw [filter_eq_nil_iff] at hhead
    refine absurd (simpleOn_iff.mpr ⟨ysop, hysop, hnum⟩) (hhead y ?_)
    rw [mem_unlinkQueue, hsame.semPending]
    exact ⟨hy, hne'⟩
  dsimp only
  by_cases hv : sma'.semval sop.semNum ≠ 0
  · rw [if_pos hv, if_neg (by omega)]
    exact ⟨false, rfl, fun _ => h.decrement hdone h0 hsop hneg fun hz => absurd hz hv⟩
  -- the first operation in the list of the semaphore tells whether one waits for zero
  rw [if_neg hv]
  have hx : x ∈ (unlinkQueue sma' q).semPending.filter (Sem.simpleOn sop.semNum) := by
    rw [hhead]
    exact mem_cons_self
  rw [mem_filter, simpleOn_iff] at hx
  obtain ⟨hxmem, xsop, hxsop, hxnum⟩ := hx
  rw [hxsop]
  dsimp only
  rw [if_neg (not_not.mpr hxnum)]
  refine ⟨_, rfl, fun hr => h.decrement hdone h0 hsop hneg fun _ y hy hne' ysop hysop hnum => ?_⟩
  have hxalter : x.alter = true := by
    rw [hunl.alter x hxmem, hxsop]
    simpa using hr
  have hy' : y ∈ (unlinkQueue sma' q).semPending := by
    rw [mem_unlinkQueue, hsame.semPending]
    exact ⟨hy, hne'⟩
  have hord : AltersLast (x :: xs) := by
    rw [← hhead]
    exact hunl.order.sublist filter_sublist
  have hyalter : y.alter = true := by
    have hyl : y ∈ x :: xs := by
      rw [← hhead, mem_filter]
      exact ⟨hy', simpleOn_iff.mpr ⟨ysop, hysop, hnum⟩⟩
    rcases mem_cons.mp hyl with rfl | hyl
    · exact hxalter
    · exact rel_of_pairwise_cons hord hyl hxalter
  exact (hunl.decrement hy' hysop hyalter).ne

end Step

/-- At value zero the decrements at the end of a semaphore's list need no look. -/
theorem Walking.stop (h : Walking dirty (some i) (q :: l) sma) (hz : sma.semval i = 0)
    (ha : q.alter = true) : Walking dirty (some i) [] sma := by
  refine ⟨h.queues, h.complex, h.clean, nil_sublist _, fun x hx => ?_⟩
  rcases h.blocked x hx with hl | hb | he
  · right; left
    have hord : AltersLast (q :: l) :=
      h.queues.order.sublist (h.sublist.trans (pendingList_sublist h.queues))
    have hxa : x.alter = true := by
      rcases mem_cons.mp hl with rfl | hl
      · exact ha
      · exact rel_of_pairwise_cons hord hl ha
    obtain ⟨sop, hsop, hnum⟩ := h.simpleOn hl
    have hneg := h.queues.decrement hx hsop hxa
    rw [blocked_simple hsop]
    refine ⟨(h.queues.waits x hx sop hsop).1, .inr ?_⟩
    rw [hnum]
    omega
  · exact .inr (.inl hb)
  · exact .inr (.inr he)

structure Frame (semnum : Option ℕ) (sma sma' : SemArray) : Prop where
  nsems : sma'.nsems = sma.nsems
  sublist : sma'.semPending.Sublist sma.semPending
  semval : ∀ i ∈ semnum, ∀ j, j ≠ i → sma'.semval j = sma.semval j

theorem Frame.refl (semnum : Option ℕ) (sma : SemArray) : Frame semnum sma sma :=
  ⟨rfl, .refl _, fun _ _ _ _ => rfl⟩

theorem Frame.trans {sma'' : SemArray} (h : Frame semnum sma sma') (h' : Frame semnum sma' sma'') :
    Frame semnum sma sma'' :=
  ⟨h'.nsems.trans h.nsems, h'.sublist.trans h.sublist,
    fun i hi j hj => (h'.semval i hi j hj).trans (h.semval i hi j hj)⟩

theorem frame_unlinkQueue (semnum : Option ℕ) (sma : SemArray) (q : SemQueue) :
    Frame semnum sma (unlinkQueue sma q) := by
  refine ⟨?_, ?_, fun _ _ _ _ => by rw [(unlinkQueue_values sma q).semval]⟩
  · unfold unlinkQueue
    split_ifs <;> rfl
  · rw [unlinkQueue_semPending]
    exact filter_sublist

theorem Walking.frame (h : Walking dirty semnum (q :: l) sma)
    (hdone : tryAtomicSemop q.undo q.pid sma q.sops = (.done, sma')) : Frame semnum sma sma' := by
  obtain ⟨hsame, hval, -⟩ := tryAtomicSemop_performed hdone
  refine ⟨hsame.nsems, by rw [hsame.semPending], fun i hi j hj => ?_⟩
  obtain rfl := Option.mem_def.mp hi
  obtain ⟨sop, hsop, hnum⟩ := h.simpleOn mem_cons_self
  rw [hval, hsop, total_singleton, if_neg (by rw [hnum]; exact Ne.symm hj), add_zero]

theorem length_unlinkQueue_lt (hq : q ∈ sma.semPending) :
    (unlinkQueue sma q).semPending.length < sma.semPending.length := by
  rw [unlinkQueue_semPending]
  exact length_filter_lt_length_iff_exists.mpr ⟨q, hq, by simp⟩

/-- One walk: it leaves everything blocked, or an operation has completed and the walk is
to be repeated. -/
theorem walk_spec (h : Walking dirty semnum l u.sma) :
    ∃ r u', walk semnum l u = some (r, u') ∧ Frame semnum u.sma u'.sma ∧
      (r = false → Walking dirty semnum [] u'.sma) ∧
      (r = true → Walking dirty semnum (pendingList u'.sma semnum) u'.sma ∧
        u'.sma.semPending.length < u.sma.semPending.length) := by
  induction l generalizing u with
  | nil => exact ⟨false, u, rfl, .refl .., fun _ => h, nofun⟩
  | cons q l ih =>
    rw [walk]
    by_cases hstop : semnum.any (fun i => u.sma.semval i = 0) ∧ q.alter = true
    · refine ⟨false, u, if_pos hstop, .refl .., fun _ => ?_, nofun⟩
      obtain ⟨hany, ha⟩ := hstop
      cases semnum with
      | none => simp at hany
      | some i => exact h.stop (by simpa using hany) ha
    rw [if_neg hstop]
    rcases htry : tryAtomicSemop q.undo q.pid u.sma q.sops with ⟨r, sma'⟩
    cases r with
    | sleep =>
      obtain rfl := tryAtomicSemop_fail htry (by simp)
      refine ih ⟨h.queues, h.complex, h.clean, (sublist_cons_self q l).trans h.sublist,
        fun x hx => ?_⟩
      rcases h.blocked x hx with hl | hb | he
      · rcases mem_cons.mp hl with rfl | hl
        · exact .inr (.inl (congrArg fst htry))
        · exact .inl hl
      · exact .inr (.inl hb)
      · exact .inr (.inr he)
    | error e =>
      obtain rfl := tryAtomicSemop_fail htry (by simp)
      obtain ⟨r, u', heq, hframe, hf, ht⟩ := ih (u := { u with
        sma := unlinkQueue u.sma q, tasks := u.tasks ++ [(q, .error e)] })
        (h.unlink_same (.refl _) ⟨rfl, rfl⟩)
      refine ⟨r, u', heq, (frame_unlinkQueue ..).trans hframe, hf, fun hr => ?_⟩
      exact ⟨(ht hr).1, (ht hr).2.trans (length_unlinkQueue_lt h.mem)⟩
    | done =>
      dsimp only
      have hfr := (h.frame htry).trans (frame_unlinkQueue semnum sma' q)
      have hlen : (unlinkQueue sma' q).semPending.length < u.sma.semPending.length := by
        obtain ⟨hsame, -⟩ := tryAtomicSemop_performed htry
        rw [← hsame.semPending]
        exact length_unlinkQueue_lt (hsame.semPending ▸ h.mem)
      obtain ⟨r, hcheck, hgo⟩ := h.checkRestart htry
      rw [hcheck]
      cases r with
      | true =>
        exact ⟨true, _, rfl, hfr, nofun, fun _ => ⟨h.restart htry, hlen⟩⟩
      | false =>
        obtain ⟨r, u', heq, hframe, hf, ht⟩ := ih (u := ⟨unlinkQueue sma' q,
          u.tasks ++ [(q, .done)], true⟩) (hgo rfl)
        exact ⟨r, u', heq, hfr.trans hframe, hf, fun hr => ⟨(ht hr).1, (ht hr).2.trans hlen⟩⟩

theorem walks_spec {fuel : ℕ} (h : Walking dirty semnum (pendingList u.sma semnum) u.sma)
    (hfuel : u.sma.semPending.length < fuel) :
    ∃ u', walks semnum fuel u = some u' ∧ Frame semnum u.sma u'.sma ∧
      Walking dirty semnum [] u'.sma := by
  induction fuel generalizing u with
  | zero => exact absurd hfuel (Nat.not_lt_zero _)
  | succ fuel ih =>
    obtain ⟨r, u', heq, hframe, hf, ht⟩ := walk_spec h
    rw [walks, heq]
    cases r with
    | false => exact ⟨u', rfl, hframe, hf rfl⟩
    | true =>
      obtain ⟨hw, hlt⟩ := ht rfl
      obtain ⟨u'', heq', hframe', hw'⟩ := ih hw (by omega)
      exact ⟨u'', heq', hframe.trans hframe', hw'⟩

theorem updateQueue_full (h : Queues u.sma) (hfull : semnum = none ∨ u.sma.complexCount ≠ 0) :
    ∃ u', updateQueue u semnum = some u' ∧ Queues u'.sma ∧
      ∀ q ∈ u'.sma.semPending, Blocked u'.sma q := by
  have hnone : (if u.sma.complexCount ≠ 0 then none else semnum) = none := by
    rcases hfull with rfl | hc
    · exact ite_self _
    · exact if_pos hc
  have hw : Walking (fun _ => False) none (pendingList u.sma none) u.sma :=
    ⟨h, by simp, by simp, .refl _, fun q hq => .inl hq⟩
  rw [updateQueue, hnone]
  obtain ⟨u', heq, -, hw'⟩ := walks_spec (u := { u with completed := false }) hw
    (Nat.lt_succ_self _)
  refine ⟨u', heq, hw'.queues, fun q hq => ?_⟩
  rcases hw'.blocked q hq with hl | hb | ⟨_, _, hd⟩
  · cases hl
  · exact hb
  · exact hd.elim

theorem updateQueue_one (dirty : ℕ → Prop) (h : Queues u.sma) (hc : u.sma.complexCount = 0)
    (hd : ¬ dirty i)
    (hb : ∀ q ∈ u.sma.semPending, Blocked u.sma q ∨ Excused (fun j => j = i ∨ dirty j) q) :
    ∃ u', updateQueue u (some i) = some u' ∧ Frame (some i) u.sma u'.sma ∧ Queues u'.sma ∧
      u'.sma.complexCount = 0 ∧ ∀ q ∈ u'.sma.semPending, Blocked u'.sma q ∨ Excused dirty q := by
  have hw : Walking dirty (some i) (pendingList u.sma (some i)) u.sma := by
    refine ⟨h, fun _ => hc, fun j hj => ?_, .refl _, fun q hq => ?_⟩
    · obtain rfl := Option.some.inj hj
      exact hd
    · rcases hb q hq with hb | ⟨sop, hsop, rfl | hdirty⟩
      · exact .inr (.inl hb)
      · left
        rw [pendingList, h.simple, mem_filter]
        exact ⟨hq, simpleOn_iff.mpr ⟨sop, hsop, rfl⟩⟩
      · exact .inr (.inr ⟨sop, hsop, hdirty⟩)
  rw [updateQueue, if_neg (not_not.mpr hc)]
  obtain ⟨u', heq, hframe, hw'⟩ := walks_spec (u := { u with completed := false }) hw
    (Nat.lt_succ_self _)
  refine ⟨u', heq, hframe, hw'.queues, hw'.complex rfl, fun q hq => ?_⟩
  rcases hw'.blocked q hq with hl | hb
  · cases hl
  · exact hb

end LinuxKernel.Sem
