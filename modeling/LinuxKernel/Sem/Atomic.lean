import Mathlib.Tactic
import LinuxKernel.Sem.Model

/-! # Atomic operation arrays

`try_atomic_semop` performs all operations of an array or none. Whether a sleeping
operation can go on depends only on the values and the adjustments, and for a single
operation only on the value of its semaphore.
-/

namespace LinuxKernel.Sem

variable {sma sma' : SemArray} {un : ℕ} {pid : ℤ} {sops done rest : List SemBuf} {sop : SemBuf}

section Fields

variable {i j : ℕ} {v : ℤ}

@[simp] theorem setVal_semval_self : (sma.setVal i v).semval i = v := Function.update_self ..

theorem setVal_semval_of_ne (h : j ≠ i) : (sma.setVal i v).semval j = sma.semval j :=
  Function.update_of_ne h ..

theorem setVal_setVal {w : ℤ} : (sma.setVal i v).setVal i w = sma.setVal i w := by
  simp [SemArray.setVal]

theorem setVal_self : sma.setVal i (sma.semval i) = sma := by
  simp [SemArray.setVal]

end Fields

theorem revert_cons : revert (sma.setVal sop.semNum (sma.semval sop.semNum + sop.semOp))
    (sop :: done) = revert sma done := by
  rw [revert, List.foldl_cons, setVal_semval_self, setVal_setVal, add_sub_cancel_right, setVal_self]
  rfl

theorem tryLoop_fail (h : (tryLoop un pid sma done rest).1 ≠ .done) :
    (tryLoop un pid sma done rest).2 = revert sma done := by
  induction rest generalizing sma done with
  | nil => exact absurd rfl h
  | cons sop rest ih =>
    rw [tryLoop] at h ⊢
    dsimp only at h ⊢
    split_ifs at h ⊢
    · rfl
    · rfl
    · rfl
    · rfl
    · rw [ih h, revert_cons]

theorem tryAtomicSemop_fail {r : Result} (h : tryAtomicSemop un pid sma sops = (r, sma'))
    (hr : r ≠ .done) : sma' = sma := by
  have hfail : (tryLoop un pid sma [] sops).2 = sma :=
    tryLoop_fail (by rw [← tryAtomicSemop, h]; exact hr)
  rwa [← tryAtomicSemop, h] at hfail

structure SameValues (sma sma' : SemArray) : Prop where
  semval : sma'.semval = sma.semval
  semadj : sma'.semadj = sma.semadj

theorem tryLoop_congr {done' : List SemBuf} (h : SameValues sma sma') :
    (tryLoop un pid sma' done' rest).1 = (tryLoop un pid sma done rest).1 := by
  induction rest generalizing sma sma' done done' with
  | nil => rfl
  | cons sop rest ih =>
    have hnext : SameValues (sma.setVal sop.semNum (sma.semval sop.semNum + sop.semOp))
        (sma'.setVal sop.semNum (sma'.semval sop.semNum + sop.semOp)) := by
      constructor
      · simp only [SemArray.setVal, h.semval]
      · exact h.semadj
    rw [tryLoop, tryLoop]
    simp only [h.semval, h.semadj] at hnext ⊢
    split_ifs
    · rfl
    · rfl
    · rfl
    · rfl
    · exact ih hnext

/-- A sleeping operation that has to go on sleeping. -/
def Blocked (sma : SemArray) (q : SemQueue) : Prop :=
  (tryAtomicSemop q.undo q.pid sma q.sops).1 = .sleep

theorem blocked_congr {q : SemQueue} (h : SameValues sma sma') :
    Blocked sma' q ↔ Blocked sma q := by
  rw [Blocked, Blocked, tryAtomicSemop, tryAtomicSemop, tryLoop_congr h]

/-- A single operation has to sleep if it waits for zero and the value is not zero, or if
it would make the value negative. -/
theorem blocked_simple {q : SemQueue} (hq : q.sops = [sop]) : Blocked sma q ↔
    sop.ipcNowait = false ∧ (sop.semOp = 0 ∧ sma.semval sop.semNum ≠ 0 ∨
      sma.semval sop.semNum + sop.semOp < 0) := by
  rw [Blocked, tryAtomicSemop, hq, tryLoop]
  dsimp only
  split_ifs with h₁ h₂ h₃ h₄
  · simp [h₂]
  · simp [h₂, h₁]
  all_goals simp [h₁, tryLoop]

/-- The sum of the operations on a semaphore. -/
def total (sops : List SemBuf) (i : ℕ) : ℤ :=
  (sops.map fun sop => if sop.semNum = i then sop.semOp else 0).sum

/-- The sum of the operations on a semaphore that are to be undone on exit. -/
def undoTotal (sops : List SemBuf) (i : ℕ) : ℤ :=
  (sops.map fun sop => if sop.semNum = i ∧ sop.semUndo then sop.semOp else 0).sum

structure SameQueues (sma sma' : SemArray) : Prop where
  nsems : sma'.nsems = sma.nsems
  semPending : sma'.semPending = sma.semPending
  semSimple : sma'.semSimple = sma.semSimple
  complexCount : sma'.complexCount = sma.complexCount

theorem SameQueues.refl (sma : SemArray) : SameQueues sma sma := ⟨rfl, rfl, rfl, rfl⟩

theorem SameQueues.trans {sma'' : SemArray} (h : SameQueues sma sma') (h' : SameQueues sma' sma'') :
    SameQueues sma sma'' :=
  ⟨h'.nsems.trans h.nsems, h'.semPending.trans h.semPending, h'.semSimple.trans h.semSimple,
    h'.complexCount.trans h.complexCount⟩

theorem setVal_queues (sma : SemArray) (i : ℕ) (v : ℤ) : SameQueues sma (sma.setVal i v) :=
  ⟨rfl, rfl, rfl, rfl⟩

theorem commitOne_queues (sma : SemArray) (sop : SemBuf) :
    SameQueues sma (commitOne un pid sma sop) ∧ (commitOne un pid sma sop).semval = sma.semval := by
  unfold commitOne
  split_ifs <;> exact ⟨⟨rfl, rfl, rfl, rfl⟩, rfl⟩

theorem commit_queues (sma : SemArray) (done : List SemBuf) :
    SameQueues sma (commit un pid sma done) ∧ (commit un pid sma done).semval = sma.semval := by
  induction done generalizing sma with
  | nil => exact ⟨.refl _, rfl⟩
  | cons sop done ih =>
    obtain ⟨hq, hv⟩ := commitOne_queues sma sop
    obtain ⟨hq', hv'⟩ := ih (commitOne un pid sma sop)
    exact ⟨hq.trans hq', hv'.trans hv⟩

theorem tryLoop_done (h : (tryLoop un pid sma done rest).1 = .done) :
    SameQueues sma (tryLoop un pid sma done rest).2 ∧
      (∀ i, (tryLoop un pid sma done rest).2.semval i = sma.semval i + total rest i) ∧
      ((∀ i, 0 ≤ sma.semval i) → ∀ i, 0 ≤ (tryLoop un pid sma done rest).2.semval i) := by
  induction rest generalizing sma done with
  | nil =>
    obtain ⟨hq, hv⟩ := commit_queues sma done
    rw [tryLoop]
    rw [hv]
    exact ⟨hq, fun i => by simp [total], fun h => h⟩
  | cons sop rest ih =>
    rw [tryLoop] at h ⊢
    dsimp only at h ⊢
    split_ifs at h ⊢ with h₁ h₂ h₃
    obtain ⟨hq, hv, hpos⟩ := ih h
    refine ⟨(setVal_queues ..).trans hq, fun i => ?_, fun hge => hpos fun i => ?_⟩
    · rw [hv, total, total, List.map_cons, List.sum_cons]
      by_cases hi : sop.semNum = i
      · subst hi
        rw [setVal_semval_self, if_pos rfl, add_assoc]
      · rw [setVal_semval_of_ne (Ne.symm hi), if_neg hi, zero_add]
    · by_cases hi : i = sop.semNum
      · subst hi
        rw [setVal_semval_self]
        exact not_lt.mp (not_or.mp h₁).2
      · rw [setVal_semval_of_ne hi]
        exact hge i

end LinuxKernel.Sem
