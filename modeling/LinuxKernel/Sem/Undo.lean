import LinuxKernel.Base.Run
import LinuxKernel.Sem.Atomic

/-! # Undo accounting

The adjustments of a `sem_undo` are to be minus the sum of the operations that were
performed with `SEM_UNDO`. They are stored in a `short`, and the range test of
`try_atomic_semop` compares every operation with the adjustment from before the call.
The accounting is exact as long as the adjustments after a call still fit. A call is performed
as a whole or not at all, but for the undo range it is not the same as its operations one after
the other.
-/

namespace LinuxKernel.Sem

open List Prod

variable {sma sma' : SemArray} {un un' i : ℕ} {pid : ℤ} {sops done rest : List SemBuf}

theorem undoTotal_cons (sop : SemBuf) (sops : List SemBuf) (i : ℕ) : undoTotal (sop :: sops) i =
    (if sop.semNum = i ∧ sop.semUndo then sop.semOp else 0) + undoTotal sops i := rfl

theorem undoTotal_reverse (sops : List SemBuf) (i : ℕ) :
    undoTotal sops.reverse i = undoTotal sops i := by
  rw [undoTotal, map_reverse, sum_reverse]
  rfl

theorem commitOne_semadj (sop : SemBuf) : (commitOne un pid sma sop).semadj un i =
    if sop.semNum = i ∧ sop.semUndo then toShort (sma.semadj un i - sop.semOp)
    else sma.semadj un i := by
  unfold commitOne SemArray.setAdj
  by_cases hu : sop.semUndo = true
  · rw [if_pos hu]
    by_cases hi : i = sop.semNum
    · subst hi
      simp [hu]
    · simp [Function.update_of_ne hi, Ne.symm hi]
  · simp [hu]

theorem commitOne_semadj_of_ne (sop : SemBuf) (h : un' ≠ un) :
    (commitOne un pid sma sop).semadj un' = sma.semadj un' := by
  unfold commitOne SemArray.setAdj
  split_ifs
  · exact Function.update_of_ne h ..
  · rfl

theorem commit_semadj (h : toShort (sma.semadj un i) = sma.semadj un i) (done : List SemBuf) :
    (commit un pid sma done).semadj un i = toShort (sma.semadj un i - undoTotal done i) := by
  induction done generalizing sma with
  | nil =>
    rw [undoTotal, map_nil, sum_nil, sub_zero, h]
    rfl
  | cons sop done ih =>
    rw [undoTotal_cons]
    have hstep : (commitOne un pid sma sop).semadj un i = _ := commitOne_semadj sop
    split_ifs at hstep ⊢ with hsop
    · rw [commit, foldl_cons, ← commit, ih (by rw [hstep, toShort, toShort, Int.bmod_bmod]),
        hstep, toShort, toShort, Int.bmod_sub_bmod, sub_sub]
      rfl
    · rw [commit, foldl_cons, ← commit, ih (by rw [hstep, h]), hstep, zero_add]

theorem commit_semadj_of_ne (h : un' ≠ un) (done : List SemBuf) :
    (commit un pid sma done).semadj un' = sma.semadj un' := by
  induction done generalizing sma with
  | nil => rfl
  | cons sop done ih =>
    rw [commit, foldl_cons, ← commit, ih, commitOne_semadj_of_ne sop h]

theorem tryLoop_commit (h : (tryLoop un pid sma done rest).1 = .done) :
    ∃ sma', sma'.semadj = sma.semadj ∧
      (tryLoop un pid sma done rest).2 = commit un pid sma' (rest.reverse ++ done) := by
  induction rest generalizing sma done with
  | nil => exact ⟨sma, rfl, rfl⟩
  | cons sop rest ih =>
    rw [tryLoop] at h ⊢
    dsimp only at h ⊢
    split_ifs at h ⊢
    obtain ⟨sma', hadj, heq⟩ := ih h
    refine ⟨sma', hadj, ?_⟩
    rw [heq, reverse_cons, append_assoc, singleton_append]

/-- A call stores the wrapped adjustments of its own `sem_undo` and touches no other. -/
theorem tryAtomicSemop_semadj (h : tryAtomicSemop un pid sma sops = (.done, sma')) :
    (∀ i, toShort (sma.semadj un i) = sma.semadj un i →
      sma'.semadj un i = toShort (sma.semadj un i - undoTotal sops i)) ∧
    ∀ un', un' ≠ un → sma'.semadj un' = sma.semadj un' := by
  have hdone : (tryLoop un pid sma [] sops).1 = .done := congrArg fst h
  obtain ⟨t, hadj, heq⟩ := tryLoop_commit hdone
  have hsma : sma' = commit un pid t (sops.reverse ++ []) := (congrArg snd h).symm.trans heq
  rw [append_nil] at hsma
  constructor
  · intro i hi
    rw [hsma, commit_semadj (by rw [hadj, hi]), hadj, undoTotal_reverse]
  · intro un' hne
    rw [hsma, commit_semadj_of_ne hne, hadj]

/-- An array with the sums of the operations that one `sem_undo` stands for. -/
structure Account where
  sma : SemArray
  taken : ℕ → ℤ

/-- A successful call for the undo list `un`, or anything else that leaves its
adjustments alone. -/
inductive UndoStep (un : ℕ) : Account → Option (List SemBuf) → Account → Prop where
  | call (a : Account) (pid : ℤ) (sops : List SemBuf) (sma' : SemArray) :
      tryAtomicSemop un pid a.sma sops = (.done, sma') →
      UndoStep un a (some sops) ⟨sma', fun i => a.taken i + undoTotal sops i⟩
  | other (a : Account) (sma' : SemArray) : sma'.semadj un = a.sma.semadj un →
      UndoStep un a none ⟨sma', a.taken⟩

/-- The adjustments are exact and within the undo range. -/
def Exact (un : ℕ) (a : Account) : Prop :=
  ∀ i, a.sma.semadj un i = -a.taken i ∧ -semaem - 1 ≤ a.sma.semadj un i ∧ a.sma.semadj un i ≤ semaem

/-- The adjustments after a call fit into the undo range. -/
def Fits (un : ℕ) (a : Account) : Option (List SemBuf) → Prop
  | none => True
  | some sops => ∀ i, -semaem - 1 ≤ a.sma.semadj un i - undoTotal sops i ∧
      a.sma.semadj un i - undoTotal sops i ≤ semaem

theorem toShort_of_range {x : ℤ} (hlo : -semaem - 1 ≤ x) (hhi : x ≤ semaem) : toShort x = x := by
  unfold semaem semvmx at hlo hhi
  apply Int.bmod_eq_of_le <;> norm_num <;> omega

variable {a a' : Account} {l : Option (List SemBuf)} {ls : List (Option (List SemBuf))}

/-- A step keeps the accounting exact precisely when the new adjustments fit. -/
theorem UndoStep.exact_iff (hs : UndoStep un a l a') (h : Exact un a) :
    Exact un a' ↔ Fits un a l := by
  cases hs with
  | other sma' hadj =>
    refine ⟨fun _ => trivial, fun _ i => ?_⟩
    rw [hadj]
    exact h i
  | call pid sops sma' hcall =>
    have hnew : ∀ i, sma'.semadj un i = toShort (a.sma.semadj un i - undoTotal sops i) :=
      fun i => (tryAtomicSemop_semadj hcall).1 i (toShort_of_range (h i).2.1 (h i).2.2)
    constructor
    · intro h' i
      obtain ⟨heq, hlo, hhi⟩ := h' i
      have hold := (h i).1
      dsimp only at heq hlo hhi
      exact ⟨by omega, by omega⟩
    · intro hfit i
      obtain ⟨hlo, hhi⟩ := hfit i
      rw [hnew, toShort_of_range hlo hhi, (h i).1]
      rw [(h i).1] at hlo hhi
      exact ⟨by ring, hlo, hhi⟩

def FittingStep (un : ℕ) (a : Account) (l : Option (List SemBuf)) (a' : Account) : Prop :=
  UndoStep un a l a' ∧ Fits un a l

/-- The accounting starts with a fresh `sem_undo`, which `find_alloc_undo` clears. -/
def Account.fresh (un : ℕ) (a : Account) : Prop := ∀ i, a.sma.semadj un i = 0 ∧ a.taken i = 0

theorem Account.fresh.exact (h : a.fresh un) : Exact un a := by
  intro i
  obtain ⟨hadj, htaken⟩ := h i
  rw [hadj, htaken]
  exact ⟨rfl, by decide, by decide⟩

/-- In a run of calls whose adjustments all fit the accounting stays exact, and it is lost
by the first call whose adjustments do not fit. -/
theorem semadj_exact (h₀ : a.fresh un) (hrun : Run (FittingStep un) a ls a') :
    Exact un a' ∧ ∀ l a'', UndoStep un a' l a'' → (Exact un a'' ↔ Fits un a' l) := by
  have hexact : Exact un a' := hrun.invariant (fun h hs => (hs.1.exact_iff h).mpr hs.2) h₀.exact
  exact ⟨hexact, fun l a'' hs => hs.exact_iff hexact⟩

def emptyArray : SemArray where
  nsems := 1
  semval _ := 0
  sempid _ := 0
  semSimple _ := []
  semPending := []
  complexCount := 0
  semadj _ _ := 0
  semOtime := 0

/-- Three operations in one call that each pass the range test. -/
def threeOps : List SemBuf :=
  [⟨0, 30000, true, false⟩, ⟨0, -30000, false, false⟩, ⟨0, 30000, true, false⟩]

/-- The call is performed and the adjustment of -60000 wraps around to 5536. -/
theorem semadj_wraps :
    ∃ a, UndoStep 7 ⟨emptyArray, fun _ => 0⟩ (some threeOps) a ∧ a.taken 0 = 60000 ∧
      a.sma.semadj 7 0 = 5536 ∧ ¬ Exact 7 a := by
  have hdone : (tryAtomicSemop 7 1 emptyArray threeOps).1 = .done := by decide
  refine ⟨_, .call _ 1 threeOps (tryAtomicSemop 7 1 emptyArray threeOps).2
    (Prod.ext hdone rfl), by decide, by decide, fun h => ?_⟩
  exact absurd (h 0).1 (by decide)

/-- A call that takes three from a semaphore and gives two back. -/
theorem semadj_exact_small :
    ∃ a, Run (FittingStep 7) ⟨emptyArray, fun _ => 0⟩
      [some [⟨0, 3, true, false⟩, ⟨0, -2, true, false⟩]] a ∧ Exact 7 a := by
  have hdone : (tryAtomicSemop 7 1 emptyArray
      [⟨0, 3, true, false⟩, ⟨0, -2, true, false⟩]).1 = .done := by decide
  have hfits : Fits 7 ⟨emptyArray, fun _ => 0⟩
      (some [⟨0, 3, true, false⟩, ⟨0, -2, true, false⟩]) := by
    intro i
    by_cases hi : i = 0
    · subst hi
      decide
    · simp [undoTotal, Ne.symm hi, emptyArray, semaem, semvmx]
  have hcall := UndoStep.call ⟨emptyArray, fun _ => 0⟩ 1 _ _ (Prod.ext hdone rfl)
  have hstep : FittingStep 7 _ _ _ := ⟨hcall, hfits⟩
  have hrun := Run.cons hstep (Run.nil _)
  exact ⟨_, hrun, (semadj_exact (fun _ => ⟨rfl, rfl⟩) hrun).1⟩

section Sequential

/-- One operation by itself with its adjustment, without any test. -/
def perform (un : ℕ) (sma : SemArray) (sop : SemBuf) : SemArray :=
  let sma := sma.setVal sop.semNum (sma.semval sop.semNum + sop.semOp)
  if sop.semUndo then sma.setAdj un sop.semNum (sma.semadj un sop.semNum - sop.semOp) else sma

/-- The operation neither has to wait nor takes the value out of its range. -/
def ValFits (sma : SemArray) (sop : SemBuf) : Prop :=
  (sop.semOp = 0 → sma.semval sop.semNum = 0) ∧ 0 ≤ sma.semval sop.semNum + sop.semOp ∧
    sma.semval sop.semNum + sop.semOp ≤ semvmx

/-- The operation does not take the adjustment out of the undo range. -/
def UndoFits (un : ℕ) (sma : SemArray) (sop : SemBuf) : Prop :=
  sop.semUndo = true → -semaem - 1 ≤ sma.semadj un sop.semNum - sop.semOp ∧
    sma.semadj un sop.semNum - sop.semOp ≤ semaem

/-- Every operation meets a condition when they are performed one after the other. -/
def Along (un : ℕ) (P : SemArray → SemBuf → Prop) : SemArray → List SemBuf → Prop
  | _, [] => True
  | sma, sop :: rest => P sma sop ∧ Along un P (perform un sma sop) rest

variable {P Q : SemArray → SemBuf → Prop} {sop : SemBuf} {r : Result}

theorem along_and : Along un (fun sma sop => P sma sop ∧ Q sma sop) sma sops ↔
    Along un P sma sops ∧ Along un Q sma sops := by
  induction sops generalizing sma with
  | nil => exact (and_iff_left trivial).symm
  | cons sop rest ih =>
    simp only [Along, ih]
    exact and_and_and_comm

theorem perform_semval :
    (perform un sma sop).semval =
      (sma.setVal sop.semNum (sma.semval sop.semNum + sop.semOp)).semval := by
  unfold perform
  split_ifs <;> rfl

theorem along_valFits_congr (h : sma'.semval = sma.semval) :
    Along un ValFits sma' sops ↔ Along un ValFits sma sops := by
  induction sops generalizing sma sma' with
  | nil => exact Iff.rfl
  | cons sop rest ih =>
    have hnext : (perform un sma' sop).semval = (perform un sma sop).semval := by
      simp only [perform_semval, SemArray.setVal, h]
    simp only [Along, ValFits, h, ih hnext]

theorem valFits_iff : ValFits sma sop ↔
    ¬ (sop.semOp = 0 ∧ sma.semval sop.semNum ≠ 0 ∨ sma.semval sop.semNum + sop.semOp < 0) ∧
      ¬ sma.semval sop.semNum + sop.semOp > semvmx := by
  unfold ValFits
  omega

theorem undoFits_iff : UndoFits un sma sop ↔
    ¬ (sop.semUndo = true ∧ (sma.semadj un sop.semNum - sop.semOp < -semaem - 1 ∨
      sma.semadj un sop.semNum - sop.semOp > semaem)) := by
  rw [not_and, not_or, not_lt, not_lt]
  exact Iff.rfl

/-- The loop tests the values as the operations change them, and the adjustments as they are
stored. -/
theorem tryLoop_done_iff : (tryLoop un pid sma done rest).1 = .done ↔
    Along un ValFits sma rest ∧ ∀ sop ∈ rest, UndoFits un sma sop := by
  induction rest generalizing sma done with
  | nil => simp [tryLoop, Along]
  | cons sop rest ih =>
    have hundo : ∀ {v : ℤ}, UndoFits un (sma.setVal sop.semNum v) = UndoFits un sma := rfl
    rw [tryLoop, Along, forall_mem_cons, along_valFits_congr perform_semval, valFits_iff,
      undoFits_iff]
    dsimp only
    split_ifs with hwait hnowait hbig hadj
    · simp [hwait]
    · simp [hwait]
    · simp [hbig]
    · simp [hadj]
    · rw [ih]
      tauto

/-- The operations on a semaphore that are to be undone on exit, in turn. -/
def undoOps (sops : List SemBuf) (i : ℕ) : List ℤ :=
  (sops.filter fun sop => sop.semNum = i ∧ sop.semUndo).map (·.semOp)

def InUndoRange (x : ℤ) : Prop := -semaem - 1 ≤ x ∧ x ≤ semaem

/-- Each operation by itself respects the undo range. -/
def Alone (adj : ℕ → ℤ) (sops : List SemBuf) : Prop :=
  ∀ i, ∀ x ∈ undoOps sops i, InUndoRange (adj i - x)

/-- The running sums respect the undo range. -/
def Running (adj : ℕ → ℤ) (sops : List SemBuf) : Prop :=
  ∀ i p, p <+: undoOps sops i → p ≠ [] → InUndoRange (adj i - p.sum)

theorem forall_undoFits_iff :
    (∀ sop ∈ sops, UndoFits un sma sop) ↔ Alone (sma.semadj un) sops := by
  simp only [Alone, undoOps, mem_map, mem_filter, decide_eq_true_eq]
  constructor
  · rintro h i x ⟨sop, ⟨hsop, rfl, hundo⟩, rfl⟩
    exact h sop hsop hundo
  · intro h sop hsop hundo
    exact h sop.semNum sop.semOp ⟨sop, ⟨hsop, rfl, hundo⟩, rfl⟩

theorem undoOps_cons (sop : SemBuf) (i : ℕ) : undoOps (sop :: rest) i =
    if sop.semNum = i ∧ sop.semUndo then sop.semOp :: undoOps rest i else undoOps rest i := by
  simp only [undoOps, filter_cons, decide_eq_true_eq]
  split_ifs <;> rfl

theorem perform_semadj (i : ℕ) : (perform un sma sop).semadj un i =
    if sop.semNum = i ∧ sop.semUndo then sma.semadj un i - sop.semOp else sma.semadj un i := by
  unfold perform SemArray.setAdj
  by_cases hu : sop.semUndo = true
  · rw [if_pos hu]
    by_cases hi : i = sop.semNum
    · subst hi
      simp [hu, SemArray.setVal]
    · simp [Function.update_of_ne hi, Ne.symm hi, SemArray.setVal]
  · simp [hu, SemArray.setVal]

theorem along_undoFits_iff :
    Along un (UndoFits un) sma sops ↔ Running (sma.semadj un) sops := by
  induction sops generalizing sma with
  | nil => simp [Along, Running, undoOps]
  | cons sop rest ih =>
    rw [Along, ih]
    constructor
    · rintro ⟨hsop, hrest⟩ i p hp hne
      have hnext := hrest i
      rw [undoOps_cons] at hp
      rw [perform_semadj] at hnext
      split_ifs at hp hnext with hi
      · obtain ⟨rfl, hu⟩ := hi
        obtain ⟨q, rfl, hq⟩ := (prefix_cons_iff.mp hp).resolve_left hne
        rw [sum_cons, ← sub_sub]
        rcases eq_or_ne q [] with rfl | hq'
        · rw [sum_nil, sub_zero]
          exact hsop hu
        · exact hnext q hq hq'
      · exact hnext p hp hne
    · refine fun h => ⟨fun hu => ?_, fun i p hp hne => ?_⟩
      · have hp := h sop.semNum [sop.semOp] (by simp [undoOps_cons, hu]) (by simp)
        rwa [sum_singleton] at hp
      · have hi := h i
        rw [undoOps_cons] at hi
        rw [perform_semadj]
        split_ifs at hi ⊢
        · have hx := hi (sop.semOp :: p) (prefix_cons_inj _ |>.mpr hp) (by simp)
          rwa [sum_cons, ← sub_sub] at hx
        · exact hi p hp hne

/-- Several operations on one semaphore leave the undo range together, but none does by itself. -/
def Missed (adj : ℕ → ℤ) (sops : List SemBuf) : Prop :=
  Alone adj sops ∧ ∃ i p, p <+: undoOps sops i ∧ 2 ≤ p.length ∧ ¬ InUndoRange (adj i - p.sum)

/-- A repeated operation leaves the undo range by itself, but not after the ones before it. -/
def Refused (adj : ℕ → ℤ) (sops : List SemBuf) : Prop :=
  Running adj sops ∧ ∃ i, ∃ x ∈ (undoOps sops i).tail, ¬ InUndoRange (adj i - x)

theorem missed_iff {adj : ℕ → ℤ} : Missed adj sops ↔ Alone adj sops ∧ ¬ Running adj sops := by
  refine and_congr_right fun halone => ⟨?_, fun h => ?_⟩
  · rintro ⟨i, p, hp, hlen, hout⟩ hrun
    exact hout (hrun i p hp (by rintro rfl; simp at hlen))
  · unfold Running at h
    push Not at h
    obtain ⟨i, p, hp, hne, hout⟩ := h
    refine ⟨i, p, hp, ?_, hout⟩
    -- a single operation is in the range
    by_contra hlen
    obtain ⟨x, rfl⟩ : ∃ x, p = [x] := length_eq_one_iff.mp (by
      have := length_pos_iff.mpr hne
      omega)
    exact hout (by simpa using halone i x (hp.subset (mem_singleton_self x)))

theorem refused_iff {adj : ℕ → ℤ} : Refused adj sops ↔ Running adj sops ∧ ¬ Alone adj sops := by
  refine and_congr_right fun hrun => ⟨?_, fun h => ?_⟩
  · rintro ⟨i, x, hx, hout⟩ halone
    exact hout (halone i x (mem_of_mem_tail hx))
  · unfold Alone at h
    push Not at h
    obtain ⟨i, x, hx, hout⟩ := h
    refine ⟨i, x, ?_, hout⟩
    -- the first operation is in the range
    cases hops : undoOps sops i with
    | nil => simp [hops] at hx
    | cons y l =>
      rw [hops] at hx
      refine (mem_cons.mp hx).resolve_left fun hxy => hout ?_
      have hy := hrun i [y] (by simp [hops]) (by simp)
      rwa [sum_singleton, ← hxy] at hy

theorem foldl_perform_semval (i : ℕ) :
    (sops.foldl (perform un) sma).semval i = sma.semval i + total sops i := by
  induction sops generalizing sma with
  | nil => simp [total]
  | cons sop rest ih =>
    rw [foldl_cons, ih, perform_semval, total, total, map_cons, sum_cons]
    by_cases hi : sop.semNum = i
    · subst hi
      rw [setVal_semval_self, if_pos rfl, add_assoc]
    · rw [setVal_semval_of_ne (Ne.symm hi), if_neg hi, zero_add]

theorem Along.semval_le (h : Along un ValFits sma sops) {i : ℕ}
    (hi : 0 ≤ sma.semval i ∧ sma.semval i ≤ semvmx) :
    0 ≤ (sops.foldl (perform un) sma).semval i ∧
      (sops.foldl (perform un) sma).semval i ≤ semvmx := by
  induction sops generalizing sma with
  | nil => exact hi
  | cons sop rest ih =>
    refine ih h.2 ?_
    rw [perform_semval]
    by_cases hn : i = sop.semNum
    · subst hn
      rw [setVal_semval_self]
      exact h.1.2
    · rwa [setVal_semval_of_ne hn]

/-- An operation array is performed as a whole or not at all. It is performed precisely when its
operations pass one after the other, unless repeated operations on a semaphore leave the undo range
only together or only by themselves. -/
theorem try_atomic_semop_all_or_nothing
    (hval : ∀ i < sma.nsems, 0 ≤ sma.semval i ∧ sma.semval i ≤ semvmx)
    (h : tryAtomicSemop un pid sma sops = (r, sma')) :
    (r ≠ .done → sma'.semval = sma.semval ∧ sma'.sempid = sma.sempid ∧ sma'.semadj = sma.semadj) ∧
    (r = .done → sma'.semval = (sops.foldl (perform un) sma).semval ∧
      ∀ i < sma.nsems, 0 ≤ sma'.semval i ∧ sma'.semval i ≤ semvmx) ∧
    ((r = .done ↔ Along un (fun sma sop => ValFits sma sop ∧ UndoFits un sma sop) sma sops) ↔
      (Along un ValFits sma sops →
        ¬ Missed (sma.semadj un) sops ∧ ¬ Refused (sma.semadj un) sops)) := by
  obtain rfl : (tryLoop un pid sma [] sops).1 = r := congrArg fst h
  obtain rfl : (tryLoop un pid sma [] sops).2 = sma' := congrArg snd h
  refine ⟨fun hr => ?_, fun hr => ?_, ?_⟩
  · rw [tryLoop_fail hr]
    exact ⟨rfl, rfl, rfl⟩
  · have hsame : (tryLoop un pid sma [] sops).2.semval = (sops.foldl (perform un) sma).semval :=
      funext fun i => ((tryLoop_done hr).2.1 i).trans (foldl_perform_semval i).symm
    refine ⟨hsame, fun i hi => ?_⟩
    rw [hsame]
    exact (tryLoop_done_iff.mp hr).1.semval_le (hval i hi)
  · rw [tryLoop_done_iff, along_and, forall_undoFits_iff, along_undoFits_iff, missed_iff,
      refused_iff]
    tauto

/-- The call of three operations is performed though the third adjustment does not fit. -/
theorem try_atomic_semop_undo_missed : (tryAtomicSemop 7 1 emptyArray threeOps).1 = .done ∧
    ¬ Along 7 (fun sma sop => ValFits sma sop ∧ UndoFits 7 sma sop) emptyArray threeOps := by
  refine ⟨by decide, ?_⟩
  simp only [Along, ValFits, UndoFits, threeOps]
  decide

/-- Two operations of which the second has to wait. -/
theorem try_atomic_semop_all_or_nothing_small :
    (tryAtomicSemop 7 1 emptyArray [⟨0, 3, true, false⟩, ⟨0, 0, false, false⟩]).1 = .sleep ∧
    (tryAtomicSemop 7 1 emptyArray [⟨0, 3, true, false⟩, ⟨0, 0, false, false⟩]).2.semval =
      emptyArray.semval := by
  have hval : ∀ i < emptyArray.nsems, 0 ≤ emptyArray.semval i ∧ emptyArray.semval i ≤ semvmx :=
    fun i hi => by
      show 0 ≤ 0 ∧ 0 ≤ semvmx
      decide
  exact ⟨by decide, ((try_atomic_semop_all_or_nothing hval rfl).1 (by decide)).1⟩

end Sequential

end LinuxKernel.Sem
