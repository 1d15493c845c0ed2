import LinuxKernel.Base.Walk
import LinuxKernel.Locks.Waiters

/-! # Deadlock detection

An owner waits for the owner of the lock that blocks its request. If every owner has at most one
blocked request, the loop of `posix_locks_deadlock` follows this relation for eleven steps, so
that no cycle of twelve or fewer owners is ever closed.
-/

namespace LinuxKernel.Locks

open List Function

variable {ω : Type*} {s t : State ω} {o o' : ω}

/-- A request of the first owner is blocked by a lock of the second. -/
def WaitsFor (s : State ω) (o o' : ω) : Prop :=
  ∃ w ∈ s.blocked, w.request.flOwner = o ∧
    ∃ fl ∈ s.iFlock w.inode, fl.id = w.flNext ∧ fl.flOwner = o'

def OnePerOwner (s : State ω) : Prop := (s.blocked.map (·.request.flOwner)).Nodup

variable [DecidableEq ω] {caller block fl r : FileLock ω} {fuel i k : ℕ}

theorem waitsFor_of_some (h : whatOwnerIsWaitingFor s block = some fl) :
    WaitsFor s block.flOwner fl.flOwner := by
  rw [whatOwnerIsWaitingFor] at h
  rcases hw : s.blocked.find? fun w => posixSameOwner w.request block with _ | w
  · rw [hw] at h
    cases h
  · rw [hw] at h
    have hown : posixSameOwner w.request block = true := by simpa using find?_some hw
    have hid := find?_some h
    exact ⟨w, mem_of_find?_eq_some hw, of_decide_eq_true hown, fl,
      mem_of_find?_eq_some h, of_decide_eq_true hid, rfl⟩

theorem find?_of_nodup_map {α β : Type*} {l : List α} {f : α → β} {p : α → Bool} {a : α}
    (h : (l.map f).Nodup) (ha : a ∈ l) (hp : ∀ b, p b = true ↔ f b = f a) :
    l.find? p = some a := by
  rcases hf : l.find? p with _ | b
  · exact (find?_eq_none.mp hf a ha ((hp a).mpr rfl)).elim
  · have hb := (hp b).mp (find?_some hf)
    exact congrArg some (inj_on_of_nodup_map h (mem_of_find?_eq_some hf) ha hb)

theorem some_of_waitsFor (hone : OnePerOwner s) (hids : ∀ j, ((s.iFlock j).map (·.id)).Nodup)
    (h : WaitsFor s block.flOwner o') :
    ∃ fl, whatOwnerIsWaitingFor s block = some fl ∧ fl.flOwner = o' := by
  obtain ⟨w, hw, hown, fl, hfl, hid, rfl⟩ := h
  have hfind : (s.blocked.find? fun w => posixSameOwner w.request block) = some w :=
    find?_of_nodup_map hone hw fun w' => by rw [posixSameOwner, decide_eq_true_eq, hown]
  have hlock : (s.iFlock w.inode).find? (·.id = w.flNext) = some fl :=
    find?_of_nodup_map (hids w.inode) hfl fun fl' => by rw [decide_eq_true_eq, hid]
  refine ⟨fl, ?_, rfl⟩
  rw [whatOwnerIsWaitingFor, hfind]
  exact hlock

section Loop

theorem deadlockLoop_sound (h : deadlockLoop s caller fuel i block = some true) :
    ∃ n, Walk (WaitsFor s) (n + 1) block.flOwner caller.flOwner := by
  induction fuel generalizing i block with
  | zero => cases h
  | succ fuel ih =>
    rw [deadlockLoop] at h
    rcases hw : whatOwnerIsWaitingFor s block with _ | fl
    · rw [hw] at h
      cases h
    · rw [hw] at h
      dsimp only at h
      split_ifs at h with hi hown
      · cases h
      · refine ⟨0, .single ?_⟩
        rw [of_decide_eq_true hown]
        exact waitsFor_of_some hw
      · obtain ⟨n, hn⟩ := ih h
        exact ⟨n + 1, .cons (waitsFor_of_some hw) hn⟩

/-- A chain that ends at the caller before the iterations do is found. -/
theorem deadlockLoop_detects (hone : OnePerOwner s)
    (hids : ∀ j, ((s.iFlock j).map (·.id)).Nodup)
    (hwalk : Walk (WaitsFor s) (k + 1) block.flOwner caller.flOwner)
    (hi : i + k ≤ maxDeadlkIterations) (hfuel : k + 1 ≤ fuel) :
    deadlockLoop s caller fuel i block = some true := by
  induction k generalizing i block fuel with
  | zero =>
    obtain ⟨fuel, rfl⟩ := Nat.exists_eq_add_of_le' hfuel
    rcases hwalk with _ | ⟨hedge, hnil⟩
    cases hnil
    obtain ⟨fl, hw, hown⟩ := some_of_waitsFor hone hids hedge
    rw [deadlockLoop, hw]
    dsimp only
    have hsame : posixSameOwner caller fl = true := decide_eq_true hown.symm
    rw [if_neg (by omega), if_pos hsame]
  | succ k ih =>
    obtain ⟨fuel, rfl⟩ := Nat.exists_eq_add_of_le' (le_trans (by omega) hfuel : 1 ≤ fuel)
    rcases hwalk with _ | ⟨hedge, hrest⟩
    obtain ⟨fl, hw, rfl⟩ := some_of_waitsFor hone hids hedge
    rw [deadlockLoop, hw]
    dsimp only
    rw [if_neg (by omega)]
    split_ifs
    · rfl
    · exact ih hrest (by omega) (by omega)

/-- The loop ends after at most `k + 1` more rounds. -/
theorem deadlockLoop_total (block : FileLock ω) (hk : i + k = maxDeadlkIterations + 1) :
    ∃ v, ∀ fuel, k + 1 ≤ fuel → deadlockLoop s caller fuel i block = some v := by
  induction k generalizing i block with
  | zero =>
    refine ⟨false, fun fuel hfuel => ?_⟩
    obtain ⟨fuel, rfl⟩ := Nat.exists_eq_add_of_le' hfuel
    rw [deadlockLoop]
    rcases whatOwnerIsWaitingFor s block with _ | fl
    · rfl
    · exact if_pos (by omega)
  | succ k ih =>
    rcases hw : whatOwnerIsWaitingFor s block with _ | fl
    · refine ⟨false, fun fuel hfuel => ?_⟩
      obtain ⟨fuel, rfl⟩ := Nat.exists_eq_add_of_le' (le_trans (by omega) hfuel : 1 ≤ fuel)
      rw [deadlockLoop, hw]
    · obtain ⟨v, hv⟩ := ih fl (show i + 1 + k = _ by omega)
      refine ⟨if posixSameOwner caller fl then true else v, fun fuel hfuel => ?_⟩
      obtain ⟨fuel, rfl⟩ := Nat.exists_eq_add_of_le' (le_trans (by omega) hfuel : 1 ≤ fuel)
      rw [deadlockLoop, hw]
      dsimp only
      rw [if_neg (by omega)]
      split_ifs
      · rfl
      · exact hv fuel (by omega)

theorem posixLocksDeadlock_eq (hfuel : maxDeadlkIterations + 2 ≤ fuel) :
    deadlockLoop s caller fuel 0 block = some (posixLocksDeadlock s caller block) := by
  obtain ⟨v, hv⟩ := deadlockLoop_total block (zero_add _)
  rw [posixLocksDeadlock, hv _ hfuel, hv _ (le_refl _)]
  rfl

end Loop

section Edges

variable {inode : ℕ} {newFl newFl2 : Option ℕ} {reply : Reply} {conflock : Option (FileLock ω)}

/-- Editing a list only removes edges: the lock that blocks a waiter keeps its owner. -/
theorem waitsFor_of_edit {l : List (FileLock ω)} {woken : List ℕ} (hlinked : Linked s)
    (hnew : NewLocks (s.iFlock inode) newFl newFl2) (hids : (l.map (·.id)).Nodup)
    (he : editLocks (s.iFlock inode) r newFl newFl2 = (reply, l, woken))
    (h : WaitsFor (locksWakeUpBlocks { s with iFlock := update s.iFlock inode l } woken)
      o o') : WaitsFor s o o' := by
  obtain ⟨w, hw, hown, fl, hfl, hid, rfl⟩ := h
  obtain ⟨hw, hidle⟩ := mem_filter.mp hw
  change fl ∈ update s.iFlock inode l w.inode at hfl
  by_cases hi : w.inode = inode
  · rw [hi, update_self] at hfl
    obtain ⟨fl₀, hfl₀, hid₀, -⟩ := hlinked w hw
    have hgrows := editLocks_grows (r := r) hnew (hi ▸ hfl₀)
    rw [he] at hgrows
    rcases hgrows with hwoken | ⟨b, hb, hab⟩
    · exact (of_decide_eq_true hidle (hid₀ ▸ hwoken)).elim
    · have hsame := inj_on_of_nodup_map hids hb hfl ((hab.id.trans hid₀).trans hid.symm)
      exact ⟨w, hw, hown, fl₀, hfl₀, hid₀, hsame ▸ hab.owner.symm⟩
  · rw [update_of_ne hi] at hfl
    exact ⟨w, hw, hown, fl, hfl, hid, rfl⟩

omit [DecidableEq ω] in
theorem waitsFor_insertBlock
    (h : WaitsFor (locksInsertBlock s inode fl r) o o') (hfl : fl ∈ s.iFlock inode)
    (hids : ((s.iFlock inode).map (·.id)).Nodup) :
    WaitsFor s o o' ∨ o = r.flOwner ∧ o' = fl.flOwner := by
  obtain ⟨w, hw, rfl, fl', hfl', hid, rfl⟩ := h
  rcases mem_cons.mp hw with rfl | hw
  · exact .inr ⟨rfl, congrArg _ (inj_on_of_nodup_map hids hfl' hfl hid)⟩
  · exact .inl ⟨w, hw, rfl, fl', hfl', hid, rfl⟩

omit [DecidableEq ω] in
theorem finish_reply (skipped : List (FileLock ω)) (st : Scan ω) (rest : List (FileLock ω))
    (newFl newFl2 : Option ℕ) :
    (finish skipped st rest newFl newFl2).1 ≠ .error .edeadlk := by
  unfold finish
  split_ifs
  · simp
  · simp
  · simp
  · cases newFl <;> simp
  · simp

theorem edeadlk_closes
    (h : posixLockFile s inode r newFl newFl2 = (.error .edeadlk, conflock, t)) :
    ∃ fl, conflock = some fl ∧ ∃ n,
      Walk (WaitsFor (locksInsertBlock s inode fl r)) (n + 1) r.flOwner r.flOwner := by
  generalize hreply : Reply.error .edeadlk = reply at h
  cases posixLockFile_call h with
  | again | sleep | access => cases hreply
  | @deadlock fl hf _ hd =>
    obtain ⟨n, hn⟩ := deadlockLoop_sound ((posixLocksDeadlock_eq (le_refl _)).trans
      (congrArg some hd))
    have hedge : WaitsFor (locksInsertBlock s inode fl r) r.flOwner fl.flOwner :=
      ⟨_, mem_cons_self, rfl, fl, (findConflict_some hf).1, rfl, rfl⟩
    refine ⟨fl, rfl, n + 1, .cons hedge (hn.mono fun a b hab => ?_)⟩
    obtain ⟨w, hw, hrest⟩ := hab
    exact ⟨w, mem_cons_of_mem _ hw, hrest⟩
  | edit _ _ he =>
    have := finish_reply ((s.iFlock inode).takeWhile (others r))
    rw [← hreply] at he
    exact (this _ _ _ _ (congrArg Prod.fst he)).elim

end Edges

section Run

/-- One step, where every owner has at most one blocked request. -/
def SingleStep (s : State ω) (act : Act ω) (t : State ω) : Prop := Step s act t ∧ OnePerOwner t

structure NoShortCycle (s : State ω) : Prop where
  inv : Inv s
  one : OnePerOwner s
  acyclic : AcyclicUpTo (WaitsFor s) 12

theorem NoShortCycle.step {act : Act ω} (h : NoShortCycle s) (hst : SingleStep s act t) :
    NoShortCycle t := by
  obtain ⟨hst, hone⟩ := hst
  have hinv := h.inv.step hst
  have hids : ∀ j, ((s.iFlock j).map (·.id)).Nodup := fun j => (h.inv.wellFormed j).ids
  refine ⟨hinv, hone, ?_⟩
  cases hst with
  | @lock _ inode r newFl newFl2 reply conflock hr hnew _ heq =>
    cases posixLockFile_call heq with
    | again | deadlock | access => exact h.acyclic
    | @sleep fl hf _ hd =>
      obtain ⟨hfl, hconf⟩ := findConflict_some hf
      refine h.acyclic.insert (fun a b hab => waitsFor_insertBlock hab hfl (hids inode)) ?_
      rintro (_ | k) hk hwalk
      · generalize hb : r.flOwner = b at hwalk
        cases hwalk
        exact (conflict_iff.mp hconf).2.1 hb
      · -- the loop would have found the owner of the request
        have hround : 0 + k ≤ maxDeadlkIterations := by
          rw [maxDeadlkIterations]
          omega
        have hfuel : k + 1 ≤ maxDeadlkIterations + 2 := by omega
        rw [posixLocksDeadlock, deadlockLoop_detects h.one hids hwalk hround hfuel] at hd
        cases hd
    | @edit reply l woken _ _ he =>
      refine h.acyclic.mono fun a b hab => ?_
      refine waitsFor_of_edit h.inv.linked ((hnew inode).needed _) ?_ he hab
      have := (hinv.wellFormed inode).ids
      change ((update s.iFlock inode l inode).map (·.id)).Nodup at this
      rwa [update_self] at this
  | cancel =>
    refine h.acyclic.mono fun a b hab => ?_
    obtain ⟨w, hw, hrest⟩ := hab
    exact ⟨w, (mem_filter.mp hw).1, hrest⟩

theorem Initial.noShortCycle (h : Initial s) : NoShortCycle s := by
  refine ⟨h.inv, ?_, fun n a hn _ hwalk => ?_⟩
  · rw [OnePerOwner, h.blocked]
    exact nodup_nil
  · rcases hwalk with _ | ⟨hedge, -⟩
    · omega
    · obtain ⟨w, hw, -⟩ := hedge
      rw [h.blocked] at hw
      cases hw

/-- No cycle of twelve or fewer owners is ever closed, the detection always ends, and a request
only fails with `EDEADLK` if it would close a cycle. -/
theorem posix_locks_no_deadlock {acts : List (Act ω)} (h₀ : Initial s)
    (hrun : Run SingleStep s acts t) :
    AcyclicUpTo (WaitsFor t) 12 ∧
    (∀ caller block fuel, maxDeadlkIterations + 2 ≤ fuel →
      deadlockLoop t caller fuel 0 block = some (posixLocksDeadlock t caller block)) ∧
    ∀ inode r newFl newFl2 conflock u,
      posixLockFile t inode r newFl newFl2 = (.error .edeadlk, conflock, u) →
      ∃ fl, conflock = some fl ∧ ∃ n,
        Walk (WaitsFor (locksInsertBlock t inode fl r)) (n + 1) r.flOwner r.flOwner := by
  refine ⟨?_, fun _ _ _ => posixLocksDeadlock_eq, fun _ _ _ _ _ _ => edeadlk_closes⟩
  exact (Run.invariant (I := NoShortCycle) NoShortCycle.step hrun h₀.noShortCycle).acyclic

omit [DecidableEq ω] in
theorem newLocks_of_lt {l : List (FileLock ω)} {n : ℕ} (h : ∀ a ∈ l, a.id < n) :
    NewLocks l (some n) (some (n + 1)) := by
  have hlt : ∀ j, n ≤ j → j ∉ l.map (·.id) := by
    intro j hj hmem
    obtain ⟨a, ha, rfl⟩ := mem_map.mp hmem
    exact absurd (h a ha) (by omega)
  constructor
  · rintro i hi
    cases hi
    exact hlt _ (le_refl _)
  · rintro j hj
    cases hj
    exact ⟨hlt _ (by omega), by simp⟩

/-- Two owners that have a file each: the first waits for the second, who may not wait for the
first. -/
theorem posix_locks_no_deadlock_two :
    let req (id owner : ℕ) : FileLock ℕ := ⟨id, owner, true, false, true, false, .wrlck, 0, 9⟩
    let s : State ℕ := ⟨fun _ => [], []⟩
    let s₁ := (posixLockFile s 0 (req 11 1) (some 1) (some 2)).2.2
    let s₂ := (posixLockFile s₁ 1 (req 12 2) (some 2) (some 3)).2.2
    let s₃ := (posixLockFile s₂ 1 (req 13 1) (some 3) (some 4)).2.2
    (posixLockFile s₃ 0 (req 14 2) (some 4) (some 5)).1 = .error .edeadlk ∧
      AcyclicUpTo (WaitsFor s₃) 12 := by
  intro req s s₁ s₂ s₃
  have hs : Initial s := ⟨fun _ => nodup_nil, fun _ a ha => (by cases ha), rfl⟩
  have hvalid : ∀ id owner, ValidRequest (req id owner) := fun _ _ =>
    ⟨rfl, (by decide : (0 : ℤ) ≤ 0 ∧ (0 : ℤ) ≤ 9 ∧ 9 ≤ offsetMax)⟩
  have h₁ : ∀ i, ∀ a ∈ s₁.iFlock i, a.id < 2 := by
    rintro (_ | i)
    · decide
    · exact fun a ha => by cases ha
  have h₂ : ∀ i, ∀ a ∈ s₂.iFlock i, a.id < 3 := by
    rintro (_ | _ | i)
    · decide
    · decide
    · have : s₂.iFlock (i + 2) = [] := rfl
      exact fun a ha => by cases ha
  have hrun : Run SingleStep s [.lock 0 (req 11 1) (some 1) (some 2),
      .lock 1 (req 12 2) (some 2) (some 3), .lock 1 (req 13 1) (some 3) (some 4)] s₃ := by
    refine .cons ⟨.lock (hvalid 11 1) (fun i => newLocks_of_lt ?_) ?_ rfl, ?_⟩ <|
      .cons ⟨.lock (hvalid 12 2) (fun i => newLocks_of_lt (h₁ i)) ?_ rfl, ?_⟩ <|
      .cons ⟨.lock (hvalid 13 1) (fun i => newLocks_of_lt (h₂ i)) ?_ rfl, ?_⟩ (.nil _)
    · exact fun a ha => by cases ha
    · exact fun w hw => by cases hw
    · exact nodup_nil
    · exact fun w hw => by cases hw
    · exact nodup_nil
    · exact fun w hw => by cases hw
    · exact nodup_singleton _
  exact ⟨by decide, (posix_locks_no_deadlock hs hrun).1⟩

end Run

end LinuxKernel.Locks
