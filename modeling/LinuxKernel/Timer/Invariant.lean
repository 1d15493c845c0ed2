import LinuxKernel.Base.Run
import LinuxKernel.Timer.Placement

/-! # The wheel invariant

Every pending timer is on exactly one list, and the timers in the buckets are
placed for the current time. Cascading keeps this and leaves no timer in a bucket
that has just been passed, so that an iteration takes exactly the due timers.
-/

namespace LinuxKernel.Timer

open List Function

variable {c : Config} {near : Prop} {b b' : Base} {i j n x : ℕ} {v w : Vec} {l : List ℕ}
  {e : Jiffies} {rest : List ℕ} {d : ℕ}

section Fields

@[simp] theorem setVec_vec_self : (b.setVec v l).vec v = l := update_self ..

theorem setVec_vec_of_ne (h : w ≠ v) : (b.setVec v l).vec w = b.vec w := update_of_ne h ..

@[simp] theorem internalAddTimer_timer : (internalAddTimer c b i).timer = b.timer := rfl

end Fields

theorem mem_setVec_nil : j ∈ (b.setVec v []).vec w ↔ j ∈ b.vec w ∧ w ≠ v := by
  by_cases h : w = v
  · subst h; simp
  · simp [setVec_vec_of_ne h, h]

theorem mem_internalAddTimer : j ∈ (internalAddTimer c b i).vec w ↔
    j ∈ b.vec w ∨ j = i ∧ w = bucket c b.timerJiffies (b.timer i).expires := by
  by_cases h : w = bucket c b.timerJiffies (b.timer i).expires
  · subst h
    simp [internalAddTimer]
  · simp [internalAddTimer, setVec_vec_of_ne h, h]

structure Lists (b : Base) : Prop where
  nodup : ∀ v, (b.vec v).Nodup
  work : b.workList.Nodup
  unique : ∀ i v w, i ∈ b.vec v → i ∈ b.vec w → v = w
  apart : ∀ i v, i ∈ b.workList → i ∉ b.vec v

def Unlinked (b : Base) (i : ℕ) : Prop := i ∉ b.workList ∧ ∀ v, i ∉ b.vec v

theorem Lists.internalAddTimer (h : Lists b) (hu : Unlinked b i) :
    Lists (internalAddTimer c b i) where
  nodup w := by
    by_cases hw : w = bucket c b.timerJiffies (b.timer i).expires
    · subst hw
      rw [Timer.internalAddTimer, setVec_vec_self, nodup_append]
      refine ⟨h.nodup _, by simp, ?_⟩
      rintro k hk _ hi rfl
      obtain rfl := mem_singleton.mp hi
      exact hu.2 _ hk
    · rw [Timer.internalAddTimer, setVec_vec_of_ne hw]
      exact h.nodup w
  work := h.work
  unique k v w hv hw := by
    rcases mem_internalAddTimer.mp hv with hv' | ⟨rfl, hv'⟩
    · rcases mem_internalAddTimer.mp hw with hw' | ⟨rfl, -⟩
      · exact h.unique k v w hv' hw'
      · exact absurd hv' (hu.2 v)
    · rcases mem_internalAddTimer.mp hw with hw' | ⟨-, hw'⟩
      · exact absurd hw' (hu.2 w)
      · rw [hv', hw']
  apart k v hk hv := by
    rcases mem_internalAddTimer.mp hv with hv | ⟨rfl, -⟩
    · exact h.apart k v hk hv
    · exact hu.1 hk

/-- Enqueueing a row of unlinked timers, one after the other. -/
theorem foldl_internalAddTimer (hl : l.Nodup) (hu : ∀ i ∈ l, Unlinked b i) (h : Lists b) :
    let b' := l.foldl (internalAddTimer c) b
    Lists b' ∧ b'.timerJiffies = b.timerJiffies ∧ b'.nextTimer = b.nextTimer ∧
      b'.timer = b.timer ∧ b'.workList = b.workList ∧
      ∀ j w, j ∈ b'.vec w ↔
        j ∈ b.vec w ∨ j ∈ l ∧ w = bucket c b.timerJiffies (b.timer j).expires := by
  induction l generalizing b with
  | nil => exact ⟨h, rfl, rfl, rfl, rfl, by simp⟩
  | cons i l ih =>
    obtain ⟨hi, hl⟩ := nodup_cons.mp hl
    have hi' := hu i mem_cons_self
    have hu' : ∀ k ∈ l, Unlinked (internalAddTimer c b i) k := by
      intro k hk
      obtain ⟨hw, hv⟩ := hu k (mem_cons_of_mem i hk)
      refine ⟨hw, fun v hm => ?_⟩
      rcases mem_internalAddTimer.mp hm with hm | ⟨rfl, -⟩
      · exact hv v hm
      · exact hi hk
    obtain ⟨h₁, h₂, h₃, h₄, h₅, h₆⟩ := ih hl hu' (h.internalAddTimer hi')
    refine ⟨h₁, h₂, h₃, h₄, h₅, fun j w => ?_⟩
    rw [foldl_cons, h₆ j w, mem_internalAddTimer, mem_cons, or_assoc]
    refine or_congr_right ?_
    constructor
    · rintro (⟨rfl, hw⟩ | ⟨hj, hw⟩)
      · exact ⟨.inl rfl, hw⟩
      · exact ⟨.inr hj, hw⟩
    · rintro ⟨rfl | hj, hw⟩
      · exact .inl ⟨rfl, hw⟩
      · exact .inr ⟨hj, hw⟩

/-- What cascading does: timers either stay or go to the bucket for the current time. -/
structure Recast (c : Config) (b b' : Base) : Prop where
  lists : Lists b'
  timerJiffies : b'.timerJiffies = b.timerJiffies
  nextTimer : b'.nextTimer = b.nextTimer
  timer : b'.timer = b.timer
  workList : b'.workList = b.workList
  keep : ∀ i v, i ∈ b.vec v → ∃ w, i ∈ b'.vec w
  origin : ∀ i w, i ∈ b'.vec w → ∃ v, i ∈ b.vec v ∧
    (w = v ∨ w = bucket c b.timerJiffies (b.timer i).expires)

theorem Recast.refl (h : Lists b) : Recast c b b :=
  ⟨h, rfl, rfl, rfl, rfl, fun _ v hv => ⟨v, hv⟩, fun _ w hw => ⟨w, hw, .inl rfl⟩⟩

theorem Recast.trans {b'' : Base} (h : Recast c b b') (h' : Recast c b' b'') : Recast c b b'' where
  lists := h'.lists
  timerJiffies := h'.timerJiffies.trans h.timerJiffies
  nextTimer := h'.nextTimer.trans h.nextTimer
  timer := h'.timer.trans h.timer
  workList := h'.workList.trans h.workList
  keep i v hv := by
    obtain ⟨w, hw⟩ := h.keep i v hv
    exact h'.keep i w hw
  origin i w hw := by
    obtain ⟨v', hv', hw'⟩ := h'.origin i w hw
    obtain ⟨v, hv, hvv⟩ := h.origin i v' hv'
    rw [h.timerJiffies, h.timer] at hw'
    refine ⟨v, hv, ?_⟩
    rcases hw' with rfl | hw'
    · exact hvv
    · exact .inr hw'

theorem Lists.empty (h : Lists b) (v : Vec) :
    Lists (b.setVec v []) ∧ ∀ i ∈ b.vec v, Unlinked (b.setVec v []) i := by
  constructor
  · refine ⟨fun w => ?_, h.work, fun i u w hu hw => ?_, fun i w hi hw => ?_⟩
    · by_cases hw : w = v
      · subst hw; simp
      · rw [setVec_vec_of_ne hw]; exact h.nodup w
    · exact h.unique i u w (mem_setVec_nil.mp hu).1 (mem_setVec_nil.mp hw).1
    · exact h.apart i w hi (mem_setVec_nil.mp hw).1
  · intro i hi
    refine ⟨fun hw => h.apart i _ hw hi, fun w hw => ?_⟩
    obtain ⟨hw, hne⟩ := mem_setVec_nil.mp hw
    exact hne (h.unique i w _ hw hi)

theorem mem_cascade (h : Lists b) : j ∈ (cascade c b n x).vec w ↔
    j ∈ b.vec w ∧ w ≠ .tvn n x ∨
      j ∈ b.vec (.tvn n x) ∧ w = bucket c b.timerJiffies (b.timer j).expires := by
  obtain ⟨hl, hu⟩ := h.empty (.tvn n x)
  rw [cascade, (foldl_internalAddTimer (h.nodup _) hu hl).2.2.2.2.2, mem_setVec_nil]
  rfl

theorem recast_cascade (c : Config) (h : Lists b) (n x : ℕ) : Recast c b (cascade c b n x) := by
  obtain ⟨hl, hu⟩ := h.empty (.tvn n x)
  obtain ⟨h₁, h₂, h₃, h₄, h₅, -⟩ := foldl_internalAddTimer (h.nodup _) hu hl
  refine ⟨h₁, h₂, h₃, h₄, h₅, fun i v hv => ?_, fun i w hw => ?_⟩
  · by_cases hn : v = .tvn n x
    · exact ⟨_, (mem_cascade h).mpr (.inr ⟨hn ▸ hv, rfl⟩)⟩
    · exact ⟨v, (mem_cascade h).mpr (.inl ⟨hv, hn⟩)⟩
  · rcases (mem_cascade h).mp hw with ⟨hw, -⟩ | ⟨hi, hw⟩
    · exact ⟨w, hw, .inl rfl⟩
    · exact ⟨_, hi, .inr hw⟩

/-- Every timer in a bucket is placed, with the cascades of the first `d` vectors done.
The timers that are not deferrable may be known to be near. -/
def AllPlaced (c : Config) (near : Prop) (d : ℕ) (b : Base) : Prop :=
  ∀ v, ∀ i ∈ b.vec v, Placed c (near ∧ (b.timer i).deferrable = false) d b.timerJiffies
    (b.timer i).expires v

/-- The cascades of one tick, with the first `d` vectors done. -/
structure Stage (c : Config) (near : Prop) (b : Base) (d : ℕ) (b' : Base) : Prop where
  recast : Recast c b b'
  placed : AllPlaced c near d b'

/-- Cascading the current bucket of a vector is all that this tick asks of it. -/
theorem Stage.cascade (h : Stage c near b d b') :
    Stage c near b (d + 1) (Timer.cascade c b' d (c.index d b.timerJiffies)) := by
  have hl := h.recast.lists
  have hr := recast_cascade c hl d (c.index d b.timerJiffies)
  refine ⟨h.recast.trans hr, fun v i hi => ?_⟩
  rw [hr.timerJiffies, hr.timer]
  rcases (mem_cascade hl).mp hi with ⟨hi', hne⟩ | ⟨hi', rfl⟩
  · refine (h.placed v i hi').passed fun hv => hne ?_
    rw [← h.recast.timerJiffies]
    exact hv.2
  · exact bucket_placed c _ (h.placed _ i hi').lap

/-- At a tick that is no multiple of a vector's span none of its buckets is hit, and
neither is one of the vectors above. -/
theorem Stage.skip (h : Stage c near b d b') (hd : ¬ 2 ^ c.shift d ∣ b.timerJiffies.toNat) (k : ℕ) :
    Stage c near b (d + k) b' := by
  induction k with
  | zero => exact h
  | succ k ih =>
    refine ⟨h.recast, fun v i hi => (ih.placed v i hi).passed fun hv => hd ?_⟩
    rw [h.recast.timerJiffies] at hv
    refine (pow_dvd_pow 2 ?_).trans hv.1
    unfold Config.shift
    have := Nat.mul_le_mul_right c.tvnBits (Nat.le_add_right d k)
    omega

theorem rootIndex_eq_zero_iff (t : Jiffies) : c.rootIndex t = 0 ↔ 2 ^ c.shift 0 ∣ t.toNat := by
  rw [c.rootIndex_eq, c.shift_zero, ← Nat.dvd_iff_mod_eq_zero]

theorem index_eq_zero_iff (t : Jiffies) (h : 2 ^ c.shift n ∣ t.toNat) :
    c.index n t = 0 ↔ 2 ^ c.shift (n + 1) ∣ t.toNat := by
  rw [c.index_eq, c.shift_succ, pow_add, ← Nat.dvd_iff_mod_eq_zero]
  exact Nat.dvd_div_iff_mul_dvd h

theorem cascades_stage (hl : Lists b) (h : AllPlaced c near 0 b) :
    Stage c near b 4 (cascades c b) := by
  have h₀ : Stage c near b 0 b := ⟨.refl hl, h⟩
  have h₁ := h₀.cascade
  have h₂ := h₁.cascade
  have h₃ := h₂.cascade
  unfold cascades
  dsimp only
  split_ifs with d₀ d₁ d₂ d₃
  · exact h₀.skip (mt (rootIndex_eq_zero_iff _).mpr d₀) 4
  all_goals rw [not_not, rootIndex_eq_zero_iff] at d₀
  · exact h₁.skip (mt (index_eq_zero_iff _ d₀).mpr d₁) 3
  all_goals rw [not_not, index_eq_zero_iff _ d₀] at d₁
  · exact h₂.skip (mt (index_eq_zero_iff _ d₁).mpr d₂) 2
  all_goals rw [not_not, index_eq_zero_iff _ d₁] at d₂
  · exact h₃.skip (mt (index_eq_zero_iff _ d₂).mpr d₃) 1
  · exact h₃.cascade

/-- A due timer on the wheel goes to the work list and no other does; the rest stays
placed for the next tick. -/
theorem startIteration_spec (hl : Lists b) (h : AllPlaced c near 0 b) :
    let b' := startIteration c b
    Lists b' ∧ AllPlaced c near 0 b' ∧ b'.timerJiffies = b.timerJiffies + 1 ∧
      b'.nextTimer = b.nextTimer ∧ b'.timer = b.timer ∧
      (∀ i, i ∈ b'.workList ↔
        (∃ v, i ∈ b.vec v) ∧ ticksUntil b.timerJiffies (b.timer i).expires = 0) ∧
      ∀ i, (∃ v, i ∈ b'.vec v) ↔
        (∃ v, i ∈ b.vec v) ∧ ticksUntil b.timerJiffies (b.timer i).expires ≠ 0 := by
  obtain ⟨hr, hp⟩ := cascades_stage hl h
  obtain ⟨hle, -⟩ := hr.lists.empty (.tv1 (c.rootIndex b.timerJiffies))
  have hroot : ∀ i v, i ∈ (cascades c b).vec v →
      (v = .tv1 (c.rootIndex b.timerJiffies) ↔
        ticksUntil b.timerJiffies (b.timer i).expires = 0) := by
    intro i v hi
    have hpl := hp v i hi
    rw [hr.timerJiffies, hr.timer] at hpl
    constructor
    · rintro rfl
      exact placed_root_due hpl
    · exact hpl.due
  have hmem : ∀ i, (∃ v, i ∈ (cascades c b).vec v) ↔ ∃ v, i ∈ b.vec v := by
    refine fun i => ⟨fun ⟨w, hi⟩ => ?_, fun ⟨v, hi⟩ => hr.keep i v hi⟩
    obtain ⟨v, hv, -⟩ := hr.origin i w hi
    exact ⟨v, hv⟩
  refine ⟨⟨hle.nodup, hr.lists.nodup _, hle.unique, fun i v hi hv => ?_⟩, fun v i hi => ?_,
    congrArg (· + 1) hr.timerJiffies, hr.nextTimer, hr.timer, fun i => ?_, fun i => ?_⟩
  · obtain ⟨hv, hne⟩ := mem_setVec_nil.mp hv
    exact hne (hr.lists.unique i _ _ hv hi)
  · obtain ⟨hi, hne⟩ := mem_setVec_nil.mp hi
    refine (hp v i hi).tick (pos_of_ne_zero fun h0 => hne ((hroot i v hi).mpr ?_))
    rwa [hr.timerJiffies, hr.timer] at h0
  · rw [← hmem]
    constructor
    · exact fun hi => ⟨⟨_, hi⟩, (hroot i _ hi).mp rfl⟩
    · rintro ⟨⟨v, hi⟩, h0⟩
      rwa [(hroot i v hi).mpr h0] at hi
  · rw [← hmem]
    constructor
    · rintro ⟨v, hi⟩
      obtain ⟨hi, hne⟩ := mem_setVec_nil.mp hi
      exact ⟨⟨v, hi⟩, mt (hroot i v hi).mpr hne⟩
    · rintro ⟨⟨v, hi⟩, h0⟩
      exact ⟨v, mem_setVec_nil.mpr ⟨hi, mt (hroot i v hi).mp h0⟩⟩

/-- A step that moves no timer but `i` and lets no time pass. -/
structure Touch (i : ℕ) (b b' : Base) : Prop where
  timerJiffies : b'.timerJiffies = b.timerJiffies
  timer : ∀ j, j ≠ i → b'.timer j = b.timer j
  vec : ∀ j, j ≠ i → ∀ v, j ∈ b'.vec v ↔ j ∈ b.vec v
  workList : ∀ j, j ≠ i → (j ∈ b'.workList ↔ j ∈ b.workList)

theorem Touch.refl (i : ℕ) (b : Base) : Touch i b b :=
  ⟨rfl, fun _ _ => rfl, fun _ _ _ => .rfl, fun _ _ => .rfl⟩

theorem Touch.trans {b'' : Base} (h : Touch i b b') (h' : Touch i b' b'') : Touch i b b'' where
  timerJiffies := h'.timerJiffies.trans h.timerJiffies
  timer j hj := (h'.timer j hj).trans (h.timer j hj)
  vec j hj v := (h'.vec j hj v).trans (h.vec j hj v)
  workList j hj := (h'.workList j hj).trans (h.workList j hj)

theorem Touch.unlinked (h : Touch i b b') (hj : j ≠ i) : Unlinked b' j ↔ Unlinked b j := by
  simp only [Unlinked, h.workList j hj, h.vec j hj]

theorem touch_setTimer (b : Base) (i : ℕ) (t : TimerList) : Touch i b (b.setTimer i t) :=
  ⟨rfl, fun _ hj => update_of_ne hj .., fun _ _ _ => .rfl, fun _ _ => .rfl⟩

theorem mem_detachPending : j ∈ (detachPending b i).vec v ↔ j ∈ b.vec v ∧ j ≠ i := by
  unfold detachPending Base.unlink
  dsimp only
  split_ifs <;> simp

theorem mem_workList_detachPending : j ∈ (detachPending b i).workList ↔ j ∈ b.workList ∧ j ≠ i := by
  unfold detachPending Base.unlink
  dsimp only
  split_ifs <;> simp

theorem detachPending_timer : (detachPending b i).timer = b.timer := by
  unfold detachPending Base.unlink
  dsimp only
  split_ifs <;> rfl

theorem detachPending_nextTimer : (detachPending b i).nextTimer = b.nextTimer ∨
    (detachPending b i).nextTimer = b.timerJiffies := by
  unfold detachPending Base.unlink
  dsimp only
  split_ifs
  · exact .inr rfl
  · exact .inl rfl

theorem touch_detachPending (b : Base) (i : ℕ) : Touch i b (detachPending b i) where
  timerJiffies := by unfold detachPending Base.unlink; dsimp only; split_ifs <;> rfl
  timer _ _ := by rw [detachPending_timer]
  vec _ hj _ := by simp [mem_detachPending, hj]
  workList _ hj := by simp [mem_workList_detachPending, hj]

theorem unlinked_detachPending (b : Base) (i : ℕ) : Unlinked (detachPending b i) i :=
  ⟨fun h => (mem_workList_detachPending.mp h).2 rfl, fun _ h => (mem_detachPending.mp h).2 rfl⟩

theorem Lists.detachPending (h : Lists b) : Lists (detachPending b i) where
  nodup v := by
    unfold Timer.detachPending Base.unlink
    dsimp only
    split_ifs <;> exact (h.nodup v).filter _
  work := by
    unfold Timer.detachPending Base.unlink
    dsimp only
    split_ifs <;> exact h.work.filter _
  unique j v w hv hw := h.unique j v w (mem_detachPending.mp hv).1 (mem_detachPending.mp hw).1
  apart j v hj hv := h.apart j v (mem_workList_detachPending.mp hj).1 (mem_detachPending.mp hv).1

theorem AllPlaced.touch (h : AllPlaced c near d b) (ht : Touch i b b') (hi : ∀ v, i ∉ b'.vec v) :
    AllPlaced c near d b' := by
  intro v j hj
  have hne : j ≠ i := by
    rintro rfl
    exact hi v hj
  rw [ht.timerJiffies, ht.timer j hne]
  exact h v j ((ht.vec j hne v).mp hj)

theorem AllPlaced.internalAddTimer (h : AllPlaced c near d b)
    (hn : near ∧ (b.timer i).deferrable = false →
      ticksUntil b.timerJiffies (b.timer i).expires < 2 ^ c.shift 4) :
    AllPlaced c near d (internalAddTimer c b i) := by
  intro v j hj
  rcases mem_internalAddTimer.mp hj with hj | ⟨rfl, rfl⟩
  · exact h v j hj
  · exact bucket_placed c d hn

/-- The invariant of a timer base between two steps: the pending timers are those on
a list, and the buckets hold timers that are placed. -/
structure Inv (c : Config) (near : Prop) (b : Base) : Prop where
  lists : Lists b
  placed : AllPlaced c near 0 b
  pending : ∀ i, (b.timer i).pending = false ↔ Unlinked b i

theorem Initial.inv (h : Initial b) : Inv c near b where
  lists := by
    refine ⟨fun v => ?_, ?_, fun i v w hv => ?_, fun i v hi => ?_⟩
    · rw [h.vec]; exact .nil
    · rw [h.workList]; exact .nil
    · rw [h.vec] at hv; exact absurd hv not_mem_nil
    · rw [h.workList] at hi; exact absurd hi not_mem_nil
  placed v i hi := by rw [h.vec] at hi; exact absurd hi not_mem_nil
  pending i := by simp [h.pending i, Unlinked, h.vec, h.workList]

theorem enqueue_timer : ((enqueue c b i e).timer i).expires = e ∧
    ((enqueue c b i e).timer i).pending = true := by
  unfold enqueue Base.setTimer
  dsimp only
  split_ifs <;> simp

theorem mem_enqueue : j ∈ (enqueue c b i e).vec v ↔
    j ∈ b.vec v ∨ j = i ∧ v = bucket c b.timerJiffies e := by
  unfold enqueue Base.setTimer
  dsimp only
  split_ifs <;> simp [mem_internalAddTimer]

theorem enqueue_workList : (enqueue c b i e).workList = b.workList := by
  unfold enqueue Base.setTimer
  dsimp only
  split_ifs <;> rfl

theorem touch_enqueue : Touch i b (enqueue c b i e) where
  timerJiffies := by unfold enqueue Base.setTimer; dsimp only; split_ifs <;> rfl
  timer j hj := by
    unfold enqueue Base.setTimer
    dsimp only
    split_ifs <;> exact update_of_ne hj ..
  vec j hj v := by simp [mem_enqueue, hj]
  workList j hj := by rw [enqueue_workList]

theorem Inv.unlink_pending (h : Inv c near b) (ht : Touch i b b') (hi : Unlinked b' i)
    (hp : (b'.timer i).pending = false) (j : ℕ) : (b'.timer j).pending = false ↔ Unlinked b' j := by
  by_cases hj : j = i
  · subst hj; simp [hp, hi]
  · rw [ht.timer j hj, ht.unlinked hj]
    exact h.pending j

theorem Inv.enqueue (h : Lists b) (hpl : AllPlaced c near 0 b)
    (hp : ∀ j, j ≠ i → ((b.timer j).pending = false ↔ Unlinked b j)) (hi : Unlinked b i)
    (hn : near ∧ (b.timer i).deferrable = false → ticksUntil b.timerJiffies e < 2 ^ c.shift 4) :
    Inv c near (enqueue c b i e) where
  lists := by
    unfold Timer.enqueue Base.setTimer
    dsimp only
    split_ifs <;> exact Lists.internalAddTimer ⟨h.nodup, h.work, h.unique, h.apart⟩ hi
  placed := by
    have ht := touch_setTimer b i { b.timer i with expires := e, pending := true }
    have hset := hpl.touch ht hi.2
    have hn' : near ∧ ((b.setTimer i { b.timer i with expires := e, pending := true }).timer
        i).deferrable = false → ticksUntil b.timerJiffies ((b.setTimer i
          { b.timer i with expires := e, pending := true }).timer i).expires < 2 ^ c.shift 4 := by
      simpa [Base.setTimer] using hn
    unfold Timer.enqueue
    dsimp only
    split_ifs <;> exact AllPlaced.internalAddTimer hset hn'
  pending j := by
    by_cases hj : j = i
    · subst hj
      have hm : j ∈ (Timer.enqueue c b j e).vec (bucket c b.timerJiffies e) :=
        mem_enqueue.mpr (.inr ⟨rfl, rfl⟩)
      simp only [enqueue_timer.2, Bool.true_eq_false, false_iff]
      exact fun hu => hu.2 _ hm
    · rw [touch_enqueue.timer j hj, touch_enqueue.unlinked hj]
      exact hp j hj

/-- What `__mod_timer` does when it does anything: an unlinked timer is enqueued. -/
theorem modTimer_cases (h : Inv c near b) (i : ℕ) (e : Jiffies) (pendingOnly : Bool) :
    modTimer c b i e pendingOnly = b ∧ (b.timer i).pending = false ∧ pendingOnly = true ∨
      ∃ b₁, modTimer c b i e pendingOnly = enqueue c b₁ i e ∧ Touch i b b₁ ∧ Unlinked b₁ i ∧
        Lists b₁ ∧ b₁.timer i = b.timer i ∧
        (b₁.nextTimer = b.nextTimer ∨ b₁.nextTimer = b.timerJiffies) := by
  unfold modTimer
  split_ifs with hp hpo
  · exact .inr ⟨_, rfl, touch_detachPending b i, unlinked_detachPending b i,
      h.lists.detachPending, congrFun detachPending_timer i, detachPending_nextTimer⟩
  · exact .inl ⟨rfl, by simpa using hp, hpo⟩
  · exact .inr ⟨_, rfl, .refl i b, (h.pending i).mp (by simpa using hp), h.lists, rfl, .inl rfl⟩

theorem touch_modTimer (h : Inv c near b) (i : ℕ) (e : Jiffies) (pendingOnly : Bool) :
    Touch i b (modTimer c b i e pendingOnly) := by
  rcases modTimer_cases h i e pendingOnly with ⟨heq, -⟩ | ⟨b₁, heq, ht, -⟩ <;> rw [heq]
  · exact .refl ..
  · exact ht.trans touch_enqueue

theorem Inv.modTimer (h : Inv c near b) (i : ℕ) (e : Jiffies) (pendingOnly : Bool)
    (hn : near ∧ (b.timer i).deferrable = false → ticksUntil b.timerJiffies e < 2 ^ c.shift 4) :
    Inv c near (modTimer c b i e pendingOnly) := by
  rcases modTimer_cases h i e pendingOnly with ⟨heq, -⟩ | ⟨b₁, heq, ht, hu, hl, hi, -⟩ <;>
    rw [heq]
  · exact h
  · refine Inv.enqueue hl (h.placed.touch ht hu.2) (fun j hj => ?_) hu
      (by rwa [hi, ht.timerJiffies])
    rw [ht.timer j hj, ht.unlinked hj]
    exact h.pending j

theorem touch_delTimer : Touch i b (delTimer b i) := by
  unfold delTimer
  split_ifs
  · exact (touch_detachPending b i).trans (touch_setTimer ..)
  · exact .refl ..

theorem Inv.delTimer (h : Inv c near b) (i : ℕ) : Inv c near (delTimer b i) := by
  unfold Timer.delTimer
  split_ifs with hp
  · have hl := h.lists.detachPending (i := i)
    have hu := unlinked_detachPending b i
    have ht := (touch_detachPending b i).trans
      (touch_setTimer _ i { (detachPending b i).timer i with pending := false })
    exact ⟨⟨hl.nodup, hl.work, hl.unique, hl.apart⟩, h.placed.touch ht hu.2,
      h.unlink_pending ht hu (by simp [Base.setTimer])⟩
  · exact h

theorem Inv.startIteration (h : Inv c near b) (hw : b.workList = []) :
    Inv c near (startIteration c b) := by
  obtain ⟨hl, hp, -, -, ht, hwork, hvec⟩ := startIteration_spec h.lists h.placed
  refine ⟨hl, hp, fun i => ?_⟩
  have hu : Unlinked (Timer.startIteration c b) i ↔ Unlinked b i := by
    unfold Unlinked
    rw [hwork, ← not_exists, hvec, ← not_exists, hw]
    tauto
  rw [ht, hu]
  exact h.pending i

theorem runFirst_eq (hw : b.workList = i :: rest) : runFirst b =
    { b.setTimer i { b.timer i with pending := false } with workList := rest } := by
  rw [runFirst, hw]

theorem touch_runFirst (hw : b.workList = i :: rest) : Touch i b (runFirst b) := by
  rw [runFirst_eq hw]
  exact ⟨rfl, fun j hj => update_of_ne hj .., fun _ _ _ => .rfl, fun j hj => by simp [hw, hj]⟩

theorem unlinked_runFirst (h : Lists b) (hw : b.workList = i :: rest) :
    Unlinked (runFirst b) i := by
  have hnd := h.work
  rw [hw] at hnd
  rw [runFirst_eq hw]
  exact ⟨(nodup_cons.mp hnd).1, fun v => h.apart i v (by simp [hw])⟩

theorem Inv.runFirst (h : Inv c near b) (hw : b.workList = i :: rest) :
    Inv c near (runFirst b) := by
  have hu := unlinked_runFirst h.lists hw
  have ht := touch_runFirst hw
  have hl := h.lists
  have hnd := hl.work
  rw [hw] at hnd
  have hpend : ((Timer.runFirst b).timer i).pending = false := by
    rw [runFirst_eq hw]; simp [Base.setTimer]
  refine ⟨?_, h.placed.touch ht hu.2, h.unlink_pending ht hu hpend⟩
  rw [runFirst_eq hw]
  exact ⟨hl.nodup, (nodup_cons.mp hnd).2, hl.unique,
    fun j v hj => hl.apart j v (by rw [hw]; exact mem_cons_of_mem i hj)⟩

theorem touch_getNextTimerInterrupt (i : ℕ) : Touch i b (getNextTimerInterrupt c b) := by
  unfold getNextTimerInterrupt
  split_ifs
  · exact ⟨rfl, fun _ _ => rfl, fun _ _ _ => .rfl, fun _ _ => .rfl⟩
  · exact .refl ..

theorem Inv.getNextTimerInterrupt (h : Inv c near b) : Inv c near (getNextTimerInterrupt c b) := by
  unfold Timer.getNextTimerInterrupt
  split_ifs
  · exact ⟨⟨h.lists.nodup, h.lists.work, h.lists.unique, h.lists.apart⟩, h.placed, h.pending⟩
  · exact h

/-- A step that enqueues no timer a whole lap of the last vector ahead, unless it is
deferrable. -/
def InLap (c : Config) (b : Base) : Act → Prop
  | .mod i e _ => (b.timer i).deferrable = false → ticksUntil b.timerJiffies e < 2 ^ c.shift 4
  | _ => True

theorem Inv.step {a : Act} (h : Inv c near b) (hs : Step c b a b') (hn : near → InLap c b a) :
    Inv c near b' := by
  cases hs with
  | mod i e po => exact h.modTimer i e po fun hd => hn hd.1 hd.2
  | del i => exact h.delTimer i
  | tick hw => exact h.startIteration hw
  | run i rest hw => exact h.runFirst hw
  | query => exact h.getNextTimerInterrupt

end LinuxKernel.Timer
