import LinuxKernel.Base.Run
import LinuxKernel.Locks.Refine

/-! # Blocked requests

A request waits for a lock on the list that it conflicts with. Whatever the loop does to a lock,
either its waiters are woken or the lock keeps its type and its bytes, so that it still conflicts
with every request that waits for it. No two owners ever have conflicting locks.
-/

namespace LinuxKernel.Locks

open List Function

variable {ω : Type*} {a b fl r : FileLock ω} {l l' rest : List (FileLock ω)} {st : Scan ω}
  {W W' : List ℕ}

structure Grows (a b : FileLock ω) : Prop where
  id : b.id = a.id
  posix : b.flPosix = a.flPosix
  owner : b.flOwner = a.flOwner
  type : b.flType = a.flType
  start : b.flStart ≤ a.flStart
  stop : a.flEnd ≤ b.flEnd

/-- Every lock whose waiters are not woken has kept all it had, and there are no new locks. -/
structure Keeps (W : List ℕ) (l l' : List (FileLock ω)) : Prop where
  grows : ∀ a ∈ l, a.id ∈ W ∨ ∃ b ∈ l', Grows a b
  ids : ∀ b ∈ l', b.id ∈ l.map (·.id)

theorem Grows.refl (a : FileLock ω) : Grows a a := ⟨rfl, rfl, rfl, rfl, le_rfl, le_rfl⟩

theorem Grows.trans {c : FileLock ω} (h : Grows a b) (h' : Grows b c) : Grows a c :=
  ⟨h'.id.trans h.id, h'.posix.trans h.posix, h'.owner.trans h.owner, h'.type.trans h.type,
    h'.start.trans h.start, h.stop.trans h'.stop⟩

theorem conflict_iff [DecidableEq ω] : posixLocksConflict r a = true ↔ a.flPosix = true ∧
    r.flOwner ≠ a.flOwner ∧ a.flStart ≤ r.flEnd ∧ r.flStart ≤ a.flEnd ∧
      (a.flType = .wrlck ∨ r.flType = .wrlck) := by
  have hwrite : locksConflict r a = true ↔ a.flType = .wrlck ∨ r.flType = .wrlck := by
    rw [locksConflict]
    split_ifs with h₁ h₂ <;> tauto
  rw [posixLocksConflict]
  split_ifs with h₁ h₂
  · simp only [posixSameOwner, Bool.or_eq_true, Bool.not_eq_true', decide_eq_true_eq] at h₁
    rcases h₁ with h₁ | h₁ <;> simp [h₁]
  · simp only [locksOverlap, Bool.not_eq_true', Bool.and_eq_false_iff, decide_eq_false_iff_not]
      at h₂
    simp only [false_iff]
    rintro ⟨-, -, h₃, h₄, -⟩
    omega
  · simp only [posixSameOwner, Bool.or_eq_true, Bool.not_eq_true', decide_eq_true_eq, not_or,
      Bool.not_eq_false] at h₁
    simp only [locksOverlap, Bool.not_eq_true', Bool.not_eq_false, Bool.and_eq_true,
      decide_eq_true_eq] at h₂
    rw [hwrite]
    exact ⟨fun h => ⟨h₁.1, h₁.2, h₂.1, h₂.2, h⟩, fun h => h.2.2.2.2⟩

theorem Grows.conflict [DecidableEq ω] (h : Grows a b) (hc : posixLocksConflict r a = true) :
    posixLocksConflict r b = true := by
  rw [conflict_iff] at hc ⊢
  rw [h.posix, h.owner, h.type]
  obtain ⟨hp, ho, h₁, h₂, ht⟩ := hc
  exact ⟨hp, ho, h.start.trans h₁, h₂.trans h.stop, ht⟩

namespace Keeps

theorem refl (W : List ℕ) (l : List (FileLock ω)) : Keeps W l l :=
  ⟨fun a ha => .inr ⟨a, ha, .refl a⟩, fun _ hb => mem_map_of_mem hb⟩

theorem trans {l'' : List (FileLock ω)} (h : Keeps W l l') (h' : Keeps W' l' l'') (hW : W ⊆ W') :
    Keeps W' l l'' where
  grows a ha := by
    rcases h.grows a ha with hw | ⟨b, hb, hab⟩
    · exact .inl (hW hw)
    · rcases h'.grows b hb with hw | ⟨c, hc, hbc⟩
      · exact .inl (hab.id ▸ hw)
      · exact .inr ⟨c, hc, hab.trans hbc⟩
  ids c hc := by
    obtain ⟨b, hb, hid⟩ := mem_map.mp (h'.ids c hc)
    exact hid ▸ h.ids b hb

theorem middle {m m' : List (FileLock ω)} (h : Keeps W m m') :
    Keeps W (l ++ (m ++ rest)) (l ++ (m' ++ rest)) where
  grows a ha := by
    simp only [mem_append] at ha ⊢
    rcases ha with ha | ha | ha
    · exact .inr ⟨a, .inl ha, .refl a⟩
    · exact (h.grows a ha).imp_right fun ⟨b, hb, hab⟩ => ⟨b, .inr (.inl hb), hab⟩
    · exact .inr ⟨a, .inr (.inr ha), .refl a⟩
  ids b hb := by
    simp only [mem_append, map_append] at hb ⊢
    exact hb.imp mem_map_of_mem (.imp (h.ids b) mem_map_of_mem)

theorem delete (hfl : fl.id ∈ W) : Keeps W (l ++ fl :: rest) (l ++ rest) :=
  (⟨by simp [hfl], by simp⟩ : Keeps W [fl] []).middle

theorem replace (hid : b.id = a.id) (hab : a.id ∈ W ∨ Grows a b) :
    Keeps W (l ++ a :: rest) (l ++ b :: rest) :=
  (⟨by simpa using hab, by simp [hid]⟩ : Keeps W [a] [b]).middle

end Keeps

section Scan

/-- Where `request` points to, in any state of the loop. -/
structure Scan.Sound (st : Scan ω) : Prop where
  added : st.aliased = true → st.added = true
  after : st.aliased = false → st.after = []

structure Round (fl : FileLock ω) (st st' : Scan ω) : Prop where
  sound : st'.Sound
  woken : st.woken ⊆ st'.woken
  keeps : ∀ rest, Keeps st'.woken (st.done ++ fl :: rest) (st'.done ++ rest)

theorem round_next (h : st.Sound) (fl : FileLock ω) : Round fl st (st.next fl) := by
  rw [Scan.next]
  split_ifs with ha
  · refine ⟨⟨h.added, fun hc => ?_⟩, Subset.refl _, fun rest => ?_⟩
    · cases hc.symm.trans ha
    · simpa [Scan.done, ha] using .refl _ _
  · have hafter := h.after (by simpa using ha)
    refine ⟨⟨fun hc => absurd hc ha, fun _ => hafter⟩, Subset.refl _, fun rest => ?_⟩
    simpa [Scan.done, ha, hafter] using .refl _ _

theorem Scan.Sound.not_aliased (h : st.Sound) (hadded : st.added = false) : st.aliased = false := by
  rw [← Bool.not_eq_true] at hadded ⊢
  exact fun ha => hadded (h.added ha)

theorem Scan.Sound.done_eq (h : st.Sound) (ha : st.aliased = false) : st.done = st.before := by
  rw [Scan.done, ha, h.after ha]
  exact append_nil _

theorem merge_bounds (st : Scan ω) (fl : FileLock ω) :
    (st.mergeStart fl ≤ fl.flStart ∧ fl.flEnd ≤ st.mergeEnd fl) ∧
      st.mergeStart fl ≤ st.request.flStart ∧ st.request.flEnd ≤ st.mergeEnd fl := by
  rw [Scan.mergeStart, Scan.mergeEnd]
  split_ifs <;> omega

theorem round_merge (h : st.Sound) (fl : FileLock ω) : Round fl st (st.merge fl) := by
  obtain ⟨⟨hs, he⟩, hs', he'⟩ := merge_bounds st fl
  rcases hadded : st.added with _ | _
  · have ha := h.not_aliased hadded
    rw [Scan.merge_of_fresh _ hadded]
    refine ⟨⟨fun _ => rfl, fun hc => (by cases hc)⟩, Subset.refl _, fun rest => ?_⟩
    rw [h.done_eq ha, Scan.done]
    simp only [Scan.become, h.after ha, append_assoc]
    exact Keeps.replace rfl (.inr ⟨rfl, rfl, rfl, rfl, hs, he⟩)
  · rw [Scan.merge_of_added _ hadded]
    refine ⟨⟨fun _ => hadded, h.after⟩, subset_cons_self _ _, fun rest => ?_⟩
    refine .trans (.delete mem_cons_self) ?_ (Subset.refl _)
    rw [Scan.done, Scan.done]
    rcases ha : st.aliased with _ | _
    · simp only [Scan.wake, ha]
      exact .refl _ _
    · simp only [Scan.wake, ha, append_assoc]
      exact Keeps.replace rfl (.inr ⟨rfl, rfl, rfl, rfl, hs', he'⟩)

theorem Scan.Sound.note (h : st.Sound) (fl : FileLock ω) : (st.note fl).Sound := by
  refine ⟨fun ha => ?_, h.after⟩
  show (st.added || _) = true
  rw [h.added ha, Bool.true_or]

theorem round_replace (h : st.Sound) (fl : FileLock ω) : Round fl st ((st.note fl).replace fl) := by
  rcases hadded : (st.note fl).added with _ | _
  · have ha : st.aliased = false := h.not_aliased (Bool.or_eq_false_iff.mp hadded).1
    rw [Scan.replace, hadded]
    refine ⟨⟨fun _ => rfl, fun hc => (by cases hc)⟩, subset_cons_self _ _, fun rest => ?_⟩
    rw [h.done_eq ha, Scan.done]
    simp only [Bool.false_eq_true, Scan.note, h.after ha,
      append_assoc]
    exact Keeps.replace rfl (.inl mem_cons_self)
  · rw [Scan.replace, hadded]
    exact ⟨⟨(h.note fl).added, h.after⟩, subset_cons_self _ _, fun rest => .delete mem_cons_self⟩

theorem scan_keeps [DecidableEq ω] (l : List (FileLock ω)) : ∀ {st st' : Scan ω} {rest}, st.Sound →
    scan st l = (st', rest) →
      st.woken ⊆ st'.woken ∧ Keeps st'.woken (st.done ++ l) (st'.done ++ rest) := by
  induction l with
  | nil =>
    intro st st' rest _ hs
    cases hs
    exact ⟨Subset.refl _, .refl _ _⟩
  | cons fl l ih =>
    intro st st' rest h hs
    have hround : ∀ {st₁}, Round fl st st₁ → scan st₁ l = (st', rest) →
        st.woken ⊆ st'.woken ∧ Keeps st'.woken (st.done ++ fl :: l) (st'.done ++ rest) := by
      intro st₁ hr hs
      obtain ⟨hw, hk⟩ := ih hr.sound hs
      exact ⟨Subset.trans hr.woken hw, (hr.keeps l).trans hk hw⟩
    have hstop : (st, fl :: l) = (st', rest) →
        st.woken ⊆ st'.woken ∧ Keeps st'.woken (st.done ++ fl :: l) (st'.done ++ rest) := by
      intro heq
      cases heq
      exact ⟨Subset.refl _, .refl _ _⟩
    rw [scan] at hs
    dsimp only at hs
    split_ifs at hs
    · exact hstop hs
    · exact hround (round_next h fl) hs
    · exact hstop hs
    · exact hround (round_merge h fl) hs
    · exact hround (round_next h fl) hs
    · exact hstop hs
    · cases hs
      exact ⟨Subset.refl _, .refl _ _⟩
    · exact hround (round_replace h fl) hs
    · have hnext := round_next (h.note fl) fl
      exact hround ⟨hnext.sound, hnext.woken, hnext.keeps⟩ hs

end Scan

section Finish

variable {skipped tail : List (FileLock ω)} {newFl newFl2 : Option ℕ} {i : ℕ} {v : ℤ}

theorem mem_setStart_of_ne (ha : a ∈ l) (hi : a.id ≠ i) : a ∈ setStart i v l :=
  mem_map.mpr ⟨a, ha, if_neg hi⟩

theorem mem_setEnd_of_ne (ha : a ∈ l) (hi : a.id ≠ i) : a ∈ setEnd i v l :=
  mem_map.mpr ⟨a, ha, if_neg hi⟩

theorem mem_trimLeft {left : Option (FileLock ω)} (ha : a ∈ l) (hi : ∀ fl ∈ left, a.id ≠ fl.id) :
    a ∈ trimLeft r left l := by
  cases left with
  | none => exact ha
  | some fl => exact mem_setEnd_of_ne ha (hi fl rfl)

theorem mem_splitLocks {j : ℕ} (ha : a ∈ l ++ tail) (hw : a.id ∉ st.allWoken)
    (hj : st.right.isSome → st.left.map (·.id) = st.right.map (·.id) → a.id ≠ j) :
    a ∈ splitLocks st l tail j := by
  have hkept fl (hfl : st.left = some fl ∨ st.right = some fl) : a.id ≠ fl.id := fun heq =>
    hw (by rcases hfl with hfl | hfl <;> simp [Scan.allWoken, hfl, heq])
  have hleft : ∀ fl ∈ st.left, a.id ≠ fl.id := fun fl hfl => hkept fl (.inl hfl)
  rw [splitLocks]
  rcases hst : st.right with _ | fl
  · exact mem_trimLeft ha hleft
  · dsimp only
    rw [hst] at hj
    have hfl := hkept fl (.inr hst)
    split_ifs with hsame
    · apply mem_trimLeft
      · apply mem_setStart_of_ne _ hfl
        rw [mem_append, mem_cons]
        exact (mem_append.mp ha).imp_right .inr
      · rintro new hnew
        cases hnew
        exact hj rfl hsame
    · exact mem_trimLeft (mem_setStart_of_ne ha hfl) hleft

theorem finish_cases (skipped : List (FileLock ω)) (st : Scan ω) (rest : List (FileLock ω))
    (newFl newFl2 : Option ℕ) :
    (∃ reply, finish skipped st rest newFl newFl2 = (reply, skipped ++ st.done ++ rest, st.woken)) ∨
    ∃ tail, rest ⊆ tail ∧
      (st.right.isSome → st.left.map (·.id) = st.right.map (·.id) → newFl2 ≠ none) ∧
      finish skipped st rest newFl newFl2 =
        (.ok, splitLocks st (skipped ++ st.done) tail (newFl2.getD 0), st.allWoken) := by
  unfold finish
  by_cases hfull : st.right.isSome ∧ st.left.map (·.id) = st.right.map (·.id) ∧ newFl2 = none
  · rw [if_pos hfull]
    exact .inl ⟨_, rfl⟩
  · have hsplit : st.right.isSome → st.left.map (·.id) = st.right.map (·.id) → newFl2 ≠ none :=
      fun h₁ h₂ h₃ => hfull ⟨h₁, h₂, h₃⟩
    rw [if_neg hfull]
    rcases st.added with _ | _
    · by_cases ht : st.request.flType = .unlck
      · simp only [ht]
        exact .inl ⟨_, rfl⟩
      · simp only [ht]
        cases newFl with
        | none => exact .inl ⟨_, rfl⟩
        | some i => exact .inr ⟨_, subset_cons_self _ _, hsplit, rfl⟩
    · exact .inr ⟨rest, Subset.refl _, hsplit, rfl⟩

theorem finish_mem (hfresh : ∀ j, newFl2 = some j → a.id ≠ j)
    (ha : a ∈ skipped ++ st.done ++ rest) :
    a.id ∈ (finish skipped st rest newFl newFl2).2.2 ∨
      a ∈ (finish skipped st rest newFl newFl2).2.1 := by
  rcases finish_cases skipped st rest newFl newFl2 with ⟨reply, hf⟩ | ⟨tail, htail, hsplit, hf⟩
  · rw [hf]
    exact .inr ha
  · rw [hf]
    by_cases hw : a.id ∈ st.allWoken
    · exact .inl hw
    · refine .inr (mem_splitLocks ?_ hw ?_)
      · exact mem_append.mpr ((mem_append.mp ha).imp_right fun h => htail h)
      · rintro hright hsame
        obtain ⟨j, hj⟩ := Option.ne_none_iff_exists'.mp (hsplit hright hsame)
        rw [hj]
        exact hfresh j hj

theorem finish_woken : st.woken ⊆ (finish skipped st rest newFl newFl2).2.2 := by
  rcases finish_cases skipped st rest newFl newFl2 with ⟨reply, hf⟩ | ⟨tail, -, -, hf⟩
  · rw [hf]
    exact Subset.refl _
  · rw [hf]
    exact subset_append_right _ _

/-- Whatever a call does to a lock, it wakes the waiters or the lock keeps all it had. -/
theorem editLocks_grows [DecidableEq ω] (hnew : NewLocks l newFl newFl2) (ha : a ∈ l) :
    a.id ∈ (editLocks l r newFl newFl2).2.2 ∨
      ∃ b ∈ (editLocks l r newFl newFl2).2.1, Grows a b := by
  rw [editLocks]
  rcases hscan : scan ⟨[], r, false, [], false, none, none, []⟩ (l.dropWhile (others r))
    with ⟨st, rest⟩
  obtain ⟨-, hkeeps⟩ := scan_keeps _ ⟨fun hc => (by cases hc), fun _ => rfl⟩ hscan
  have hdone : ∀ b ∈ st.done ++ rest, b.id ∈ l.map (·.id) := by
    intro b hb
    obtain ⟨c, hc, hid⟩ := mem_map.mp (hkeeps.ids b hb)
    exact mem_map.mpr ⟨c, (dropWhile_sublist _).subset hc, hid⟩
  have hstays : ∀ b ∈ l.takeWhile (others r) ++ st.done ++ rest, b.id ∈ l.map (·.id) →
      Grows a b → a.id ∈ (finish (l.takeWhile (others r)) st rest newFl newFl2).2.2 ∨
        ∃ b ∈ (finish (l.takeWhile (others r)) st rest newFl newFl2).2.1, Grows a b := by
    intro b hb hid hab
    have hfresh : ∀ j, newFl2 = some j → b.id ≠ j := by
      rintro j hj rfl
      exact (hnew.second _ hj).1 hid
    rcases finish_mem hfresh hb with h | h
    · exact .inl (hab.id ▸ h)
    · exact .inr ⟨b, h, hab⟩
  rw [← takeWhile_append_dropWhile (p := others r) (l := l), mem_append] at ha
  rcases ha with ha | ha
  · refine hstays a (by simp [ha]) (mem_map_of_mem ?_) (.refl a)
    exact (takeWhile_sublist _).subset ha
  · rcases hkeeps.grows a ha with hw | ⟨b, hb, hab⟩
    · exact .inl (finish_woken hw)
    · refine hstays b ?_ (hdone b hb) hab
      rw [append_assoc]
      exact mem_append_right _ hb

end Finish

section Call

variable [DecidableEq ω]

theorem findConflict_some (h : findConflict l r = some fl) :
    fl ∈ l ∧ posixLocksConflict r fl = true := by
  rw [findConflict] at h
  split_ifs at h
  have := find?_some h
  rw [Bool.and_eq_true] at this
  exact ⟨mem_of_find?_eq_some h, this.2⟩

theorem findConflict_none (h : findConflict l r = none) (hr : r.flType ≠ .unlck) (ha : a ∈ l) :
    posixLocksConflict r a = false := by
  rw [findConflict, if_pos hr] at h
  by_contra hc
  rw [Bool.not_eq_false] at hc
  have := find?_eq_none.mp h a ha
  rw [(conflict_iff.mp hc).1, hc] at this
  exact this rfl

/-- `F_GETLK` finds no lock exactly if no other owner holds a byte of the range against it. -/
theorem posix_test_lock_exact (hl : WellFormed l) (hr : r.flStart ≤ r.flEnd) :
    (posixTestLock l r).flType = .unlck ↔ ∀ o ≠ r.flOwner, ∀ x, Covers r x →
      held l o x ≠ .wrlck ∧ (r.flType = .wrlck → held l o x = .unlck) := by
  rw [posixTestLock]
  split
  · rename_i c hc
    have hmem := mem_of_find?_eq_some hc
    obtain ⟨hp, ho, h₁, h₂, hw⟩ := conflict_iff.mp (Bool.and_eq_true _ _ ▸ find?_some hc).2
    have htype := hl.type hmem hp
    refine iff_of_false htype fun h => ?_
    have hrange := hl.range hmem hp
    have hx := h c.flOwner ho.symm (max r.flStart c.flStart) ⟨by omega, by omega⟩
    rw [(held_eq_iff hl htype).mpr ⟨c, hmem, ⟨hp, rfl⟩, rfl, by omega, by omega⟩] at hx
    exact hw.elim hx.1 fun hw => htype (hx.2 hw)
  · rename_i hnone
    refine iff_of_true rfl fun o ho x hx => ?_
    by_contra hheld
    have ht : held l o x ≠ .unlck := fun ht => hheld (by simp [ht])
    obtain ⟨c, hc, ⟨hp, rfl⟩, hct, hcx⟩ := (held_eq_iff hl ht).mp rfl
    have hconf : posixLocksConflict r c = true := by
      rw [conflict_iff, hct]
      exact ⟨hp, ho.symm, hcx.1.trans hx.2, hx.1.trans hcx.2, by tauto⟩
    simpa [hp, hconf] using find?_eq_none.mp hnone c hc

theorem posix_test_lock_exact_shared : held (oneLock.iFlock 0) 0 3 ≠ .wrlck :=
  ((posix_test_lock_exact (r := ⟨7, 1, true, false, false, false, .rdlck, 3, 5⟩)
    oneLock_wellFormed (by decide)).mp rfl 0 (by decide) 3 (by decide)).1

end Call

section Invariant

variable [DecidableEq ω] {s t : State ω} {inode : ℕ} {newFl newFl2 : Option ℕ}

/-- Every waiter waits for a lock on the list of the inode that it conflicts with. -/
def Linked (s : State ω) : Prop :=
  ∀ w ∈ s.blocked, ∃ fl ∈ s.iFlock w.inode,
    fl.id = w.flNext ∧ posixLocksConflict w.request fl = true

/-- No one else has a lock where an owner has a write lock. -/
def Exclusive (l : List (FileLock ω)) : Prop :=
  ∀ ⦃o o' x⦄, o ≠ o' → held l o x = .wrlck → held l o' x = .unlck

inductive Act (ω : Type*) where
  | lock (inode : ℕ) (request : FileLock ω) (newFl newFl2 : Option ℕ)
  | cancel (waiter : ℕ)

/-- A new lock is a new object, and a request that already waits is not passed again. -/
inductive Step : State ω → Act ω → State ω → Prop where
  | lock {s t : State ω} {inode r newFl newFl2 reply conflock} : ValidRequest r →
      (∀ i, NewLocks (s.iFlock i) newFl newFl2) → (∀ w ∈ s.blocked, w.request.id ≠ r.id) →
      posixLockFile s inode r newFl newFl2 = (reply, conflock, t) →
      Step s (.lock inode r newFl newFl2) t
  | cancel {s : State ω} {i : ℕ} : Step s (.cancel i) (locksDeleteBlock s i)

structure Initial (s : State ω) : Prop where
  ids : ∀ i, ((s.iFlock i).map (·.id)).Nodup
  locks : ∀ i, ∀ a ∈ s.iFlock i, a.flPosix = false
  blocked : s.blocked = []

structure Inv (s : State ω) : Prop where
  wellFormed : ∀ i, WellFormed (s.iFlock i)
  exclusive : ∀ i, Exclusive (s.iFlock i)
  linked : Linked s

theorem Initial.inv (h : Initial s) : Inv s := by
  have hno : ∀ {i a}, a ∈ s.iFlock i → a.flPosix = true → False := fun ha hp =>
    Bool.false_ne_true ((h.locks _ _ ha).symm.trans hp)
  have hl : ∀ i, WellFormed (s.iFlock i) := fun i =>
    { ids := h.ids i
      posix_last := pairwise_of_forall_mem_list fun _ ha _ _ hp => (hno ha hp).elim
      contiguous := fun hs hp => (hno (hs.subset (by simp)) hp).elim
      sorted := pairwise_of_forall_mem_list fun _ ha _ _ hp => (hno ha hp).elim
      range := fun ha hp => (hno ha hp).elim
      type := fun ha hp => (hno ha hp).elim }
  refine ⟨hl, fun i o o' x _ hw => ?_, fun w hw => ?_⟩
  · obtain ⟨a, ha, hm, -⟩ := (held_eq_iff (hl i) (by decide)).mp hw
    exact (hno ha hm.1).elim
  · rw [h.blocked] at hw
    cases hw

/-- A lock that was granted is compatible with those of the others. -/
theorem Exclusive.grant {l l' : List (FileLock ω)} (h : Exclusive l) (hl : WellFormed l)
    (hf : findConflict l r = none)
    (hheld : ∀ o x, held l' o x = if o = r.flOwner ∧ Covers r x then r.flType else held l o x) :
    Exclusive l' := by
  have hfree : ∀ {o x}, o ≠ r.flOwner → Covers r x → r.flType ≠ .unlck →
      (held l o x = .wrlck ∨ r.flType = .wrlck) → held l o x = .unlck := by
    intro o x ho hx ht hw
    by_contra hne
    obtain ⟨a, ha, hm, hat, hax⟩ := (held_eq_iff hl hne).mp rfl
    have := findConflict_none hf ht ha
    rw [← Bool.not_eq_true, conflict_iff] at this
    exact this ⟨hm.1, hm.2 ▸ ho.symm, hax.1.trans hx.2, hx.1.trans hax.2, hat ▸ hw⟩
  intro o o' x hne hw
  rw [hheld] at hw ⊢
  by_cases h₁ : o = r.flOwner ∧ Covers r x
  · rw [if_pos h₁] at hw
    have ho' : o' ≠ r.flOwner := fun ho => hne (h₁.1.trans ho.symm)
    rw [if_neg fun h₂ => ho' h₂.1]
    exact hfree ho' h₁.2 (by simp [hw]) (.inr hw)
  · rw [if_neg h₁] at hw
    split_ifs with h₂
    · by_contra ht
      have := hfree (fun ho => hne (ho.trans h₂.1.symm)) h₂.2 ht (.inl hw)
      rw [hw] at this
      cases this
    · exact h hne hw

theorem Exclusive.compatible (h : Exclusive l) (hl : WellFormed l) (ha : a ∈ l) (hb : b ∈ l)
    (hp : a.flPosix = true) : posixLocksConflict a b = false := by
  by_contra hc
  rw [Bool.not_eq_false, conflict_iff] at hc
  obtain ⟨hpb, hne, h₁, h₂, hw⟩ := hc
  have hra := hl.range ha hp
  have hrb := hl.range hb hpb
  have hx : Covers a (max a.flStart b.flStart) ∧ Covers b (max a.flStart b.flStart) := by
    unfold Covers
    omega
  have hta := (held_eq_iff hl (hl.type ha hp)).mpr ⟨a, ha, ⟨hp, rfl⟩, rfl, hx.1⟩
  have htb := (held_eq_iff hl (hl.type hb hpb)).mpr ⟨b, hb, ⟨hpb, rfl⟩, rfl, hx.2⟩
  rcases hw with hw | hw
  · exact hl.type ha hp (hta.symm.trans (h hne.symm (htb.trans hw)))
  · exact hl.type hb hpb (htb.symm.trans (h hne (hta.trans hw)))

theorem Linked.edit (h : Linked s) {reply : Reply} {woken : List ℕ}
    (hnew : NewLocks (s.iFlock inode) newFl newFl2)
    (he : editLocks (s.iFlock inode) r newFl newFl2 = (reply, l, woken)) :
    Linked (locksWakeUpBlocks { s with iFlock := update s.iFlock inode l } woken) := by
  intro w hw
  obtain ⟨hw, hidle⟩ := mem_filter.mp hw
  obtain ⟨fl, hfl, hid, hc⟩ := h w hw
  show ∃ fl ∈ update s.iFlock inode l w.inode, _
  by_cases hi : w.inode = inode
  · have hgrows := editLocks_grows (r := r) hnew (hi ▸ hfl)
    rw [he] at hgrows
    rcases hgrows with hwoken | ⟨b, hb, hab⟩
    · exact (of_decide_eq_true hidle (hid ▸ hwoken)).elim
    · rw [hi, update_self]
      exact ⟨b, hb, hab.id.trans hid, hab.conflict hc⟩
  · rw [update_of_ne hi]
    exact ⟨fl, hfl, hid, hc⟩

theorem Linked.call (h : Linked s) {reply : Reply} {conflock : Option (FileLock ω)}
    (hnew : NewLocks (s.iFlock inode) newFl newFl2)
    (hc : Call s inode r newFl newFl2 reply conflock t) : Linked t := by
  cases hc with
  | again | deadlock | access => exact h
  | @sleep fl hf =>
    obtain ⟨hfl, hconf⟩ := findConflict_some hf
    intro w hw
    rcases mem_cons.mp hw with rfl | hw
    · exact ⟨fl, hfl, rfl, hconf⟩
    · exact h w hw
  | edit hf hacc he => exact h.edit (hnew.needed _) he

theorem Inv.step {act : Act ω} (h : Inv s) (hst : Step s act t) : Inv t := by
  cases hst with
  | @lock _ inode r newFl newFl2 reply conflock hr hnew _ heq =>
    have hcall := posixLockFile_call heq
    obtain ⟨hother, hfail, hok⟩ := posixLockFile_spec heq (h.wellFormed inode) hr (hnew inode)
    have hgood : WellFormed (t.iFlock inode) ∧ Exclusive (t.iFlock inode) := by
      by_cases hreply : reply = .ok
      · obtain ⟨hl, hheld⟩ := hok hreply
        refine ⟨hl, ?_⟩
        subst hreply
        cases hcall with
        | access => exact h.exclusive inode
        | edit hf hacc he =>
          refine (h.exclusive inode).grant (h.wellFormed inode) hf ?_
          simpa only [hacc, true_and] using hheld
      · rw [hfail hreply]
        exact ⟨h.wellFormed inode, h.exclusive inode⟩
    refine ⟨fun i => ?_, fun i => ?_, h.linked.call (hnew inode) hcall⟩
    · by_cases hi : i = inode
      · exact hi ▸ hgood.1
      · exact hother i hi ▸ h.wellFormed i
    · by_cases hi : i = inode
      · exact hi ▸ hgood.2
      · exact hother i hi ▸ h.exclusive i
  | cancel =>
    exact ⟨h.wellFormed, h.exclusive, fun w hw => h.linked w (mem_filter.mp hw).1⟩

/-- In every reachable state, every waiter waits for a lock on the list that it conflicts with,
and no two locks of different owners conflict. -/
theorem no_stale_waiter {acts : List (Act ω)} (h₀ : Initial s) (hrun : Run Step s acts t) :
    Linked t ∧ ∀ i, ∀ a ∈ t.iFlock i, ∀ b ∈ t.iFlock i, a.flPosix = true →
      posixLocksConflict a b = false := by
  have h := Run.invariant (I := Inv) Inv.step hrun h₀.inv
  exact ⟨h.linked, fun i a ha b hb hp =>
    (h.exclusive i).compatible (h.wellFormed i) ha hb hp⟩

/-- A reader waits for a writer. -/
theorem no_stale_waiter_reader :
    let writer : FileLock ℕ := ⟨0, 1, true, false, true, false, .wrlck, 0, 9⟩
    let reader : FileLock ℕ := ⟨5, 2, true, false, true, false, .rdlck, 4, 6⟩
    let s : State ℕ := ⟨fun _ => [], []⟩
    let t := (posixLockFile s 0 writer (some 1) (some 2)).2.2
    let u := (posixLockFile t 0 reader (some 3) (some 4)).2.2
    u.blocked.map (·.flNext) = [1] ∧ Linked u := by
  intro writer reader s t u
  have hempty : Initial s := ⟨fun _ => nodup_nil, fun _ a ha => (by cases ha), rfl⟩
  have hnew : ∀ i, NewLocks (t.iFlock i) (some 3) (some 4) := by
    intro i
    have hids : ∀ j ∈ (t.iFlock i).map (·.id), j = 1 := by
      by_cases hi : i = 0
      · subst hi
        decide
      · have : t.iFlock i = [] := update_of_ne hi _ _
        rw [this]
        exact fun j hj => by cases hj
    refine ⟨fun j hj hmem => ?_, fun j hj => ⟨fun hmem => ?_, ?_⟩⟩
    · cases hj
      exact absurd (hids _ hmem) (by decide)
    · cases hj
      exact absurd (hids _ hmem) (by decide)
    · cases hj
      decide
  have hrun : Run Step s
      [.lock 0 writer (some 1) (some 2), .lock 0 reader (some 3) (some 4)] u := by
    refine .cons (.lock ⟨rfl, by decide⟩ (fun i => ?_) ?_ rfl)
      (.cons (.lock ⟨rfl, by decide⟩ hnew ?_ rfl)
      (.nil _))
    · exact ⟨fun j _ hmem => (by cases hmem),
        fun j hj => ⟨fun hmem => (by cases hmem), by cases hj; decide⟩⟩
    · exact fun w hw => by cases hw
    · exact fun w hw => by cases hw
  exact ⟨by decide, (no_stale_waiter hempty hrun).1⟩

end Invariant

end LinuxKernel.Locks
