import LinuxKernel.Rwsem.Model

/-! # The lock is handed over in order

The count, the holders and the shape of the queue are tied together: readers hold the lock only in
front of a writer, so the one that the last reader wakes is a writer, and the queue is empty when
nobody holds the lock.
-/

namespace LinuxKernel.Rwsem

open List

variable {T : Type*}

section Queue

variable {before granted after : List (Waiter T)} {w : Waiter T} {l : List (Waiter T)}

theorem takeReaders_append (l : List (Waiter T)) : (takeReaders l).1 ++ (takeReaders l).2 = l := by
  fun_induction takeReaders l with
  | case1 => rfl
  | case2 w rest _ ih => rw [cons_append, ih]
  | case3 w rest _ => rfl

theorem flags_of_mem_takeReaders (h : w ∈ (takeReaders l).1) : w.flags = .waitingForRead := by
  fun_induction takeReaders l with
  | case1 => simp at h
  | case2 v rest hv ih =>
    rcases mem_cons.mp h with rfl | h
    · exact hv
    · exact ih h
  | case3 => simp at h

/-- The first waiter, if there is one, wants to write. -/
def HeadWriter (l : List (Waiter T)) : Prop := ∀ w ∈ l.head?, w.flags = .waitingForWrite

theorem headWriter_takeReaders (l : List (Waiter T)) : HeadWriter (takeReaders l).2 := by
  fun_induction takeReaders l with
  | case1 => simp [HeadWriter]
  | case2 v rest hv ih => exact ih
  | case3 v rest hv => simpa [HeadWriter] using hv

theorem HeadWriter.append (h : HeadWriter l) (hl : l ≠ []) (w : Waiter T) :
    HeadWriter (l ++ [w]) := by
  cases l with
  | nil => exact absurd rfl hl
  | cons v l => simpa [HeadWriter] using h

/-- A call leaves no waiter behind that came before one it grants, and two of them are granted
together only as readers. -/
structure InOrder (before granted after : List (Waiter T)) : Prop where
  kept : ∀ w ∈ before, w ∈ granted ∨ w ∈ after
  fifo : ∀ r ∈ granted, ∀ w ∈ before, w.ticket < r.ticket →
    w ∈ granted ∧ w.flags = .waitingForRead ∧ r.flags = .waitingForRead

theorem InOrder.none (h : ∀ w ∈ before, w ∈ after) : InOrder before [] after :=
  ⟨fun w hw => .inr (h w hw), by simp⟩

theorem InOrder.of_empty : InOrder [] granted after := ⟨by simp, by simp⟩

theorem InOrder.first (h : (w :: after).Pairwise (·.ticket < ·.ticket)) :
    InOrder (w :: after) [w] after where
  kept v hv := by simpa using hv
  fifo r hr v hv hlt := by
    obtain rfl := mem_singleton.mp hr
    rcases mem_cons.mp hv with rfl | hv
    · omega
    · have := (pairwise_cons.mp h).1 v hv
      omega

theorem InOrder.readers (hread : ∀ w ∈ granted, w.flags = .waitingForRead)
    (h : (granted ++ after).Pairwise (·.ticket < ·.ticket)) :
    InOrder (granted ++ after) granted after where
  kept v hv := mem_append.mp hv
  fifo r hr v hv hlt := by
    have hmem : v ∈ granted := by
      rcases mem_append.mp hv with hv | hv
      · exact hv
      · have := (pairwise_append.mp h).2.2 r hr v hv
        omega
    exact ⟨hmem, hread v hmem, hread r hr⟩

end Queue

section Invariant

variable {s : System T} {t : T}

inductive Mode : System T → Prop where
  | free {s : System T} : s.sem.activity = 0 → s.readers = [] → s.writers = [] →
      s.sem.waitList = [] → Mode s
  | read {s : System T} : s.sem.activity = s.readers.length → s.readers ≠ [] → s.writers = [] →
      HeadWriter s.sem.waitList → Mode s
  | write {s : System T} (t : T) : s.sem.activity = -1 → s.readers = [] → s.writers = [t] → Mode s

structure Inv (s : System T) : Prop where
  mode : Mode s
  sorted : s.sem.waitList.Pairwise (·.ticket < ·.ticket)
  bound : ∀ w ∈ s.sem.waitList, w.ticket < s.requests
  fits : s.readers.length < 2 ^ 31

theorem inv_init : Inv (init : System T) :=
  ⟨.free rfl rfl rfl rfl, .nil, by simp [init], by simp [init]⟩

theorem s32_of_lt {x : ℤ} (h₀ : 0 ≤ x) (h : x < 2 ^ 31) : s32 x = x := by
  rw [s32, BitVec.toInt_ofInt]
  exact Int.bmod_eq_of_le (by omega) (by omega)

/-- The count is exact as long as it does not overflow. -/
structure Good (s : System T) (r : System T × List (Waiter T)) : Prop where
  inv : r.1.readers.length < 2 ^ 31 → Inv r.1
  order : InOrder s.sem.waitList r.2 r.1.sem.waitList

theorem give_nil (s : System T) (sem : RwSemaphore T) :
    s.give (sem, []) = ({ s with sem := sem }, []) := by
  simp [System.give, tasksWith]

theorem Inv.pairwise_append (h : Inv s) {w : Waiter T} (hw : w.ticket = s.requests) :
    (s.sem.waitList ++ [w]).Pairwise (·.ticket < ·.ticket) := by
  refine List.pairwise_append.mpr ⟨h.sorted, pairwise_singleton .., fun v hv x hx => ?_⟩
  rw [mem_singleton.mp hx, hw]
  exact h.bound v hv

end Invariant

section Requests

variable {s : System T} (h : Inv s) (t : T)
include h

def request (s : System T) (t : T) (flags : Flags) : Waiter T := ⟨t, flags, s.requests⟩

theorem Inv.grant_read (ha : 0 ≤ s.sem.activity) (hq : s.sem.waitList = []) :
    Good s (System.give { s with requests := s.requests + 1 }
      ({ s.sem with activity := s32 (s.sem.activity + 1) }, [request s t .waitingForRead])) := by
  refine ⟨fun hlt => ⟨.read ?_ ?_ ?_ ?_, ?_, ?_, hlt⟩, ?_⟩
  · have hact : s.sem.activity = s.readers.length := by
      cases h.mode with
      | free h0 hr => simp [h0, hr]
      | read hn => exact hn
      | write _ hm => omega
    have hlen : s.readers.length + 1 < 2 ^ 31 := by
      simpa [System.give, tasksWith, request] using hlt
    rw [System.give, s32_of_lt (by omega) (by omega), hact]
    simp [tasksWith, request]
  · simp [System.give, tasksWith, request]
  · cases h.mode with
    | free _ _ hw => simp [System.give, tasksWith, request, hw]
    | read _ _ hw => simp [System.give, tasksWith, request, hw]
    | write _ hm => omega
  · simp [System.give, HeadWriter, hq]
  · simp [System.give, hq]
  · simp [System.give, hq]
  · rw [hq]
    exact .of_empty

theorem Inv.grant_write (ha : s.sem.activity = 0) (hq : s.sem.waitList = []) :
    Good s (System.give { s with requests := s.requests + 1 }
      ({ s.sem with activity := -1 }, [request s t .waitingForWrite])) := by
  have hfree : s.readers = [] ∧ s.writers = [] := by
    cases h.mode with
    | free _ hr hw => exact ⟨hr, hw⟩
    | read hn hr =>
      exact absurd (length_eq_zero_iff.mp (by omega)) hr
    | write _ hm => omega
  refine ⟨fun hlt => ⟨.write t rfl ?_ ?_, ?_, ?_, hlt⟩, ?_⟩
  · simp [System.give, tasksWith, request, hfree.1]
  · simp [System.give, tasksWith, request, hfree.2]
  · simp [System.give, hq]
  · simp [System.give, hq]
  · rw [hq]
    exact .of_empty

/-- A request that has to wait goes to the end, and it does not become the first one behind
readers. -/
theorem Inv.enqueue {flags : Flags} (hfree : s.sem.activity ≠ 0 ∨ s.sem.waitList ≠ [])
    (hread : 0 < s.sem.activity → flags = .waitingForWrite ∨ s.sem.waitList ≠ []) :
    Good s (System.give { s with requests := s.requests + 1 }
      ({ s.sem with waitList := s.sem.waitList ++ [request s t flags] }, [])) := by
  rw [give_nil]
  refine ⟨fun hlt => ⟨?_, h.pairwise_append rfl, fun w hw => ?_, hlt⟩,
    .none fun w hw => mem_append_left _ hw⟩
  · cases h.mode with
    | free h0 _ _ hq => exact absurd hfree (by simp [h0, hq])
    | read hn hr hw hhead =>
      have hpos : 0 < s.sem.activity := by
        have := length_pos_iff.mpr hr
        omega
      refine .read hn hr hw ?_
      by_cases hq : s.sem.waitList = []
      · have hflags := (hread hpos).resolve_right (by simp [hq])
        simp [HeadWriter, hq, request, hflags]
      · exact hhead.append hq _
    | write t' hm hr hw => exact .write t' hm hr hw
  · rcases mem_append.mp hw with hw | hw
    · exact Nat.lt_succ_of_lt (h.bound w hw)
    · rw [mem_singleton.mp hw]
      exact Nat.lt_succ_self _

theorem Inv.refuse : Good s (System.give { s with requests := s.requests + 1 } (s.sem, [])) := by
  rw [give_nil]
  refine ⟨fun hlt => ⟨?_, h.sorted, fun w hw => Nat.lt_succ_of_lt (h.bound w hw), hlt⟩,
    .none fun w hw => hw⟩
  cases h.mode with
  | free h0 hr hw hq => exact .free h0 hr hw hq
  | read hn hr hw hhead => exact .read hn hr hw hhead
  | write t hm hr hw => exact .write t hm hr hw

end Requests

section Releases

variable {s : System T} {t : T} {l : List (Waiter T)}

theorem tasksWith_read (h : ∀ w ∈ l, w.flags = .waitingForRead) :
    tasksWith .waitingForRead l = l.map (·.task) := by
  rw [tasksWith, filter_eq_self.mpr (by simpa using h)]

theorem tasksWith_write (h : ∀ w ∈ l, w.flags = .waitingForRead) :
    tasksWith .waitingForWrite l = [] := by
  have hnil : l.filter (·.flags = .waitingForWrite) = [] :=
    filter_eq_nil_iff.mpr fun w hw => by simp [h w hw]
  rw [tasksWith, hnil, map_nil]

/-- The readers at the front are given the lock, next to those who hold it. -/
theorem Inv.wake_readers (h : Inv s) {readers : List T} {n : ℕ} (hn : readers.length = n)
    (hne : readers = [] → (takeReaders s.sem.waitList).1 ≠ []) :
    Good s (System.give ⟨s.sem, readers, [], s.requests⟩ (wakeReaders ⟨n, s.sem.waitList⟩)) := by
  have happ := takeReaders_append s.sem.waitList
  have hread : ∀ w ∈ (takeReaders s.sem.waitList).1, w.flags = .waitingForRead :=
    fun w hw => flags_of_mem_takeReaders hw
  have hgive : System.give ⟨s.sem, readers, [], s.requests⟩ (wakeReaders ⟨n, s.sem.waitList⟩) =
      (⟨⟨s32 (n + (takeReaders s.sem.waitList).1.length), (takeReaders s.sem.waitList).2⟩,
        readers ++ (takeReaders s.sem.waitList).1.map (·.task), [], s.requests⟩,
        (takeReaders s.sem.waitList).1) := by
    simp [System.give, wakeReaders, tasksWith_read hread, tasksWith_write hread]
  have hsorted := h.sorted
  rw [← happ] at hsorted
  rw [hgive]
  refine ⟨fun hlt => ⟨.read ?_ ?_ rfl (headWriter_takeReaders _), ?_, fun w hw => ?_, hlt⟩, ?_⟩
  · have hlen : n + (takeReaders s.sem.waitList).1.length < 2 ^ 31 := by simpa [hn] using hlt
    dsimp only
    rw [s32_of_lt (by omega) (by omega)]
    simp [hn]
  · simpa using hne
  · exact (List.pairwise_append.mp hsorted).2.1
  · have hmem := mem_append_right (takeReaders s.sem.waitList).1 hw
    rw [happ] at hmem
    exact h.bound w hmem
  · have := InOrder.readers hread hsorted
    rwa [happ] at this

theorem Inv.wake_writer (h : Inv s) {w : Waiter T} {rest : List (Waiter T)}
    (hq : s.sem.waitList = w :: rest) (hw : w.flags = .waitingForWrite) :
    Good s (System.give ⟨s.sem, [], [], s.requests⟩ (⟨-1, rest⟩, [w])) := by
  have hsorted := h.sorted
  rw [hq] at hsorted
  refine ⟨fun hlt => ⟨.write w.task rfl ?_ ?_, (pairwise_cons.mp hsorted).2,
    fun v hv => ?_, hlt⟩, ?_⟩
  · simp [System.give, tasksWith, hw]
  · simp [System.give, tasksWith, hw]
  · exact h.bound v (by rw [hq]; exact mem_cons_of_mem w hv)
  · rw [hq]
    exact .first hsorted

theorem Inv.wake_none (h : Inv s) {act : ℤ} {readers writers : List T}
    (hmode : Mode ⟨⟨act, s.sem.waitList⟩, readers, writers, s.requests⟩) :
    Good s (System.give ⟨s.sem, readers, writers, s.requests⟩ (⟨act, s.sem.waitList⟩, [])) := by
  rw [give_nil]
  exact ⟨fun hlt => ⟨hmode, h.sorted, h.bound, hlt⟩, .none fun w hw => hw⟩

theorem Inv.only_writer (h : Inv s) (ht : t ∈ s.writers) : s.writers = [t] ∧ s.readers = [] := by
  cases h.mode with
  | free _ _ hw => simp [hw] at ht
  | read _ _ hw => simp [hw] at ht
  | write t' _ hr hw =>
    rw [hw, mem_singleton] at ht
    exact ⟨ht ▸ hw, hr⟩

variable [DecidableEq T]

theorem Inv.up_read (h : Inv s) (ht : t ∈ s.readers) :
    Good s (System.give { s with readers := s.readers.erase t } (upRead s.sem)) ∧
      ∀ w ∈ (upRead s.sem).2, w.flags = .waitingForWrite := by
  obtain ⟨⟨act, q⟩, rs, ws, n⟩ := s
  cases h.mode with
  | free _ hr => simp_all
  | write _ _ hr => simp_all
  | read hn hr hw hhead =>
    dsimp only at hn hr hw hhead ht ⊢
    subst hw
    have hlen := length_erase_of_mem ht
    have hpos := length_pos_iff.mpr hr
    have hact : s32 (act - 1) = (rs.erase t).length := by
      have hfits := h.fits
      rw [s32_of_lt (by omega) (by dsimp only at hfits; omega)]
      omega
    by_cases hlast : rs.erase t = []
    · have h0 : s32 (act - 1) = 0 := by simp [hact, hlast]
      rw [hlast]
      cases q with
      | nil =>
        have heq : upRead (⟨act, []⟩ : RwSemaphore T) = (⟨0, []⟩, []) := by simp [upRead, h0]
        rw [heq]
        exact ⟨h.wake_none (.free rfl rfl rfl rfl), by simp⟩
      | cons w rest =>
        have hflags : w.flags = .waitingForWrite := hhead w (by simp)
        have heq : upRead ⟨act, w :: rest⟩ = (⟨-1, rest⟩, [w]) := by
          simp [upRead, h0, rwsemWakeOneWriter]
        rw [heq]
        exact ⟨h.wake_writer rfl hflags, by simpa using hflags⟩
    · have h0 : s32 (act - 1) ≠ 0 := by
        have := length_pos_iff.mpr hlast
        omega
      have heq : upRead ⟨act, q⟩ = (⟨s32 (act - 1), q⟩, []) := by simp [upRead, h0]
      rw [heq]
      exact ⟨h.wake_none (.read hact hlast rfl hhead), by simp⟩

theorem Inv.up_write (h : Inv s) (ht : t ∈ s.writers) :
    Good s (System.give { s with writers := s.writers.erase t } (upWrite s.sem)) := by
  obtain ⟨hw, hr⟩ := h.only_writer ht
  obtain ⟨⟨act, q⟩, rs, ws, n⟩ := s
  subst hw hr
  rw [erase_cons_head]
  cases q with
  | nil => exact h.wake_none (.free rfl rfl rfl rfl)
  | cons w rest =>
    cases hf : w.flags with
    | waitingForWrite =>
      have heq : upWrite ⟨act, w :: rest⟩ = (⟨-1, rest⟩, [w]) := by simp [upWrite, rwsemDoWake, hf]
      rw [heq]
      exact h.wake_writer rfl hf
    | waitingForRead =>
      have heq : upWrite ⟨act, w :: rest⟩ = wakeReaders ⟨0, w :: rest⟩ := by
        simp [upWrite, rwsemDoWake, hf]
      rw [heq]
      exact h.wake_readers rfl fun _ => by simp [takeReaders, hf]

theorem Inv.downgrade (h : Inv s) (ht : t ∈ s.writers) :
    Good s (System.give { s with writers := s.writers.erase t, readers := t :: s.readers }
      (downgradeWrite s.sem)) := by
  obtain ⟨hw, hr⟩ := h.only_writer ht
  obtain ⟨⟨act, q⟩, rs, ws, n⟩ := s
  subst hw hr
  rw [erase_cons_head]
  cases q with
  | nil => exact h.wake_none (.read rfl (by simp) rfl (by simp [HeadWriter]))
  | cons w rest =>
    cases hf : w.flags with
    | waitingForWrite =>
      have heq : downgradeWrite ⟨act, w :: rest⟩ = (⟨1, w :: rest⟩, []) := by
        simp [downgradeWrite, rwsemDoWake, hf]
      rw [heq]
      exact h.wake_none (.read rfl (by simp) rfl (by simp [HeadWriter, hf]))
    | waitingForRead =>
      have heq : downgradeWrite ⟨act, w :: rest⟩ = wakeReaders ⟨1, w :: rest⟩ := by
        simp [downgradeWrite, rwsemDoWake, hf]
      rw [heq]
      exact h.wake_readers rfl (by simp)

end Releases

section Runs

variable [DecidableEq T] {s : System T} {op : Op T}

theorem Inv.exec (h : Inv s) (ha : Allowed s op) : Good s (exec s op) := by
  cases op with
  | downRead t =>
    simp only [Rwsem.exec, downRead]
    split
    · next hc => exact h.grant_read t hc.1 hc.2
    · next hc =>
      -- with a negative count a writer holds the lock, else the queue is not empty
      by_cases hact : 0 ≤ s.sem.activity
      · have hq : s.sem.waitList ≠ [] := fun hq => hc ⟨hact, hq⟩
        exact h.enqueue t (.inr hq) fun _ => .inr hq
      · exact h.enqueue t (.inl (by omega)) fun hpos => absurd hpos (by omega)
  | downReadTrylock t =>
    simp only [Rwsem.exec, downReadTrylock]
    split
    · next hc => exact h.grant_read t hc.1 hc.2
    · exact h.refuse
  | downWrite t =>
    simp only [Rwsem.exec, downWriteNested]
    split
    · next hc => exact h.grant_write t hc.1 hc.2
    · next hc => exact h.enqueue t (Decidable.not_and_iff_or_not.mp hc) fun _ => .inl rfl
  | downWriteTrylock t =>
    simp only [Rwsem.exec, downWriteTrylock]
    split
    · next hc => exact h.grant_write t hc.1 hc.2
    · exact h.refuse
  | upRead t => exact (h.up_read ha.2).1
  | upWrite t => exact h.up_write ha.2
  | downgradeWrite t => exact h.downgrade ha.2

/-- What holds between any two calls: the count tells who holds the lock, a writer holds it alone,
the queue behind readers starts with a writer and is empty behind nobody, and the calls keep the
order. -/
structure Correct (s : System T) : Prop where
  writer_iff : s.sem.activity = -1 ↔ s.writers.length = 1
  activity : s.sem.activity ≠ -1 → s.sem.activity = s.readers.length
  exclusive : s.writers ≠ [] → s.writers.length = 1 ∧ s.readers = []
  head : s.readers ≠ [] → ∀ w ∈ s.sem.waitList.head?, w.flags = .waitingForWrite
  free : s.readers = [] → s.writers = [] → s.sem.waitList = []
  wakes_writer : ∀ t, Allowed s (.upRead t) →
    ∀ w ∈ (Rwsem.exec s (.upRead t)).2, w.flags = .waitingForWrite
  sorted : s.sem.waitList.Pairwise (·.ticket < ·.ticket)
  bound : ∀ w ∈ s.sem.waitList, w.ticket < s.requests
  order : ∀ op, Allowed s op →
    InOrder s.sem.waitList (Rwsem.exec s op).2 (Rwsem.exec s op).1.sem.waitList

theorem Inv.correct (h : Inv s) : Correct s where
  writer_iff := by
    cases h.mode with
    | free h0 _ hw => simp [h0, hw]
    | read hn _ hw => simp [hw]; omega
    | write _ hm _ hw => simp [hm, hw]
  activity hne := by
    cases h.mode with
    | free h0 hr => simp [h0, hr]
    | read hn => exact hn
    | write _ hm => exact absurd hm hne
  exclusive hne := by
    cases h.mode with
    | free _ _ hw => exact absurd hw hne
    | read _ _ hw => exact absurd hw hne
    | write _ _ hr hw => exact ⟨by simp [hw], hr⟩
  head hne := by
    cases h.mode with
    | free _ hr => exact absurd hr hne
    | read _ _ _ hhead => exact hhead
    | write _ _ hr => exact absurd hr hne
  free hr hw := by
    cases h.mode with
    | free _ _ _ hq => exact hq
    | read _ hne => exact absurd hr hne
    | write _ _ _ hw' => simp [hw'] at hw
  wakes_writer t ha := (h.up_read ha.2).2
  sorted := h.sorted
  bound := h.bound
  order op ha := (h.exec ha).order

/-- A step after which the lock is held for reading less than `2 ^ 31` times. -/
def FittingStep (s : System T) (op : Op T) (s' : System T) : Prop :=
  Step s op s' ∧ s'.readers.length < 2 ^ 31

theorem Inv.step {s' : System T} (h : Inv s) (hstep : FittingStep s op s') : Inv s' := by
  obtain ⟨⟨ha, rfl⟩, hlt⟩ := hstep
  exact (h.exec ha).inv hlt

theorem rwsem_hands_over_in_order {ops : List (Op T)}
    (h : Run FittingStep (init : System T) ops s) : Correct s :=
  (Run.invariant (fun hs hstep => hs.step hstep) h inv_init).correct

/-- A reader, a writer and a reader come, and the first one releases the lock. -/
theorem rwsem_hands_over_in_order_write :
    Correct (⟨⟨-1, [⟨2, .waitingForRead, 2⟩]⟩, [], [1], 3⟩ : System ℕ) := by
  refine rwsem_hands_over_in_order (show Run FittingStep init
    [.downRead 0, .downWrite 1, .downRead 2, .upRead 0] _ from ?_)
  refine .cons ⟨⟨?_, rfl⟩, ?_⟩ (.cons ⟨⟨?_, rfl⟩, ?_⟩ (.cons ⟨⟨?_, rfl⟩, ?_⟩
    (.cons ⟨⟨?_, rfl⟩, by decide⟩ (.nil _)))) <;>
    simp [Allowed, Op.task, Rwsem.exec, init, System.give, downRead, downWriteNested, tasksWith,
      s32]

/-- Each of `n` tasks takes the lock for reading. -/
theorem run_readers (n : ℕ) (hn : n ≤ 2 ^ 31) : Run Step (init : System ℕ)
    ((range n).map .downReadTrylock) ⟨⟨s32 n, []⟩, range n, [], n⟩ := by
  induction n with
  | zero => exact .nil _
  | succ n ih =>
    rw [range_succ, map_append]
    refine (ih (by omega)).append (.cons ⟨⟨by simp, trivial⟩, ?_⟩ (.nil _))
    have hact : s32 n = n := s32_of_lt (by omega) (by omega)
    simp [Rwsem.exec, downReadTrylock, System.give, tasksWith, hact]

/-- The count of the readers becomes negative with the last one. -/
theorem readers_overflow :
    ∃ ops s, Run Step (init : System ℕ) ops s ∧ s.readers.length = 2 ^ 31 ∧ ¬ Correct s := by
  obtain ⟨n, hn⟩ : ∃ n : ℕ, n = 2 ^ 31 := ⟨_, rfl⟩
  have hact : s32 n = -2 ^ 31 := by rw [hn]; rfl
  refine ⟨_, _, run_readers n (Nat.le_of_eq hn), by rw [length_range, hn], fun h => ?_⟩
  have hcount := h.activity
  dsimp only at hcount
  omega

end Runs

end LinuxKernel.Rwsem
