import LinuxKernel.E820.Points

/-! # The walk over the change points

Up to the address that was reached, the entries that are finished and the one that is being built
have the right types. Between two points the type is that of the overlap list.
-/

namespace LinuxKernel.E820

open Function List Nat

variable {biosmap : Map} {n : ℕ}

section Emitted

variable {r : Map} {m b : ℕ} {e : E820Entry}

def E820Entry.stop (e : E820Entry) : ℕ := e.addr + e.size

/-- The finished entries, which end at `b` at the latest. -/
structure Emitted (r : Map) (m b : ℕ) : Prop where
  nonempty : ∀ i < m, (r i).size ≠ 0
  typed : ∀ i < m, (r i).type ≠ 0
  sorted : ∀ j < m, ∀ i < j, (r i).stop ≤ (r j).addr
  apart : ∀ i, i + 1 < m → (r i).stop = (r (i + 1)).addr → (r i).type ≠ (r (i + 1)).type
  stop_le : ∀ i < m, (r i).stop ≤ b

variable (h : Emitted r m b)
include h

theorem Emitted.mono {b' : ℕ} (hb : b ≤ b') : Emitted r m b' :=
  { h with stop_le := fun i hi => le_trans (h.stop_le i hi) hb }

/-- What is behind the finished entries does not matter. -/
theorem Emitted.congr {r' : Map} (heq : ∀ i < m, r' i = r i) : Emitted r' m b where
  nonempty i hi := by
    rw [heq i hi]
    exact h.nonempty i hi
  typed i hi := by
    rw [heq i hi]
    exact h.typed i hi
  sorted j hj i hi := by
    rw [heq i (by omega), heq j hj]
    exact h.sorted j hj i hi
  apart i hi := by
    rw [heq i (by omega), heq (i + 1) hi]
    exact h.apart i hi
  stop_le i hi := by
    rw [heq i hi]
    exact h.stop_le i hi

theorem Emitted.push (hr : r m = e) (hsize : e.size ≠ 0) (htype : e.type ≠ 0) (hb : b ≤ e.addr)
    (hapart : ∀ i, i + 1 = m → (r i).stop = e.addr → (r i).type ≠ e.type) :
    Emitted r (m + 1) e.stop where
  nonempty := forall_lt_succ_right.mpr ⟨h.nonempty, by rwa [hr]⟩
  typed := forall_lt_succ_right.mpr ⟨h.typed, by rwa [hr]⟩
  sorted := forall_lt_succ_right.mpr ⟨h.sorted, fun i hi => hr ▸ (h.stop_le i hi).trans hb⟩
  apart i hi := by
    rcases Nat.lt_succ_iff_lt_or_eq.mp hi with hi | rfl
    · exact h.apart i hi
    · rw [hr]
      exact hapart i rfl
  stop_le := forall_lt_succ_right.mpr
    ⟨fun i hi => ((h.stop_le i hi).trans hb).trans (Nat.le_add_right ..), by rw [hr]⟩

end Emitted

section Invariant

/-- The points that are to come behind one with the key `k`. -/
structure Remaining (biosmap : Map) (n : ℕ) (rest : List ChangeMember) (k : ℕ) : Prop where
  points : ∀ p ∈ rest, IsPoint biosmap n p
  sorted : rest.Pairwise (key biosmap · ≤ key biosmap ·)
  nodup : rest.Nodup
  rest_ge : ∀ p ∈ rest, k ≤ key biosmap p
  done_le : ∀ p, IsPoint biosmap n p → p ∉ rest → key biosmap p ≤ k

theorem Remaining.tail {p : ChangeMember} {rest : List ChangeMember} {k : ℕ}
    (h : Remaining biosmap n (p :: rest) k) : Remaining biosmap n rest (key biosmap p) where
  points q hq := h.points q (mem_cons_of_mem p hq)
  sorted := (pairwise_cons.mp h.sorted).2
  nodup := (nodup_cons.mp h.nodup).2
  rest_ge := (pairwise_cons.mp h.sorted).1
  done_le q hq hmem := by
    by_cases hqp : q = p
    · rw [hqp]
    · exact le_trans (h.done_le q hq (by simp [hqp, hmem])) (h.rest_ge p mem_cons_self)

/-- The state of the walk at such a point. -/
structure Inv (biosmap : Map) (n : ℕ) (rest : List ChangeMember) (k : ℕ) (s : Sweep) : Prop
    extends Remaining biosmap n rest k where
  overlap_nodup : s.overlap.Nodup
  mem_overlap : ∀ i, i ∈ s.overlap ↔ i < n ∧ (biosmap i).size ≠ 0 ∧
    ⟨i, (biosmap i).addr⟩ ∉ rest ∧ ⟨i, (biosmap i).stop⟩ ∈ rest
  type : s.lastType = currentType biosmap s.overlap
  emitted : Emitted s.newBios s.newEntry (if s.lastType = 0 then k / 2 else s.lastAddr)
  isOpen : s.lastType ≠ 0 → (s.newBios s.newEntry).addr = s.lastAddr ∧
    (s.newBios s.newEntry).type = s.lastType ∧ s.lastAddr ≤ k / 2
  /-- Behind a finished entry only ends follow at the same address. -/
  gap : s.lastType = 0 → ∀ i < s.newEntry, 2 * (s.newBios i).stop + 1 ≤ k
  touch : s.lastType ≠ 0 → ∀ i, i + 1 = s.newEntry → (s.newBios i).stop = s.lastAddr →
    (s.newBios i).type ≠ s.lastType ∧ (k / 2 = s.lastAddr →
      ((s.newBios i).type < s.lastType →
        ∃ j ∈ s.overlap, (biosmap j).addr = s.lastAddr ∧ (biosmap j).type = s.lastType) ∧
      (s.lastType < (s.newBios i).type → k = 2 * s.lastAddr + 1))
  paint : ∀ x < k / 2, ∀ t ≠ 0,
    (t ∈ types s.newBios s.newEntry x ∨ s.lastType = t ∧ s.lastAddr ≤ x) ↔
    IsGreatest (types biosmap n x) t

variable {rest : List ChangeMember} {k : ℕ} {s : Sweep}

/-- Between two points the entries around an address are those of the overlap list. -/
theorem Inv.covers_iff (h : Inv biosmap n rest k s) {x : ℕ} (hx : k / 2 ≤ x)
    (hrest : ∀ p ∈ rest, x < p.addr) (i : ℕ) :
    i ∈ s.overlap ↔ i < n ∧ (biosmap i).Covers x := by
  rw [h.mem_overlap]
  constructor
  · rintro ⟨hi, hs, hstart, hstop⟩
    have hle := h.done_le ⟨i, (biosmap i).addr⟩ ⟨hi, hs, .inl rfl⟩ hstart
    rw [key_of_start rfl] at hle
    have hlt := hrest _ hstop
    unfold E820Entry.stop at hlt
    unfold E820Entry.Covers
    dsimp only at hle hlt
    omega
  · rintro ⟨hi, hle, hlt⟩
    have hs : (biosmap i).size ≠ 0 := by omega
    refine ⟨hi, hs, fun hmem => ?_, ?_⟩
    · have := hrest _ hmem
      dsimp only at this
      omega
    · by_contra hmem
      have hdone := h.done_le ⟨i, (biosmap i).stop⟩ ⟨hi, hs, .inr rfl⟩ hmem
      unfold E820Entry.stop at hdone
      have hne : (biosmap i).addr + (biosmap i).size ≠ (biosmap i).addr := by omega
      rw [key_of_stop hne] at hdone
      dsimp only at hdone
      omega

theorem Inv.isGreatest_iff (h : Inv biosmap n rest k s) {x : ℕ} (hx : k / 2 ≤ x)
    (hrest : ∀ p ∈ rest, x < p.addr) {t : ℕ} (ht : t ≠ 0) :
    IsGreatest (types biosmap n x) t ↔ s.lastType = t := by
  have hcov := h.covers_iff hx hrest
  rw [h.type]
  constructor
  · rintro ⟨⟨i, hi, hc, rfl⟩, hub⟩
    have hle := type_le_currentType biosmap ((hcov i).mpr ⟨hi, hc⟩)
    have h0 : currentType biosmap s.overlap ≠ 0 := by omega
    obtain ⟨j, hj, heq⟩ := exists_currentType h0
    obtain ⟨hjn, hjc⟩ := (hcov j).mp hj
    have := hub ⟨j, hjn, hjc, heq⟩
    omega
  · rintro rfl
    obtain ⟨j, hj, heq⟩ := exists_currentType ht
    obtain ⟨hjn, hjc⟩ := (hcov j).mp hj
    refine ⟨⟨j, hjn, hjc, heq⟩, ?_⟩
    rintro t ⟨i, hi, hc, rfl⟩
    exact type_le_currentType biosmap ((hcov i).mpr ⟨hi, hc⟩)

end Invariant

theorem types_congr {r r' : Map} {m : ℕ} (h : ∀ i < m, r i = r' i) (x : ℕ) :
    types r m x = types r' m x := by
  ext t
  exact exists_congr fun i => and_congr_right fun hi => by rw [h i hi]

theorem mem_types_push {r : Map} {m : ℕ} {e : E820Entry} (hr : r m = e) (x t : ℕ) :
    t ∈ types r (m + 1) x ↔ t ∈ types r m x ∨ e.Covers x ∧ e.type = t := by
  rw [← hr]
  exact exists_lt_succ_right

section Step

variable {rest : List ChangeMember} {k : ℕ} {s : Sweep} {p : ChangeMember}

variable (h : Inv biosmap n (p :: rest) k s)
include h

theorem Inv.rest_addr {q : ChangeMember} (hq : q ∈ p :: rest) : p.addr ≤ q.addr := by
  have hle : key biosmap p ≤ key biosmap q := by
    rcases mem_cons.mp hq with rfl | hq
    · exact le.refl
    · exact (pairwise_cons.mp h.sorted).1 q hq
  have := Nat.div_le_div_right (c := 2) hle
  rwa [key_div_two, key_div_two] at this

theorem Inv.le_addr : k / 2 ≤ p.addr := by
  have := Nat.div_le_div_right (c := 2) (h.rest_ge p mem_cons_self)
  rwa [key_div_two] at this

theorem Inv.paint_to {x : ℕ} (hx : x < p.addr) {t : ℕ} (ht : t ≠ 0) :
    (t ∈ types s.newBios s.newEntry x ∨ s.lastType = t ∧ s.lastAddr ≤ x) ↔
      IsGreatest (types biosmap n x) t := by
  rcases lt_or_ge x (k / 2) with hlt | hge
  · exact h.paint x hlt t ht
  rw [h.isGreatest_iff hge (fun q hq => lt_of_lt_of_le hx (h.rest_addr hq)) ht]
  constructor
  · rintro (⟨i, hi, hc, -⟩ | ⟨rfl, -⟩)
    · have hstop := h.emitted.stop_le i hi
      have hopen := h.isOpen
      unfold E820Entry.Covers at hc
      unfold E820Entry.stop at hstop
      split at hstop
      · omega
      · omega
    · rfl
  · rintro rfl
    exact .inr ⟨rfl, le_trans (h.isOpen ht).2.2 hge⟩

def nextOverlap (biosmap : Map) (s : Sweep) (p : ChangeMember) : List ℕ :=
  if p.addr = (biosmap p.pbios).addr then s.overlap ++ [p.pbios]
  else removeOverlap s.overlap p.pbios

theorem Inv.start_not_mem (hp : p.addr = (biosmap p.pbios).addr) : p.pbios ∉ s.overlap := by
  intro hmem
  refine ((h.mem_overlap _).mp hmem).2.2.1 ?_
  rw [← hp]
  exact mem_cons_self

theorem Inv.stop_mem (hp : p.addr ≠ (biosmap p.pbios).addr) :
    p.pbios ∈ s.overlap ∧ p.addr = (biosmap p.pbios).stop := by
  obtain ⟨hn, hs, hor⟩ := h.points p mem_cons_self
  have hstop : p.addr = (biosmap p.pbios).stop := hor.resolve_left hp
  refine ⟨(h.mem_overlap _).mpr ⟨hn, hs, fun hmem => ?_, ?_⟩, hstop⟩
  · have := h.rest_addr hmem
    dsimp only at this
    omega
  · rw [← hstop]
    exact mem_cons_self

theorem Inv.mem_nextOverlap (i : ℕ) :
    i ∈ nextOverlap biosmap s p ↔ i < n ∧ (biosmap i).size ≠ 0 ∧ ⟨i, (biosmap i).addr⟩ ∉ rest ∧
      ⟨i, (biosmap i).stop⟩ ∈ rest := by
  obtain ⟨hpn, hps, -⟩ := h.points p mem_cons_self
  obtain ⟨hp, -⟩ := nodup_cons.mp h.nodup
  -- for the other entries the point does not matter
  have hother : i ≠ p.pbios → (i ∈ s.overlap ↔ i < n ∧ (biosmap i).size ≠ 0 ∧
      ⟨i, (biosmap i).addr⟩ ∉ rest ∧ ⟨i, (biosmap i).stop⟩ ∈ rest) := by
    intro hne
    have hpt : ∀ a, (⟨i, a⟩ : ChangeMember) ∈ p :: rest ↔ ⟨i, a⟩ ∈ rest := fun a =>
      ⟨fun hm => (mem_cons.mp hm).resolve_left fun heq => hne (heq ▸ rfl), mem_cons_of_mem p⟩
    rw [h.mem_overlap, hpt, hpt]
  unfold nextOverlap
  split
  · next hstart =>
    rw [mem_append, mem_singleton]
    rcases eq_or_ne i p.pbios with rfl | hne
    · simp only [or_true, true_iff]
      refine ⟨hpn, hps, by rwa [← hstart], ?_⟩
      by_contra hmem
      have hq : ⟨p.pbios, (biosmap p.pbios).stop⟩ ∉ p :: rest := fun hm => by
        rcases mem_cons.mp hm with heq | hm
        · have : (biosmap p.pbios).stop = p.addr := congrArg ChangeMember.addr heq
          unfold E820Entry.stop at this
          omega
        · exact hmem hm
      have hle := h.done_le ⟨p.pbios, (biosmap p.pbios).stop⟩ ⟨hpn, hps, .inr rfl⟩ hq
      have hge := h.rest_ge p mem_cons_self
      have hdiv := Nat.div_le_div_right (c := 2) (le_trans hle hge)
      rw [key_div_two, key_div_two] at hdiv
      unfold E820Entry.stop at hdiv
      dsimp only at hdiv
      omega
    · rw [← hother hne]
      simp [hne]
  · next hstop =>
    obtain ⟨hmem, heq⟩ := h.stop_mem hstop
    rw [mem_removeOverlap h.overlap_nodup hmem]
    rcases eq_or_ne i p.pbios with rfl | hne
    · simp only [ne_eq, not_true_eq_false, and_false, false_iff, not_and]
      intro _ _ _ hm
      rw [← heq] at hm
      exact hp hm
    · rw [hother hne]
      simp [hne]

theorem Inv.nextOverlap_nodup : (nextOverlap biosmap s p).Nodup := by
  unfold nextOverlap
  split
  · next hstart =>
    rw [nodup_append]
    refine ⟨h.overlap_nodup, nodup_singleton _, fun i hi j hj hij => ?_⟩
    rw [mem_singleton] at hj
    subst hij hj
    exact h.start_not_mem hstart hi
  · next hstop => exact removeOverlap_nodup h.overlap_nodup (h.stop_mem hstop).1

/-- A start can only raise the type, to its own one. -/
theorem Inv.type_start (hp : p.addr = (biosmap p.pbios).addr)
    (hne : currentType biosmap (nextOverlap biosmap s p) ≠ s.lastType) :
    s.lastType < currentType biosmap (nextOverlap biosmap s p) ∧
      (biosmap p.pbios).type = currentType biosmap (nextOverlap biosmap s p) := by
  have hle : s.lastType ≤ currentType biosmap (nextOverlap biosmap s p) := by
    rw [h.type, currentType_le_iff]
    intro i hi
    refine type_le_currentType biosmap ?_
    rw [nextOverlap, if_pos hp]
    exact mem_append_left _ hi
  refine ⟨by omega, ?_⟩
  have h0 : currentType biosmap (nextOverlap biosmap s p) ≠ 0 := by omega
  obtain ⟨i, hi, heq⟩ := exists_currentType h0
  rw [nextOverlap, if_pos hp, mem_append, mem_singleton] at hi
  rcases hi with hi | rfl
  · have := type_le_currentType biosmap hi
    rw [← h.type] at this
    omega
  · exact heq

theorem Inv.type_stop (hp : p.addr ≠ (biosmap p.pbios).addr) :
    currentType biosmap (nextOverlap biosmap s p) ≤ s.lastType := by
  rw [h.type, currentType_le_iff]
  intro i hi
  rw [nextOverlap, if_neg hp, mem_removeOverlap h.overlap_nodup (h.stop_mem hp).1] at hi
  exact type_le_currentType biosmap hi.1

theorem Inv.mem_nextOverlap_of_start {j : ℕ} (hj : j ∈ s.overlap)
    (haddr : (biosmap j).addr = p.addr) : j ∈ nextOverlap biosmap s p := by
  unfold nextOverlap
  split
  · exact mem_append_left _ hj
  · next hstop =>
    rw [mem_removeOverlap h.overlap_nodup (h.stop_mem hstop).1]
    exact ⟨hj, fun heq => hstop (heq ▸ haddr.symm)⟩

/-- The state of the walk when the entry that was being built is finished at a point, and the type
is going to be `c`. -/
structure Turned (biosmap : Map) (n : ℕ) (p : ChangeMember) (overlap : List ℕ) (c : ℕ) (t : Sweep) :
    Prop where
  emitted : Emitted t.newBios t.newEntry p.addr
  paint : ∀ x < p.addr, ∀ y ≠ 0, y ∈ types t.newBios t.newEntry x ↔ IsGreatest (types biosmap n x) y
  touch : c ≠ 0 → ∀ i, i + 1 = t.newEntry → (t.newBios i).stop = p.addr →
    (t.newBios i).type ≠ c ∧
      ((t.newBios i).type < c → ∃ j ∈ overlap, (biosmap j).addr = p.addr ∧ (biosmap j).type = c) ∧
      (c < (t.newBios i).type → key biosmap p = 2 * p.addr + 1)
  gap : c = 0 → ∀ i < t.newEntry, 2 * (t.newBios i).stop + 1 ≤ key biosmap p

section

variable {c : ℕ} (hc : c = currentType biosmap (nextOverlap biosmap s p))
include hc

theorem Inv.openEntry {t : Sweep} (hoverlap : t.overlap = nextOverlap biosmap s p)
    (ht : Turned biosmap n p (nextOverlap biosmap s p) c t) :
    Inv biosmap n rest (key biosmap p) (openEntry t p.addr c) := by
  have hdiv := key_div_two biosmap p
  have hnodup := h.nextOverlap_nodup
  have hmem := h.mem_nextOverlap
  rw [← hoverlap] at hnodup hmem hc ht
  unfold E820.openEntry
  split
  · next h0 =>
    have heq : ∀ i < t.newEntry, update t.newBios t.newEntry
        { t.newBios t.newEntry with addr := p.addr, type := c } i = t.newBios i :=
      fun i hi => update_of_ne (by omega) ..
    refine ⟨h.tail, hnodup, hmem, hc, ?_, fun _ => ?_, fun hzero => absurd hzero h0,
      fun _ i hi hstop => ?_, fun x hx y hy => ?_⟩
    · rw [if_neg h0]
      exact ht.emitted.congr heq
    · dsimp only
      rw [update_self]
      exact ⟨rfl, rfl, by omega⟩
    · dsimp only at hi hstop ⊢
      rw [heq i (by omega)] at hstop ⊢
      obtain ⟨hne, hup, hdown⟩ := ht.touch h0 i hi hstop
      exact ⟨hne, fun _ => ⟨hup, hdown⟩⟩
    · rw [hdiv] at hx
      rw [types_congr heq, ht.paint x hx y hy]
      exact or_iff_left fun hlast => absurd hlast.2 (by dsimp only; omega)
  · next h0 =>
    rw [not_not] at h0
    subst h0
    refine ⟨h.tail, hnodup, hmem, hc, ?_, fun h0 => absurd rfl h0, ht.gap, fun h0 => absurd rfl h0,
      fun x hx y hy => ?_⟩
    · rw [if_pos rfl, hdiv]
      exact ht.emitted
    · rw [hdiv] at hx
      rw [← ht.paint x hx y hy]
      exact or_iff_left fun hlast => hy hlast.1.symm

/-- Whether the type rises or falls tells a start from an end. -/
theorem Inv.turn (hne : c ≠ s.lastType) :
    (s.lastType < c → key biosmap p = 2 * p.addr ∧ ∃ j ∈ nextOverlap biosmap s p,
      (biosmap j).addr = p.addr ∧ (biosmap j).type = c) ∧
    (c < s.lastType → key biosmap p = 2 * p.addr + 1) := by
  subst hc
  by_cases hp : p.addr = (biosmap p.pbios).addr
  · obtain ⟨hlt, htype⟩ := h.type_start hp hne
    refine ⟨fun _ => ⟨key_of_start hp, p.pbios, ?_, hp.symm, htype⟩, fun _ => by omega⟩
    rw [nextOverlap, if_pos hp]
    simp
  · have hle := h.type_stop hp
    exact ⟨fun _ => by omega, fun _ => key_of_stop hp⟩

theorem Inv.closeEntry (hne : c ≠ s.lastType) :
    Turned biosmap n p (nextOverlap biosmap s p) c
      (closeEntry { s with overlap := nextOverlap biosmap s p } p.addr) := by
  have hle := h.le_addr
  have hk := h.rest_ge p mem_cons_self
  obtain ⟨hup, hdown⟩ := h.turn hc hne
  unfold E820.closeEntry
  dsimp only
  split
  · next h0 =>
    obtain ⟨haddr, htype, hlast⟩ := h.isOpen h0
    have hem := h.emitted
    rw [if_neg h0] at hem
    have heq : ∀ i < s.newEntry, update s.newBios s.newEntry
        { s.newBios s.newEntry with size := p.addr - s.lastAddr } i = s.newBios i :=
      fun i hi => update_of_ne (by omega) ..
    by_cases hsize : p.addr - s.lastAddr = 0
    · -- the entry has no size and its slot is taken again
      have hlast : p.addr = s.lastAddr := by omega
      rw [if_neg (by simpa [update_self] using hsize)]
      refine ⟨(hem.congr heq).mono (by omega), fun x hx y hy => ?_, fun hc0 i hi hstop => ?_,
        fun hc0 i hi => ?_⟩
      · rw [types_congr heq, ← h.paint_to hx hy]
        exact (or_iff_left fun hat => absurd hat.2 (by omega)).symm
      · dsimp only at hi hstop ⊢
        rw [heq i (by omega)] at hstop ⊢
        obtain ⟨hty, hsame⟩ := h.touch h0 i hi (by omega)
        obtain ⟨hup', hdown'⟩ := hsame (by omega)
        rcases lt_or_gt_of_ne hne with hlt | hgt
        · have hkey := hdown hlt
          have hfall : s.lastType < (s.newBios i).type := by
            refine Nat.lt_of_le_of_ne (Nat.le_of_not_lt fun hlt' => ?_) (Ne.symm hty)
            obtain ⟨j, hj, hjaddr, hjtype⟩ := hup' hlt'
            have := type_le_currentType biosmap (h.mem_nextOverlap_of_start hj (by omega))
            omega
          exact ⟨by omega, fun _ => by omega, fun _ => hkey⟩
        · obtain ⟨hkey, hj⟩ := hup hgt
          have hrise : (s.newBios i).type < s.lastType := by
            refine Nat.lt_of_le_of_ne (Nat.le_of_not_lt fun hlt' => ?_) hty
            have := hdown' hlt'
            omega
          exact ⟨by omega, fun _ => hj, fun _ => by omega⟩
      · have := hem.stop_le i hi
        have := hdown (by omega)
        dsimp only at hi ⊢
        rw [heq i hi]
        omega
    · -- the entry ends at the point
      rw [if_pos (by simpa [update_self] using hsize)]
      generalize hr : update s.newBios s.newEntry
        { s.newBios s.newEntry with size := p.addr - s.lastAddr } = r at heq ⊢
      have hnew : r s.newEntry = ⟨s.lastAddr, p.addr - s.lastAddr, s.lastType⟩ := by
        rw [← hr, update_self, ← haddr, ← htype]
      have hpush := (hem.congr heq).push hnew hsize h0 le.refl fun i hi hstop => by
        rw [heq i (by omega)] at hstop ⊢
        exact (h.touch h0 i hi hstop).1
      have hstop : (⟨s.lastAddr, p.addr - s.lastAddr, s.lastType⟩ : E820Entry).stop = p.addr := by
        unfold E820Entry.stop
        dsimp only
        omega
      rw [hstop] at hpush
      refine ⟨hpush, fun x hx y hy => ?_, fun hc0 i hi _ => ?_, fun hc0 i hi => ?_⟩
      · rw [mem_types_push hnew, types_congr heq, ← h.paint_to hx hy, and_comm]
        refine or_congr_right (and_congr_right fun _ => ?_)
        unfold E820Entry.Covers
        dsimp only
        omega
      · obtain rfl : i = s.newEntry := succ.inj hi
        dsimp only
        rw [hnew]
        exact ⟨Ne.symm hne, fun hlt => (hup hlt).2, hdown⟩
      · have := hpush.stop_le i hi
        have := hdown (by omega)
        dsimp only
        omega
  · next h0 =>
    rw [not_not] at h0
    have hem := h.emitted
    rw [if_pos h0] at hem
    refine ⟨hem.mono hle, fun x hx y hy => ?_, fun hc0 i hi hstop => ?_, fun hc0 => ?_⟩
    · rw [← h.paint_to hx hy]
      exact (or_iff_left fun hlast => hy (by omega)).symm
    · dsimp only at hi hstop
      have := h.gap h0 i (by omega)
      have := (hup (by omega)).1
      omega
    · exact absurd (hc0.trans h0.symm) hne

end

theorem Inv.keep (heq : currentType biosmap (nextOverlap biosmap s p) = s.lastType) :
    Inv biosmap n rest (key biosmap p) { s with overlap := nextOverlap biosmap s p } := by
  have hk := h.rest_ge p mem_cons_self
  have hle := h.le_addr
  refine ⟨h.tail, h.nextOverlap_nodup, h.mem_nextOverlap, heq.symm, ?_, fun h0 => ?_,
    fun h0 i hi => ?_, fun h0 i hi hstop => ?_, fun x hx t ht => ?_⟩
  · refine h.emitted.mono ?_
    split
    · omega
    · exact le.refl
  · obtain ⟨haddr, htype, hlast⟩ := h.isOpen h0
    refine ⟨haddr, htype, ?_⟩
    rw [key_div_two]
    exact le_trans hlast hle
  · exact le_trans (h.gap h0 i hi) hk
  · obtain ⟨hne, hsame⟩ := h.touch h0 i hi hstop
    have hlast := (h.isOpen h0).2.2
    refine ⟨hne, fun hdiv => ?_⟩
    dsimp only at hdiv ⊢
    rw [key_div_two] at hdiv
    obtain ⟨hup, hdown⟩ := hsame (by omega)
    constructor
    · intro hlt
      obtain ⟨j, hj, haddr, htype⟩ := hup hlt
      exact ⟨j, h.mem_nextOverlap_of_start hj (by omega), haddr, htype⟩
    · intro hlt
      have := key_div_two biosmap p
      omega
  · rw [key_div_two] at hx
    exact h.paint_to hx ht

end Step

end LinuxKernel.E820
