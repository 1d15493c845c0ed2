import Mathlib.Order.Interval.Finset.Nat
import LinuxKernel.Genalloc.Invariant

/-! # Allocations are exclusive

In every interleaving whose tests of `avail` let only sizes through that fit, the live allocations
are disjoint pieces of the chunks, no `BUG_ON` fires, and between the calls the bitmaps and `avail`
say exactly what is allocated. Without the condition `avail` can be below zero for a moment; as an
unsigned number it then lets any size through, and a size of `2 ^ 32` granules takes no bits at all.
-/

namespace LinuxKernel.Genalloc

open Finset Nat

variable {w k : ℕ} {T : Type*} [Fintype T] [DecidableEq T] {pool : Pool w k} {s : State w k T}

section Spec

variable (pool)

/-- The granule `b` of the chunk `c` has a byte of the allocation. -/
def Allocation.Touches (a : Allocation w k) (c : Fin k) (b : ℕ) : Prop :=
  a.chunk = c ∧ a.addr pool < (pool.chunk c).startAddr + (b + 1) * pool.granule ∧
    (pool.chunk c).startAddr + b * pool.granule < a.addr pool + a.size.toNat

/-- The bytes of the live allocations in a chunk, each rounded up to granules. -/
def liveBytes (live : List (Allocation w k)) (c : Fin k) : ℕ :=
  ((live.filter fun a => a.chunk = c).map fun a => pool.granules a.size * pool.granule).sum

structure Exclusive (s : State w k T) : Prop where
  disjoint : s.live.Pairwise fun a b =>
    a.addr pool + a.size.toNat ≤ b.addr pool ∨ b.addr pool + b.size.toNat ≤ a.addr pool
  inside : ∀ a ∈ s.live, ∃ c, (pool.chunk c).startAddr ≤ a.addr pool ∧
    a.addr pool + a.size.toNat ≤ (pool.chunk c).endAddr
  no_bug : ∀ i, s.pc i ≠ .bug ∧ s.pc i ≠ .fault
  bits : (∀ i, s.pc i = .idle) → ∀ c b, s.bit (c, b) = true ↔ ∃ a ∈ s.live, a.Touches pool c b
  avail : (∀ i, s.pc i = .idle) →
    ∀ c, (s.avail c).toInt = (pool.chunk c).size - liveBytes pool s.live c

end Spec

section Live

omit [Fintype T] [DecidableEq T]

variable {a b : Allocation w k}

theorem granules_lt_iff {size : BitVec w} {n : ℕ} :
    n < pool.granules size ↔ n * pool.granule < size.toNat := by
  have hg := pool.granule_pos
  rw [Pool.granules, ← succ_le_iff, le_div_iff_mul_le hg, succ_mul]
  omega

theorem touches_iff {c : Fin k} {n : ℕ} : a.Touches pool c n ↔ 0 < a.own pool (c, n) := by
  have hown : 0 < a.own pool (c, n) ↔
      c = a.chunk ∧ a.startBit ≤ n ∧ n < a.startBit + pool.granules a.size := by
    rw [Allocation.own, span]
    split_ifs with h
    · exact iff_of_true one_pos h
    · exact iff_of_false (lt_irrefl 0) h
  rw [hown, Allocation.Touches, Allocation.addr, eq_comm]
  refine and_congr_right fun hc => ?_
  subst hc
  rw [add_assoc, add_lt_add_iff_left, add_lt_add_iff_left,
    Nat.mul_lt_mul_right pool.granule_pos, Nat.lt_succ_iff]
  refine and_congr_right fun hle => ?_
  -- counted from the first granule of the allocation
  obtain ⟨m, rfl⟩ := Nat.exists_eq_add_of_le hle
  rw [add_mul, add_lt_add_iff_left, add_lt_add_iff_left, granules_lt_iff]

theorem addr_le_of_startBit_le (hb : b.size ≠ 0) (hchunk : b.chunk = a.chunk)
    (hle : a.startBit ≤ b.startBit) (h : ∀ x, a.own pool x + b.own pool x ≤ 1) :
    a.addr pool + a.size.toNat ≤ b.addr pool := by
  have hpos := pool.granules_pos hb
  have hfirst := h (b.chunk, b.startBit)
  have hown : b.own pool (b.chunk, b.startBit) = 1 := if_pos ⟨rfl, le_rfl, by simp only; omega⟩
  have hbehind : a.startBit + pool.granules a.size ≤ b.startBit := by
    by_contra hlt
    have : a.own pool (b.chunk, b.startBit) = 1 := if_pos ⟨hchunk, hle, by simp only; omega⟩
    omega
  have hmul := mul_le_mul_right pool.granule hbehind
  rw [add_mul] at hmul
  have hsize := pool.size_le_granules a.size
  rw [Allocation.addr, Allocation.addr, hchunk]
  omega

theorem Placed.disjoint (ha : Placed pool a.size a.chunk a.startBit)
    (hb : Placed pool b.size b.chunk b.startBit)
    (h : ∀ x, a.own pool x + b.own pool x ≤ 1) :
    a.addr pool + a.size.toNat ≤ b.addr pool ∨ b.addr pool + b.size.toNat ≤ a.addr pool := by
  by_cases hchunk : b.chunk = a.chunk
  · rcases le_total a.startBit b.startBit with hle | hle
    · exact .inl (addr_le_of_startBit_le hb.ne_zero hchunk hle h)
    · exact .inr (addr_le_of_startBit_le ha.ne_zero hchunk.symm hle fun x => by
        rw [add_comm]
        exact h x)
  · have hchunks := pool.disjoint _ _ hchunk
    have hina := ha.inside
    have hinb := hb.inside
    rw [Allocation.addr, Allocation.addr]
    omega

theorem sum_charge (live : List (Allocation w k)) (c : Fin k) :
    pool.granule * Ledger.sum (Allocation.charge pool) live c = liveBytes pool live c := by
  induction live with
  | nil => rfl
  | cons a live ih =>
    rw [Ledger.sum_cons, mul_add, ih, liveBytes, liveBytes,
      Allocation.charge, charge]
    by_cases hc : a.chunk = c
    · simp [hc, mul_comm]
    · simp [hc, Ne.symm hc]

/-- A placed allocation has as many bits in its chunk as it is charged for. -/
theorem Placed.sum_own (h : Placed pool a.size a.chunk a.startBit) (c : Fin k) :
    ∑ n ∈ Finset.range (pool.endBit c), a.own pool (c, n) = a.charge pool c := by
  rw [Allocation.charge, charge]
  split_ifs with hc
  · subst hc
    have hfilter : (range (pool.endBit a.chunk)).filter (fun n =>
        a.startBit ≤ n ∧ n < a.startBit + pool.granules a.size) =
          Finset.Ico a.startBit (a.startBit + pool.granules a.size) := by
      have hle := h.le_endBit
      ext n
      rw [mem_filter, mem_range, mem_Ico]
      omega
    simp only [Allocation.own, span, true_and]
    rw [← card_filter, hfilter, card_Ico, Nat.add_sub_cancel_left]
  · exact sum_eq_zero fun n _ => if_neg fun hx => hc hx.1

/-- Disjoint allocations need no more granules than there are. -/
theorem sum_charge_le {live : List (Allocation w k)} {c : Fin k}
    (hplaced : ∀ a ∈ live, Placed pool a.size a.chunk a.startBit)
    (h : ∀ x, Ledger.sum (Allocation.own pool) live x ≤ 1) :
    Ledger.sum (Allocation.charge pool) live c ≤ pool.endBit c :=
  calc Ledger.sum (Allocation.charge pool) live c
    _ = (live.map fun a => ∑ n ∈ range (pool.endBit c), a.own pool (c, n)).sum :=
      congrArg List.sum (List.map_congr_left fun a ha => ((hplaced a ha).sum_own c).symm)
    _ = ∑ n ∈ range (pool.endBit c), Ledger.sum (Allocation.own pool) live (c, n) :=
      (Ledger.sum_sum_comm (fun a n => Allocation.own pool a (c, n)) _).symm
    _ ≤ ∑ n ∈ range (pool.endBit c), 1 := sum_le_sum fun n _ => h (c, n)
    _ = pool.endBit c := by rw [sum_const, card_range, smul_eq_mul, mul_one]

end Live

section Runs

omit [DecidableEq T] in
theorem Inv.sum_own_le (h : Inv pool s) (x : Fin k × ℕ) :
    Ledger.sum (Allocation.own pool) s.live x ≤ 1 := by
  have hbits := h.bits x
  have := Bool.toNat_le (s.bit x)
  omega

omit [DecidableEq T] in
theorem Inv.toInt_avail (h : Inv pool s) (hidle : ∀ i, s.pc i = .idle) (c : Fin k) :
    (s.avail c).toInt = (pool.chunk c).size - liveBytes pool s.live c := by
  have hcharge : Ledger.total (Pc.charge pool) s.pc c = 0 := Ledger.total_eq_zero fun i => by
    rw [hidle i]
    rfl
  have havail := h.avail c
  rw [hcharge, add_zero, Pool.amount, sum_charge] at havail
  have hle : liveBytes pool s.live c ≤ (pool.chunk c).size := by
    have hsum := mul_le_mul_left pool.granule (sum_charge_le (c := c) h.placed h.sum_own_le)
    rw [sum_charge, mul_comm] at hsum
    exact hsum.trans (pool.endBit_mul_le c)
  have hlt := pool.size_lt c
  have hnat : (s.avail c).toNat = (pool.chunk c).size - liveBytes pool s.live c := by
    have hsum := congrArg BitVec.toNat havail
    rw [BitVec.toNat_add, BitVec.toNat_ofNat, BitVec.toNat_ofNat] at hsum
    omega
  rw [toInt_of_lt (by omega), hnat, Int.ofNat_sub hle]

omit [DecidableEq T] in
theorem Inv.bit_iff (h : Inv pool s) (hidle : ∀ i, s.pc i = .idle) (c : Fin k) (n : ℕ) :
    s.bit (c, n) = true ↔ ∃ a ∈ s.live, a.Touches pool c n := by
  have hown : Ledger.total (Pc.own pool) s.pc (c, n) = 0 := Ledger.total_eq_zero fun i => by
    rw [hidle i]
    rfl
  have hbits := h.bits (c, n)
  rw [hown, add_zero] at hbits
  simp only [touches_iff]
  rw [← Ledger.sum_pos_iff (Allocation.own pool), ← hbits]
  cases s.bit (c, n) <;> decide

omit [DecidableEq T] in
theorem Inv.exclusive (h : Inv pool s) : Exclusive pool s where
  disjoint := (Ledger.pairwise_of_sum_le_one h.sum_own_le).imp_of_mem fun ha hb hab =>
    (h.placed _ ha).disjoint (h.placed _ hb) hab
  inside a ha := ⟨a.chunk, le_add_right _ _, (h.placed a ha).inside⟩
  no_bug i := by
    have hok := h.ok i
    constructor <;> intro hpc <;> rw [hpc] at hok <;> exact hok
  bits := h.bit_iff
  avail := h.toInt_avail

theorem inv_of_run {ops : List (Op w k T)}
    (h : Run (fun s op t => step pool s op = some t ∧ Meets pool s op) (State.init pool) ops s) :
    Inv pool s :=
  h.invariant (fun hs hstep => hs.step hstep.2 hstep.1) inv_init

end Runs

section Pair

def pairPool : Pool 64 1 where
  minAllocOrder := 0
  chunk _ := ⟨4096, 2⟩
  le_word := by decide
  order_lt := by decide
  size_lt := by decide
  endAddr_lt := by decide
  disjoint := by decide

/-- The search sees the bitmap as it is. -/
def State.atOnce (s : State w k T) : Op w k T → Op w k T
  | .find i seen => .find i fun n b =>
    match s.pc i with
    | .find _ c _ _ => s.bit (c, b)
    | _ => seen n b
  | op => op

instance (pool : Pool w k) (c : Fin k) (size : BitVec w) : Decidable (Fits pool c size) :=
  decidable_of_iff (size.toNat + pool.granule ≤ 2 ^ w ∧
    pool.endBit c + pool.granules size < 2 ^ 31) ⟨fun h => ⟨h.1, h.2⟩, fun h => ⟨h.1, h.2⟩⟩

instance (pool : Pool w k) (s : State w k T) (op : Op w k T) : Decidable (Meets pool s op) :=
  match op with
  | .access i =>
    match h : s.pc i with
    | .check size c _ _ => decidable_of_iff (¬ (s.avail c).signExtend w < size → Fits pool c size)
      (by rw [Meets, h])
    | .idle | .find .. | .work .. | .take .. | .give .. | .bug | .fault =>
      isTrue (by rw [Meets, h]; trivial)
  | .alloc .. | .free .. | .find .. => isTrue trivial

theorem gen_pool_exclusive (pool : Pool w k) {ops : List (Op w k T)} {s : State w k T}
    (h : Run (fun s op t => step pool s op = some t ∧ Meets pool s op) (State.init pool) ops s) :
    Exclusive pool s :=
  (inv_of_run h).exclusive

/-- Two CPUs that find the same byte. The `cmpxchg` of the second one fails, and it searches
again. -/
def race : List (Op 64 1 (Fin 2)) :=
  [.alloc 0 1, .alloc 1 1, .access 0, .access 1, .find 0 fun _ _ => false, .find 1 fun _ _ => false,
    .access 0, .access 1, .access 0, .access 1, .find 1 fun _ i => i = 0,
    .access 1, .access 0, .access 1, .access 1]

/-- The states of the race. -/
def raceStates (n : ℕ) : Option (State 64 1 (Fin 2)) :=
  (race.take n).foldlM (fun s op => if Meets pairPool s op then step pairPool s op else none)
    (State.init pairPool)

theorem run_race {n : ℕ} {s : State 64 1 (Fin 2)} (h : raceStates n = some s) :
    Run (fun s op t => step pairPool s op = some t ∧ Meets pairPool s op) (State.init pairPool)
      (race.take n) s :=
  (Run.of_foldlM h).mono fun {s a t} h => by
    split_ifs at h with hmeets
    exact ⟨h, hmeets⟩

theorem gen_pool_exclusive_pair :
    ∃ s : State 64 1 (Fin 2), Run (fun s op t => step pairPool s op = some t ∧ Meets pairPool s op)
        (State.init pairPool) race s ∧ s.live = [⟨0, 1, 1⟩, ⟨0, 0, 1⟩] ∧ Exclusive pairPool s := by
  have hstates : (raceStates 15).map (·.live) = some [⟨0, 1, 1⟩, ⟨0, 0, 1⟩] := by decide +kernel
  obtain ⟨s, hs, hlive⟩ := Option.map_eq_some_iff.mp hstates
  exact ⟨s, run_race hs, hlive, gen_pool_exclusive pairPool (run_race hs)⟩

/-- A call in progress can always go on, whatever the search sees. -/
theorem gen_pool_calls_go_on (pool : Pool w k) {ops : List (Op w k T)} {s : State w k T}
    (h : Run (fun s op t => step pool s op = some t ∧ Meets pool s op) (State.init pool) ops s)
    {i : T} (hi : s.pc i ≠ .idle) :
    (∃ t, step pool s (.access i) = some t) ∨ ∀ seen, ∃ t, step pool s (.find i seen) = some t := by
  have hok := (inv_of_run h).ok i
  cases hpc : s.pc i with
  | idle => exact absurd hpc hi
  | check size c rest startBit =>
    left
    rw [step, access, hpc]
    by_cases havail : (s.avail c).signExtend w < size <;> simp [havail]
  | find size c rest startBit =>
    right
    intro seen
    rw [step, hpc]
    exact (exists_bitmapFindNextZeroArea (by omega)).elim fun _ hr =>
      ⟨_, congrArg (Option.map _) hr⟩
  | work job seg segs val =>
    left
    rw [step, access, hpc]
    cases val with
    | none => exact ⟨_, rfl⟩
    | some val => by_cases hval : s.bits job.chunk seg.word = val <;> simp [hval]
  | take | give => exact .inl ⟨_, by rw [step, access, hpc]⟩
  | bug | fault =>
    rw [hpc] at hok
    exact hok.elim

/-- The second CPU has lost the race, and the first one has not yet taken its byte from `avail`. -/
theorem gen_pool_calls_go_on_pair :
    ∃ s : State 64 1 (Fin 2), raceStates 10 = some s ∧ s.pc 0 = .take 1 0 0 ∧
      s.pc 1 = .find 1 0 [] 0 ∧ ∀ i, (∃ t, step pairPool s (.access i) = some t) ∨
        ∀ seen, ∃ t, step pairPool s (.find i seen) = some t := by
  have hstates : ∃ s, raceStates 10 = some s ∧ s.pc 0 = .take 1 0 0 ∧ s.pc 1 = .find 1 0 [] 0 :=
    ⟨_, rfl, rfl, rfl⟩
  obtain ⟨s, hs, h0, h1⟩ := hstates
  refine ⟨s, hs, h0, h1, fun i => gen_pool_calls_go_on pairPool (run_race hs) ?_⟩
  obtain rfl | rfl : i = 0 ∨ i = 1 := by omega
  · simp [h0]
  · simp [h1]

/-- One CPU has found `avail` large enough for a byte. Then another one allocates both bytes and has
cleared their bits again, but not yet added them to `avail`, when the first one takes its byte. Now
`avail` is `-1`, and a third call gets `2 ^ 32` bytes out of the two. -/
theorem gen_pool_alloc_outside :
    ∃ (ops : List (Op 64 1 (Fin 3))) (s : State 64 1 (Fin 3)),
      Run (fun s op t => step pairPool s (s.atOnce op) = some t) (State.init pairPool) ops s ∧
        ∃ a ∈ s.live, ∀ c, (pairPool.chunk c).endAddr < a.addr pairPool + a.size.toNat := by
  have hops : (([.alloc 0 1, .access 0,
      .alloc 1 2, .access 1, .find 1 fun _ _ => false, .access 1, .access 1, .access 1,
      .free 1 ⟨0, 0, 2⟩, .access 1, .access 1,
      .find 0 fun _ _ => false, .access 0, .access 0, .access 0,
      .alloc 2 (2 ^ 32), .access 2, .find 2 fun _ _ => false, .access 2] :
      List (Op 64 1 (Fin 3))).foldlM (fun s op => step pairPool s (s.atOnce op))
        (State.init pairPool)).map (·.live) = some [⟨0, 1, 2 ^ 32⟩, ⟨0, 0, 1⟩] := by
    decide +kernel
  obtain ⟨s, hs, hlive⟩ := Option.map_eq_some_iff.mp hops
  refine ⟨_, s, Run.of_foldlM hs, ⟨0, 1, 2 ^ 32⟩, ?_, by decide⟩
  rw [hlive]
  exact List.mem_cons_self

end Pair

end LinuxKernel.Genalloc
