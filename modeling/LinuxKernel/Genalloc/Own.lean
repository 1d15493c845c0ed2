import Mathlib.Tactic.Ring
import LinuxKernel.Base.Ledger
import LinuxKernel.Genalloc.Words

/-! # Who owns a bit

Every bit that is set belongs to one live allocation or to one call in progress: to an allocation
that has set it and not yet returned, or to a call that still has to clear it. The bytes that are
missing in `avail` belong to the live allocations and to the calls that free one.
-/

namespace LinuxKernel.Genalloc

open BitVec Nat

section Sizes

variable {w k : ℕ} (pool : Pool w k)

def Pool.granules (size : BitVec w) : ℕ := (size.toNat + pool.granule - 1) / pool.granule

/-- Neither the number of bits for a size nor a position that the search gives is cut off. -/
structure Fits (c : Fin k) (size : BitVec w) : Prop where
  sum_le : size.toNat + pool.granule ≤ 2 ^ w
  bits_lt : pool.endBit c + pool.granules size < 2 ^ 31

/-- The bits for a size at a position are inside of the chunk. -/
structure Placed (size : BitVec w) (c : Fin k) (startBit : ℕ) : Prop where
  ne_zero : size ≠ 0
  fits : Fits pool c size
  le_endBit : startBit + pool.granules size ≤ pool.endBit c

variable {pool} {size : BitVec w} {c : Fin k} {startBit : ℕ}

theorem Pool.word_pos (pool : Pool w k) : 0 < w := lt_of_lt_of_le (by decide) pool.le_word

theorem Pool.granule_pos : 0 < pool.granule := Nat.two_pow_pos _

theorem Pool.granules_pos (h : size ≠ 0) : 0 < pool.granules size := by
  have hpos : size.toNat ≠ 0 := fun h0 => h (eq_of_toNat_eq h0)
  have hg := pool.granule_pos
  exact div_pos (by omega) hg

variable (pool size) in
theorem Pool.size_le_granules : size.toNat ≤ pool.granules size * pool.granule := by
  have hg := pool.granule_pos
  have hdiv := div_add_mod (size.toNat + pool.granule - 1) pool.granule
  have hmod := mod_lt (size.toNat + pool.granule - 1) hg
  rw [mul_comm] at hdiv
  rw [Pool.granules]
  omega

variable (pool c) in
theorem Pool.endBit_mul_le : pool.endBit c * pool.granule ≤ (pool.chunk c).size :=
  div_mul_le_self _ _

theorem Fits.toNat_nbits (h : Fits pool c size) : (pool.nbits size).toNat = pool.granules size := by
  have hg := pool.granule_pos
  have hsum : (size + 1#w <<< pool.minAllocOrder - 1#w).toNat = size.toNat + pool.granule - 1 := by
    have hle := h.sum_le
    rw [add_sub_assoc, toNat_add, toNat_one_shiftLeft_sub_one pool.order_lt,
      ← Pool.granule, mod_eq_of_lt (by omega)]
    omega
  have hlt := h.bits_lt
  rw [Pool.nbits, toNat_setWidth, toNat_ushiftRight, hsum,
    shiftRight_eq_div_pow, ← Pool.granule, ← Pool.granules, mod_eq_of_lt (by omega)]

theorem toInt_of_lt {x : BitVec 32} (h : x.toNat < 2 ^ 31) : x.toInt = x.toNat :=
  toInt_eq_toNat_of_lt (by omega)

theorem Fits.toInt_nbits (h : Fits pool c size) : (pool.nbits size).toInt = pool.granules size := by
  have hlt := h.bits_lt
  rw [toInt_of_lt (by rw [h.toNat_nbits]; omega), h.toNat_nbits]

variable (pool) in
/-- The bytes of `n` granules, as `avail` counts them. -/
def Pool.amount (n : ℕ) : BitVec 32 := BitVec.ofNat 32 (pool.granule * n)

variable (pool) in
theorem Pool.amount_add (m n : ℕ) : pool.amount (m + n) = pool.amount m + pool.amount n := by
  rw [Pool.amount, Nat.mul_add, ofNat_add, ← Pool.amount, ← Pool.amount]

theorem Fits.bytes_eq (h : Fits pool c size) :
    bytes pool size = pool.amount (pool.granules size) := by
  refine eq_of_toNat_eq ?_
  rw [bytes, toNat_shiftLeft, h.toNat_nbits, Nat.shiftLeft_eq, Pool.amount,
    toNat_ofNat, ← Pool.granule, mul_comm]

theorem Placed.inside (h : Placed pool size c startBit) :
    (pool.chunk c).startAddr + startBit * pool.granule + size.toNat ≤ (pool.chunk c).endAddr := by
  have hbits := mul_le_mul_right pool.granule h.le_endBit
  rw [Nat.add_mul] at hbits
  have hsize := pool.size_le_granules size
  have hend := pool.endBit_mul_le c
  rw [Chunk.endAddr]
  omega

theorem chunkOf_eq {addr : ℕ} (hle : (pool.chunk c).startAddr ≤ addr)
    (hlt : addr < (pool.chunk c).endAddr) : pool.chunkOf addr = some c := by
  rw [Pool.chunkOf]
  rcases hfind : (List.finRange k).find? _ with _ | d
  · have := List.find?_eq_none.mp hfind c (List.mem_finRange c)
    simp only [decide_eq_true_eq] at this
    exact absurd ⟨hle, hlt⟩ this
  · have hd := List.find?_some hfind
    simp only [decide_eq_true_eq] at hd
    by_contra hne
    have := pool.disjoint c d fun h => hne (by rw [h])
    omega

/-- `gen_pool_free` clears the bits of the allocation whose address and size it is given. -/
theorem Placed.genPoolFree_eq (h : Placed pool size c startBit) :
    genPoolFree pool ((pool.chunk c).startAddr + startBit * pool.granule) size =
      Job.enter ⟨.free, size, c, startBit, pool.granules size⟩ := by
  have hinside := h.inside
  have hpos : size.toNat ≠ 0 := fun h0 => h.ne_zero (eq_of_toNat_eq h0)
  have hword := pool.endAddr_lt c
  rw [genPoolFree, chunkOf_eq (c := c) (by omega) (by omega)]
  simp only
  rw [mod_eq_of_lt (by omega), if_neg (by omega), if_neg (by rw [h.fits.toInt_nbits]; omega),
    h.fits.toNat_nbits, Nat.add_sub_cancel_left, Nat.mul_div_cancel _ pool.granule_pos]

end Sizes

section Shares

variable {w k : ℕ}

def span (c : Fin k) (lo hi : ℕ) (x : Fin k × ℕ) : ℕ :=
  if x.1 = c ∧ lo ≤ x.2 ∧ x.2 < hi then 1 else 0

variable (pool : Pool w k)

def Allocation.own (a : Allocation w k) : Fin k × ℕ → ℕ :=
  span a.chunk a.startBit (a.startBit + pool.granules a.size)

def charge (c : Fin k) (size : BitVec w) (d : Fin k) : ℕ := if d = c then pool.granules size else 0

def Allocation.charge (a : Allocation w k) : Fin k → ℕ := Genalloc.charge pool a.chunk a.size

namespace Job

/-- The bits of a call that has come to the position `pos`. -/
def own (job : Job w k) (pos : ℕ) : Fin k × ℕ → ℕ :=
  match job.kind with
  | .set _ => span job.chunk job.start pos
  | _ => span job.chunk pos (job.start + job.nr)

def charge (job : Job w k) : Fin k → ℕ :=
  match job.kind with
  | .free => Genalloc.charge pool job.chunk job.size
  | _ => 0

/-- A call for a placed allocation. What it has set again may be a part of it only. -/
structure Sound (job : Job w k) : Prop where
  placed : Placed pool job.size job.chunk job.start
  nr_eq : (∃ rest, job.kind = .undo rest) ∨ job.nr = pool.granules job.size

end Job

namespace Pc

def own : Pc w k → Fin k × ℕ → ℕ
  | .work job seg _ _ => job.own (job.start + job.nr - seg.nr)
  | .take size c startBit => span c startBit (startBit + pool.granules size)
  | _ => 0

def charge : Pc w k → Fin k → ℕ
  | .work job _ _ _ => job.charge pool
  | .give size c => Genalloc.charge pool c size
  | _ => 0

structure Working (job : Job w k) (seg : Segment w) (segs : List (Segment w))
    (val : Option (BitVec w)) : Prop where
  sound : job.Sound pool
  splits : Splits (job.start + job.nr - seg.nr) seg.nr (seg :: segs)
  nr_le : seg.nr ≤ job.nr
  val_ok : ∀ v, val = some v → job.busy v seg.mask = false

def Ok : Pc w k → Prop
  | .idle => True
  | .check size _ _ startBit => size ≠ 0 ∧ startBit.toNat < 2 ^ 31
  | .find size c _ startBit => size ≠ 0 ∧ startBit.toNat < 2 ^ 31 ∧ Fits pool c size
  | .work job seg segs val => Working pool job seg segs val
  | .take size c startBit => Placed pool size c startBit
  | .give size c => Fits pool c size
  | .bug | .fault => False

/-- The CPU goes on with `q` without a change of what it owns. -/
structure Leads (q : Pc w k) (own : Fin k × ℕ → ℕ) (charge : Fin k → ℕ) : Prop where
  ok : q.Ok pool
  own_eq : q.own pool = own
  charge_eq : q.charge pool = charge

end Pc

end Shares

section Local

variable {w k : ℕ} {pool : Pool w k} {size : BitVec w} {c : Fin k} {job : Job w k}
  {seg : Segment w} {segs : List (Segment w)} {rest : List (Fin k)}

theorem span_self (c : Fin k) (n : ℕ) : span c n n = 0 := by
  funext x
  rw [span, if_neg (by omega)]
  rfl

theorem visit_leads {startBit : BitVec 32} (hsize : size ≠ 0) (hstart : startBit.toNat < 2 ^ 31) :
    (visit size startBit rest).Leads pool 0 0 := by
  cases rest with
  | nil => exact ⟨trivial, rfl, rfl⟩
  | cons c rest => exact ⟨⟨hsize, hstart⟩, rfl, rfl⟩

theorem genPoolAlloc_leads : (genPoolAlloc size : Pc w k).Leads pool 0 0 := by
  rw [genPoolAlloc]
  split_ifs with hsize
  · exact ⟨trivial, rfl, rfl⟩
  · exact visit_leads hsize (by decide)

theorem Job.Sound.start_lt (h : job.Sound pool) : job.start < 2 ^ 31 := by
  have := h.placed.le_endBit
  have := h.placed.fits.bits_lt
  omega

/-- A call that has come to `pos` goes on with the words from there on. -/
theorem Job.Sound.goOn_leads (h : job.Sound pool) {pos nr : ℕ} (hsplits : Splits pos nr segs)
    (hpos : pos + nr = job.start + job.nr) (hnr : nr ≤ job.nr) :
    (job.goOn segs).Leads pool (job.own pos) (job.charge pool) := by
  have hend : job.start + job.nr - nr = pos := by omega
  cases hsplits with
  | nil =>
    rw [Job.goOn, Job.done, Job.own, Job.charge]
    cases hkind : job.kind with
    | set rest =>
      have hgranules : job.nr = pool.granules job.size := by simpa [hkind] using h.nr_eq
      refine ⟨h.placed, ?_, rfl⟩
      change span job.chunk job.start (job.start + pool.granules job.size) = _
      rw [← hgranules, ← hpos, add_zero]
    | undo rest =>
      have hlt := h.start_lt
      refine ⟨⟨h.placed.ne_zero, ?_, h.placed.fits⟩, ?_, rfl⟩
      · rw [toNat_ofNat, mod_eq_of_lt (by omega)]
        exact hlt
      · simp only [← hpos, add_zero, span_self]
        rfl
    | free =>
      refine ⟨h.placed.fits, ?_, rfl⟩
      simp only [← hpos, add_zero, span_self]
      rfl
  | cons hspans hseg hrest =>
    rw [← hseg] at hend hnr
    refine ⟨⟨h, ?_, hnr, fun v hv => nomatch hv⟩, ?_, rfl⟩
    · rw [hend, hseg]
      exact .cons hspans hseg hrest
    · change job.own (job.start + job.nr - _) = _
      rw [hend]

theorem Job.Sound.enter_leads (h : job.Sound pool) :
    job.enter.Leads pool (job.own job.start) (job.charge pool) :=
  h.goOn_leads (splits_segments pool.word_pos _ _) rfl le_rfl

/-- After the search: nothing is owned yet. -/
theorem found_leads {start : ℕ} (hsize : size ≠ 0) (hfits : Fits pool c size)
    (hstart : start + pool.granules size ≤ pool.endBit c ∨
      pool.endBit c < start ∧ start ≤ pool.endBit c + pool.granules size) :
    (found pool size c rest (BitVec.ofNat 32 start)).Leads pool 0 0 := by
  have hlt := hfits.bits_lt
  have hnat : (BitVec.ofNat 32 start).toNat = start := by
    rw [toNat_ofNat, mod_eq_of_lt (by omega)]
  have hint : (BitVec.ofNat 32 start).toInt = start := by
    rw [toInt_of_lt (by omega), hnat]
  rw [found, hfits.toInt_nbits, hfits.toNat_nbits, hnat]
  split_ifs with hend hneg
  · exact visit_leads hsize (by omega)
  · omega
  · have hplaced : Placed pool size c start := ⟨hsize, hfits, by omega⟩
    have hsound : Job.Sound pool ⟨.set rest, size, c, start, pool.granules size⟩ :=
      ⟨hplaced, .inr rfl⟩
    have hleads := hsound.enter_leads
    rw [show Job.own ⟨.set rest, size, c, start, pool.granules size⟩ start = 0 from
      span_self c start] at hleads
    exact hleads

/-- The value of a word is read: the call goes on with it, or it has to give up what it has. -/
theorem Pc.Working.attempt_leads {val : Option (BitVec w)} {v : BitVec w}
    (h : Working pool job seg segs val)
    (hclear : (∀ rest, job.kind ≠ .set rest) → v &&& seg.mask = seg.mask) :
    (job.attempt seg segs v).Leads pool (job.own (job.start + job.nr - seg.nr))
      (job.charge pool) := by
  rw [Job.attempt]
  split_ifs with hbusy
  · cases hkind : job.kind with
    | set rest =>
      have hsound : Job.Sound pool ⟨.undo rest, job.size, job.chunk, job.start, job.nr - seg.nr⟩ :=
        ⟨h.sound.placed, .inl ⟨rest, rfl⟩⟩
      have hle := h.nr_le
      have hleads := hsound.enter_leads
      rw [Job.fail, Job.own, Job.charge, hkind]
      rw [Job.own] at hleads
      rwa [show job.start + (job.nr - seg.nr) = job.start + job.nr - seg.nr by omega] at hleads
    | undo rest | free =>
      rw [Job.busy, hkind] at hbusy
      simp only [bne_iff_ne] at hbusy
      exact absurd (hclear (by simp [hkind])) hbusy
  · refine ⟨⟨h.sound, h.splits, h.nr_le, fun u hu => ?_⟩, rfl, rfl⟩
    cases hu
    simpa using hbusy

end Local

end LinuxKernel.Genalloc
