import Mathlib.Tactic.LinearCombination
import LinuxKernel.Genalloc.Own

/-! # One owner for each bit that is set

A successful `cmpxchg` moves the bits of one word to the call or takes them from it, and every other
step leaves the bits with their owners. The condition on a step is that the test of `avail` lets no
size through for which the arithmetic on `int` is not exact.
-/

namespace LinuxKernel.Genalloc

open BitVec Nat Function

variable {w k : ℕ} {T : Type*} {pool : Pool w k} {s t : State w k T} {i : T}

section Bits

variable {c : Fin k} {x : Fin k × ℕ} {seg : Segment w} {pos len : ℕ}

def State.bit (s : State w k T) (x : Fin k × ℕ) : Bool := (s.bits x.1 (x.2 / w)).getLsbD (x.2 % w)

theorem bit_write (word : ℕ) (val : BitVec w) : (s.write c word val).bit x =
    if x.1 = c ∧ x.2 / w = word then val.getLsbD (x.2 % w) else s.bit x := by
  rw [State.bit, State.write, State.bit]
  by_cases hc : x.1 = c
  · subst hc
    by_cases hword : x.2 / w = word <;> simp [hword]
  · simp [hc]

theorem span_add_span {lo mid hi : ℕ} (h : lo ≤ mid) (h' : mid ≤ hi) (x : Fin k × ℕ) :
    span c lo mid x + span c mid hi x = span c lo hi x := by
  unfold span
  split_ifs <;> omega

variable (h : seg.Spans pos len)
include h

theorem Segment.Spans.span_eq (x : Fin k × ℕ) :
    span c pos (pos + len) x =
      if x.1 = c ∧ x.2 / w = seg.word then (seg.mask.getLsbD (x.2 % w)).toNat else 0 := by
  have hcovers := h.covers_iff (b := x.2)
  rw [Segment.Covers] at hcovers
  rw [span, if_congr (and_congr_right fun _ => hcovers.symm) rfl rfl]
  cases seg.mask.getLsbD (x.2 % w) <;> simp

theorem bit_write_or (hzero : s.bits c seg.word &&& seg.mask = 0) :
    ((s.write c seg.word (s.bits c seg.word ||| seg.mask)).bit x).toNat =
      (s.bit x).toNat + span c pos (pos + len) x := by
  rw [bit_write, h.span_eq]
  split_ifs with hx
  · have hbit := congrArg (·.getLsbD (x.2 % w)) hzero
    rw [State.bit, hx.1, hx.2, getLsbD_or]
    simp only [getLsbD_and] at hbit
    revert hbit
    cases (s.bits c seg.word).getLsbD (x.2 % w) <;> cases seg.mask.getLsbD (x.2 % w) <;> simp
  · rfl

theorem bit_write_andNot (hone : s.bits c seg.word &&& seg.mask = seg.mask) :
    ((s.write c seg.word (s.bits c seg.word &&& ~~~seg.mask)).bit x).toNat +
      span c pos (pos + len) x = (s.bit x).toNat := by
  rw [bit_write, h.span_eq]
  split_ifs with hx
  · have hbit := congrArg (·.getLsbD (x.2 % w)) hone
    have hlt : x.2 % w < w := by
      have := h.len_pos
      have := h.fits
      exact mod_lt _ (by omega)
    rw [State.bit, hx.1, hx.2, getLsbD_and, getLsbD_not]
    simp only [getLsbD_and] at hbit
    revert hbit
    cases (s.bits c seg.word).getLsbD (x.2 % w) <;> cases seg.mask.getLsbD (x.2 % w) <;> simp [hlt]
  · rfl

/-- A successful `cmpxchg` gives the bits of the segment to the call, or takes them from it. -/
theorem Job.own_newVal {job : Job w k} (hstart : job.start ≤ pos)
    (hstop : pos + len ≤ job.start + job.nr)
    (hbusy : job.busy (s.bits job.chunk seg.word) seg.mask = false) :
    ((s.write job.chunk seg.word
      (job.newVal (s.bits job.chunk seg.word) seg.mask)).bit x).toNat + job.own pos x =
        (s.bit x).toNat + job.own (pos + len) x := by
  rw [Job.busy] at hbusy
  rw [Job.newVal, Job.own, Job.own]
  cases hkind : job.kind with
  | set rest =>
    simp only [hkind, bne_eq_false_iff_eq] at hbusy
    have hspan := span_add_span (c := job.chunk) hstart (le_add_right pos len) x
    simp only [bit_write_or h hbusy]
    omega
  | undo rest | free =>
    simp only [hkind, bne_eq_false_iff_eq] at hbusy
    have hbit := bit_write_andNot h hbusy (x := x)
    have hspan := span_add_span (c := job.chunk) (le_add_right pos len) hstop x
    simp only
    omega

end Bits

section Invariant

variable [Fintype T] [DecidableEq T]

variable (pool) in
structure Inv (s : State w k T) : Prop where
  ok : ∀ i, (s.pc i).Ok pool
  placed : ∀ a ∈ s.live, Placed pool a.size a.chunk a.startBit
  bits : ∀ x, (s.bit x).toNat =
    Ledger.sum (Allocation.own pool) s.live x + Ledger.total (Pc.own pool) s.pc x
  avail : ∀ c, s.avail c + pool.amount (Ledger.sum (Allocation.charge pool) s.live c +
    Ledger.total (Pc.charge pool) s.pc c) = BitVec.ofNat 32 (pool.chunk c).size

omit [DecidableEq T] in
theorem inv_init : Inv pool (State.init pool : State w k T) := by
  have htotal : ∀ x, Ledger.total (Pc.own pool) (State.init pool : State w k T).pc x = 0 :=
    fun x => Ledger.total_eq_zero fun _ => rfl
  have hcharge : ∀ c, Ledger.total (Pc.charge pool) (State.init pool : State w k T).pc c = 0 :=
    fun c => Ledger.total_eq_zero fun _ => rfl
  refine ⟨fun _ => trivial, (fun a ha => nomatch ha), fun x => ?_, fun c => ?_⟩
  · rw [htotal]
    simp [State.bit, State.init, Ledger.sum]
  · rw [hcharge]
    simp [State.init, Ledger.sum, Pool.amount]

/-- One CPU goes on. What it owns changes with the memory and the live allocations. -/
theorem Inv.move (h : Inv pool s) {q : Pc w k} (hpc : t.pc = update s.pc i q)
    (hok : q.Ok pool) (hplaced : ∀ a ∈ t.live, Placed pool a.size a.chunk a.startBit)
    (hbits : ∀ x, (t.bit x).toNat + Ledger.sum (Allocation.own pool) s.live x +
      (s.pc i).own pool x = (s.bit x).toNat + Ledger.sum (Allocation.own pool) t.live x +
        q.own pool x)
    (havail : ∀ c, t.avail c +
      pool.amount (Ledger.sum (Allocation.charge pool) t.live c + q.charge pool c) =
        s.avail c +
          pool.amount (Ledger.sum (Allocation.charge pool) s.live c + (s.pc i).charge pool c)) :
    Inv pool t := by
  refine ⟨fun j => ?_, hplaced, fun x => ?_, fun c => ?_⟩
  · rw [hpc, update_apply]
    split_ifs
    · exact hok
    · exact h.ok j
  · have htotal := Ledger.total_update (Pc.own pool) s.pc i q x
    have := h.bits x
    have := hbits x
    rw [hpc]
    omega
  · -- both sides with what the CPU owed before
    have htotal := congrArg pool.amount (Ledger.total_update (Pc.charge pool) s.pc i q c)
    have hold := h.avail c
    have hstep := havail c
    rw [hpc]
    simp only [Pool.amount_add] at htotal hold hstep ⊢
    linear_combination hold + hstep + htotal

theorem Inv.goto (h : Inv pool s) {q : Pc w k}
    (hq : q.Leads pool ((s.pc i).own pool) ((s.pc i).charge pool)) : Inv pool (s.goto i q) := by
  refine h.move rfl hq.ok h.placed (fun x => ?_) fun c => ?_
  · rw [hq.own_eq]
    rfl
  · rw [hq.charge_eq]
    rfl

end Invariant

section Words

variable [Fintype T] [DecidableEq T] {job : Job w k} {seg : Segment w} {segs : List (Segment w)}
  {val : Option (BitVec w)}

omit [DecidableEq T] in
theorem Inv.working (h : Inv pool s) (hpc : s.pc i = .work job seg segs val) :
    Pc.Working pool job seg segs val := by
  have hok := h.ok i
  rwa [hpc] at hok

omit [DecidableEq T] in
theorem Inv.owned_word (h : Inv pool s) (hpc : s.pc i = .work job seg segs val)
    (hkind : ∀ rest, job.kind ≠ .set rest) :
    s.bits job.chunk seg.word &&& seg.mask = seg.mask := by
  have hok := h.working hpc
  obtain ⟨len, rest, hspans, hnr, -⟩ := hok.splits.inv
  have hle := hok.nr_le
  refine eq_of_getLsbD_eq fun j hj => ?_
  rw [getLsbD_and]
  cases hmask : seg.mask.getLsbD j with
  | false => rw [Bool.and_false]
  | true =>
    have hdiv : (w * seg.word + j) / w = seg.word := by
      rw [mul_add_div (by omega), div_eq_of_lt hj, add_zero]
    have hmod : (w * seg.word + j) % w = j := by
      rw [mul_add_mod, mod_eq_of_lt hj]
    have hcovers := hspans.covers_iff.mp ⟨hdiv, by rw [hmod]; exact hmask⟩
    have hown : (s.pc i).own pool (job.chunk, w * seg.word + j) = 1 := by
      rw [hpc, Pc.own, Job.own]
      cases hkind' : job.kind with
      | set rest => exact absurd hkind' (hkind rest)
      | undo rest | free => exact if_pos ⟨rfl, hcovers.1, by simp only; omega⟩
    have htotal := Ledger.share_le_total (Pc.own pool) s.pc i (job.chunk, w * seg.word + j)
    have hbits := h.bits (job.chunk, w * seg.word + j)
    rw [State.bit] at hbits
    simp only [hdiv, hmod] at hbits
    cases hbit : (s.bits job.chunk seg.word).getLsbD j with
    | false =>
      rw [hbit, Bool.toNat_false] at hbits
      omega
    | true => rfl

theorem Inv.load (h : Inv pool s) (hpc : s.pc i = .work job seg segs val) :
    Inv pool (s.goto i (job.attempt seg segs (s.bits job.chunk seg.word))) := by
  refine h.goto ?_
  rw [hpc]
  exact (h.working hpc).attempt_leads (h.owned_word hpc)

theorem Inv.cmpxchg (h : Inv pool s)
    (hpc : s.pc i = .work job seg segs (some (s.bits job.chunk seg.word))) :
    Inv pool ((s.write job.chunk seg.word
      (job.newVal (s.bits job.chunk seg.word) seg.mask)).goto i (job.goOn segs)) := by
  have hok := h.working hpc
  obtain ⟨len, rest, hspans, hnr, hrest⟩ := hok.splits.inv
  have hle := hok.nr_le
  have hleads := hok.sound.goOn_leads hrest (by omega) (by omega)
  refine h.move rfl hleads.ok h.placed (fun x => ?_) fun c => ?_
  · have hown := Job.own_newVal (x := x) hspans (by omega) (by omega) (hok.val_ok _ rfl)
    rw [hleads.own_eq, hpc, Pc.own]
    simp only [State.goto, State.bit, State.write] at hown ⊢
    omega
  · rw [hleads.charge_eq, hpc]
    rfl

end Words

section Steps

variable [Fintype T] [DecidableEq T] {size : BitVec w} {c : Fin k}

theorem Inv.take (h : Inv pool s) {startBit : ℕ} (hpc : s.pc i = .take size c startBit) :
    Inv pool (((s.setAvail c (s.avail c - bytes pool size)).setLive
      (⟨c, startBit, size⟩ :: s.live)).goto i .idle) := by
  have hok : Placed pool size c startBit := by simpa [hpc, Pc.Ok] using h.ok i
  refine h.move rfl trivial (fun a ha => ?_) (fun x => ?_) fun d => ?_
  · rcases List.mem_cons.mp ha with rfl | ha
    · exact hok
    · exact h.placed a ha
  · simp only [State.bit, State.goto, State.setLive, State.setAvail, Ledger.sum_cons, hpc, Pc.own,
      Allocation.own, Pi.zero_apply]
    omega
  · simp only [State.goto, State.setLive, State.setAvail, Ledger.sum_cons, hpc, Pc.charge,
      update_apply, Allocation.charge, Pi.zero_apply, charge, add_zero]
    split_ifs with hd
    · subst hd
      rw [hok.fits.bytes_eq, Pool.amount_add]
      ring
    · rw [zero_add]

theorem Inv.give (h : Inv pool s) (hpc : s.pc i = .give size c) :
    Inv pool ((s.setAvail c (s.avail c + bytes pool size)).goto i .idle) := by
  have hok : Fits pool c size := by simpa [hpc, Pc.Ok] using h.ok i
  refine h.move rfl trivial h.placed (fun x => ?_) fun d => ?_
  · rw [hpc]
    rfl
  · simp only [State.goto, State.setAvail, hpc, Pc.charge, update_apply, Pi.zero_apply,
      charge, add_zero]
    split_ifs with hd
    · subst hd
      rw [hok.bytes_eq, Pool.amount_add]
      ring
    · rw [add_zero]

theorem Inv.free (h : Inv pool s) (hpc : s.pc i = .idle) {a : Allocation w k} (ha : a ∈ s.live) :
    Inv pool ((s.setLive (s.live.erase a)).goto i (genPoolFree pool (a.addr pool) a.size)) := by
  have hplaced := h.placed a ha
  have hsound : Job.Sound pool ⟨.free, a.size, a.chunk, a.startBit, pool.granules a.size⟩ :=
    ⟨hplaced, .inr rfl⟩
  have hleads := hsound.enter_leads
  rw [← hplaced.genPoolFree_eq, ← Allocation.addr] at hleads
  refine h.move rfl hleads.ok (fun b hb => h.placed b (List.mem_of_mem_erase hb)) (fun x => ?_)
    fun c => ?_
  · have hsum := Ledger.sum_erase (Allocation.own pool) ha x
    rw [hleads.own_eq, hpc]
    rw [← hsum, ← add_assoc]
    rfl
  · have hsum := Ledger.sum_erase (Allocation.charge pool) ha c
    rw [hleads.charge_eq, hpc, ← hsum]
    rfl

variable (pool) in
/-- The test of `avail` lets a size through only if it fits. -/
def Meets (s : State w k T) : Op w k T → Prop
  | .access i =>
    match s.pc i with
    | .check size c _ _ => ¬ (s.avail c).signExtend w < size → Fits pool c size
    | _ => True
  | _ => True

/-- With granules of two bytes or more, only a negative `avail` lets through what does not fit. -/
theorem fits_of_avail {avail : BitVec 32} (horder : 0 < pool.minAllocOrder)
    (havail : 0 ≤ avail.toInt) (h : ¬ avail.signExtend w < size) : Fits pool c size := by
  have hlt := toInt_pos_iff.mp havail
  have hsize : size.toNat ≤ avail.toNat := by
    rw [signExtend_eq_setWidth_of_msb_false (msb_eq_false_iff_two_mul_lt.mpr hlt),
      lt_def, toNat_setWidth_of_le pool.le_word] at h
    omega
  have hword := pool.le_word
  have hhalf : 2 ^ w = 2 ^ (w - 1) + 2 ^ (w - 1) := by
    rw [← two_pow_succ, Nat.sub_add_cancel (by omega)]
  constructor
  · have horder_le : pool.granule ≤ 2 ^ (w - 1) := Nat.pow_le_pow_right (by decide) (by
      have := pool.order_lt
      omega)
    have hint : 2 ^ 31 ≤ 2 ^ (w - 1) := Nat.pow_le_pow_right (by decide) (by omega)
    omega
  · have hgranule : 2 ^ 1 ≤ pool.granule := Nat.pow_le_pow_right (by decide) horder
    have hchunk := pool.endBit_mul_le c
    have hchunk_lt := pool.size_lt c
    have hbits : pool.granules size * pool.granule ≤ size.toNat + pool.granule - 1 :=
      div_mul_le_self _ _
    by_contra hge
    have hmul := mul_le_mul_right pool.granule (Nat.le_of_not_lt hge)
    rw [Nat.add_mul] at hmul
    omega

theorem Inv.access (h : Inv pool s) (hmeets : Meets pool s (.access i))
    (hstep : access pool s i = some t) : Inv pool t := by
  have hok := h.ok i
  rw [Genalloc.access] at hstep
  split at hstep <;> rename_i hpc
  · -- the test of `avail`
    rename_i size c rest startBit
    rw [hpc] at hok
    split_ifs at hstep with havail <;> cases hstep
    · refine h.goto ?_
      rw [hpc]
      exact visit_leads hok.1 hok.2
    · refine h.goto ?_
      rw [Meets, hpc] at hmeets
      rw [hpc]
      exact ⟨⟨hok.1, hok.2, hmeets havail⟩, rfl, rfl⟩
  · cases hstep
    exact h.load hpc
  · split_ifs at hstep with hval <;> cases hstep
    · subst hval
      exact h.cmpxchg hpc
    · exact h.load hpc
  · cases hstep
    exact h.take hpc
  · cases hstep
    exact h.give hpc
  · cases hstep

theorem Inv.step (h : Inv pool s) {op : Op w k T} (hmeets : Meets pool s op)
    (hstep : step pool s op = some t) : Inv pool t := by
  cases op with
  | alloc i size =>
    rw [Genalloc.step] at hstep
    split at hstep <;> rename_i hpc <;> cases hstep
    refine h.goto ?_
    rw [hpc]
    exact genPoolAlloc_leads
  | free i a =>
    rw [Genalloc.step] at hstep
    split at hstep <;> rename_i hpc
    · split_ifs at hstep with ha
      cases hstep
      exact h.free hpc ha
    · cases hstep
  | find i seen =>
    have hok := h.ok i
    rw [Genalloc.step] at hstep
    split at hstep <;> rename_i hpc
    · obtain ⟨start, hfind, rfl⟩ := Option.map_eq_some_iff.mp hstep
      rw [hpc] at hok
      obtain ⟨hsize, hstart, hfits⟩ := hok
      have hlt : pool.endBit _ + pool.granules _ < 2 ^ w :=
        hfits.bits_lt.trans_le (Nat.pow_le_pow_right (by decide) (by have := pool.le_word; omega))
      rw [hfits.toNat_nbits] at hfind
      refine h.goto ?_
      rw [hpc]
      exact found_leads hsize hfits (bitmapFindNextZeroArea_spec hlt hfind)
    · cases hstep
  | access i => exact h.access hmeets hstep

end Steps

end LinuxKernel.Genalloc
