import LinuxKernel.Memblock.Limit

/-! # The search for free memory

`memblock_find_base` goes through the memory from the top. Below a reserved region that is in the
way it goes on at the next aligned address, so that no free place is passed over.
-/

namespace LinuxKernel.Memblock

open List Nat Set

variable {memory reserved l rest : List Region} {rgn : Region}
  {size align start stop base fuel k b r addr : ℕ} {S T : Set ℕ}

/-- A place for a block: aligned, between two addresses, and not reserved. -/
structure Room (reserved : List Region) (size align start stop b : ℕ) : Prop where
  aligned : align ∣ b
  low : start ≤ b
  high : b + size ≤ stop
  clear : ∀ rgn ∈ reserved, b + size ≤ rgn.base ∨ rgn.base + rgn.size ≤ b

/-- A search found the greatest address of a set, or that the set is empty. -/
def Found (S : Set ℕ) (r : ℕ) : Prop :=
  r = memblockError ∧ S = ∅ ∨ r ≠ memblockError ∧ IsGreatest S r

section AlignDown

theorem alignDown_eq (hk : k < 64) (h : addr < 2 ^ 64) :
    memblockAlignDown addr (2 ^ k) = addr / 2 ^ k * 2 ^ k := by
  have hlt : 2 ^ k - 1 < 2 ^ 64 := by
    have := Nat.pow_lt_pow_right (show 1 < 2 by norm_num) hk
    omega
  apply eq_of_testBit_eq
  intro i
  rw [memblockAlignDown, testBit_and, Nat.sub_sub, add_comm 1,
    testBit_two_pow_sub_succ hlt, ← shiftLeft_eq, ← shiftRight_eq_div_pow,
    testBit_shiftLeft]
  by_cases hik : i < k
  · simp [hik]
  · by_cases hi : i < 64
    · simp [hi, not_lt.mp hik]
    · have : addr.testBit i = false :=
        testBit_lt_two_pow (h.trans_le (Nat.pow_le_pow_right (by norm_num) (not_lt.mp hi)))
      simp [hik, not_lt.mp hik, this]

theorem alignDown_greatest (hk : k < 64) (h : addr < 2 ^ 64) :
    IsGreatest {b | 2 ^ k ∣ b ∧ b ≤ addr} (memblockAlignDown addr (2 ^ k)) := by
  rw [alignDown_eq hk h]
  refine ⟨⟨dvd_mul_left .., div_mul_le_self ..⟩, ?_⟩
  rintro b ⟨⟨c, rfl⟩, hle⟩
  rw [mul_comm] at hle ⊢
  exact mul_le_mul_right _ ((le_div_iff_mul_le (Nat.two_pow_pos k)).mpr hle)

end AlignDown

section Region

theorem countP_base_lt {stop' : ℕ} (hmem : rgn ∈ reserved) (hle : stop' ≤ rgn.base)
    (hlt : rgn.base < stop) :
    reserved.countP (·.base < stop') < reserved.countP (·.base < stop) := by
  obtain ⟨s, t, rfl⟩ := append_of_mem hmem
  have hmono : ∀ l : List Region, l.countP (·.base < stop') ≤ l.countP (·.base < stop) := fun l =>
    countP_mono_left fun a _ ha => by
      simp only [decide_eq_true_eq] at ha ⊢
      omega
  rw [countP_append, countP_append, countP_cons_of_neg (by simpa using hle),
    countP_cons_of_pos (by simpa using hlt)]
  have := hmono s
  have := hmono t
  omega

variable (hres : ∀ rgn ∈ reserved, rgn.base + rgn.size < 2 ^ 64) (hstop : stop < 2 ^ 64)
  (hk : k < 64) (hsize : 0 < size)
include hres hstop

theorem overlapsRegion_none (hhigh : base + size ≤ stop) :
    memblockOverlapsRegion reserved base size = none ↔
      ∀ rgn ∈ reserved, base + size ≤ rgn.base ∨ rgn.base + rgn.size ≤ base := by
  rw [memblockOverlapsRegion, find?_eq_none]
  refine forall₂_congr fun rgn hmem => ?_
  rw [memblockAddrsOverlap, add_of_lt (hres rgn hmem), add_of_lt (by omega)]
  simp only [Bool.and_eq_true, decide_eq_true_eq]
  omega

theorem overlapsRegion_some (hhigh : base + size ≤ stop)
    (h : memblockOverlapsRegion reserved base size = some rgn) :
    rgn ∈ reserved ∧ base < rgn.base + rgn.size ∧ rgn.base < base + size := by
  have hmem := mem_of_find?_eq_some h
  have hover := find?_some h
  rw [memblockAddrsOverlap, add_of_lt (hres rgn hmem), add_of_lt (by omega)] at hover
  simp only [Bool.and_eq_true, decide_eq_true_eq] at hover
  exact ⟨hmem, hover⟩

include hk

/-- The loop goes down from an address above which there is no place. Each round passes the start
of one more reserved region. -/
theorem findRegionLoop_found (hstart : 0 < start) (haligned : 2 ^ k ∣ base)
    (hhigh : base + size ≤ stop) (hall : ∀ b, Room reserved size (2 ^ k) start stop b → b ≤ base)
    (hfuel : reserved.countP (·.base < base + size) < fuel) :
    ∃ r, findRegionLoop reserved size (2 ^ k) start fuel base = some r ∧
      Found {b | Room reserved size (2 ^ k) start stop b} r := by
  induction fuel generalizing base with
  | zero => omega
  | succ fuel ih =>
    rw [findRegionLoop]
    by_cases hlow : start ≤ base
    swap
    · rw [if_neg hlow]
      refine ⟨_, rfl, .inl ⟨rfl, eq_empty_of_forall_notMem fun b hb => ?_⟩⟩
      exact hlow ((Room.low hb).trans (hall b hb))
    rw [if_pos hlow]
    rcases ho : memblockOverlapsRegion reserved base size with _ | rgn
    · have hclear := (overlapsRegion_none hres hstop hhigh).mp ho
      exact ⟨_, rfl, .inr ⟨by unfold memblockError; omega, ⟨haligned, hlow, hhigh, hclear⟩, hall⟩⟩
    · obtain ⟨hmem, hover, hbelow⟩ := overlapsRegion_some hres hstop hhigh ho
      -- a place that is not above this one must end below the reserved region
      have hend : ∀ b, Room reserved size (2 ^ k) start stop b → b + size ≤ rgn.base := fun b hb =>
        (hb.clear rgn hmem).resolve_right fun h => by
          have := hall b hb
          omega
      dsimp only
      by_cases hfit : rgn.base < size
      · rw [if_pos hfit]
        refine ⟨_, rfl, .inl ⟨rfl, eq_empty_of_forall_notMem fun b hb => ?_⟩⟩
        have := hend b hb
        omega
      · rw [if_neg hfit]
        obtain ⟨⟨hdvd, hle⟩, hmax⟩ := alignDown_greatest hk (show rgn.base - size < 2 ^ 64 by omega)
        refine ih hdvd (by omega) (fun b hb => hmax ⟨hb.aligned, ?_⟩) ?_
        · have := hend b hb
          omega
        · exact (countP_base_lt hmem (by omega) hbelow).trans_le (le_of_lt_succ hfuel)

theorem findRegion_found (hfuel : reserved.length < fuel) :
    ∃ r, memblockFindRegion reserved size (2 ^ k) fuel start stop = some r ∧
      Found {b | Room reserved size (2 ^ k) (if start = 0 then pageSize else start) stop b} r := by
  rw [memblockFindRegion]
  by_cases hfit : stop < size
  · rw [if_pos hfit]
    refine ⟨_, rfl, .inl ⟨rfl, eq_empty_of_forall_notMem fun b hb => ?_⟩⟩
    have := Room.high hb
    omega
  · rw [if_neg hfit]
    obtain ⟨⟨hdvd, hle⟩, hmax⟩ := alignDown_greatest hk (show stop - size < 2 ^ 64 by omega)
    refine findRegionLoop_found hres hstop hk ?_ hdvd (by omega) (fun b hb => hmax ⟨hb.aligned, ?_⟩)
      (countP_le_length.trans_lt hfuel)
    · unfold pageSize
      split_ifs <;> omega
    · have := hb.high
      omega

end Region

section Base

/-- The places in a memory region. Address 0 is not one of them, since it is the error. -/
def RoomIn (reserved : List Region) (size align start stop : ℕ) (rgn : Region) (b : ℕ) : Prop :=
  Room reserved size align
    (if max rgn.base start = 0 then pageSize else max rgn.base start)
    (min (rgn.base + rgn.size) stop) b

theorem RoomIn.bounds (h : RoomIn reserved size align start stop rgn b) :
    max rgn.base start ≤ b ∧ b + size ≤ min (rgn.base + rgn.size) stop := by
  refine ⟨le_trans ?_ h.low, h.high⟩
  split_ifs with hzero
  · rw [hzero]
    exact zero_le _
  · exact le_rfl

theorem found_cons_of_empty (h : ∀ b, ¬ RoomIn reserved size align start stop rgn b)
    (hr : Found {b | ∃ a ∈ rest, RoomIn reserved size align start stop a b} r) :
    Found {b | ∃ a ∈ rgn :: rest, RoomIn reserved size align start stop a b} r := by
  have hset : {b | ∃ a ∈ rgn :: rest, RoomIn reserved size align start stop a b} =
      {b | ∃ a ∈ rest, RoomIn reserved size align start stop a b} := by
    ext b
    simp [h b]
  rwa [hset]

theorem findBaseLoop_found (hres : ∀ rgn ∈ reserved, rgn.base + rgn.size < 2 ^ 64) (hk : k < 64)
    (hsize : 0 < size) (hsorted : l.Pairwise fun a b => b.base + b.size ≤ a.base)
    (hlt : ∀ rgn ∈ l, rgn.base + rgn.size < 2 ^ 64) (hfuel : reserved.length < fuel) :
    ∃ r, findBaseLoop reserved size (2 ^ k) fuel start stop l = some r ∧
      Found {b | ∃ rgn ∈ l, RoomIn reserved size (2 ^ k) start stop rgn b} r := by
  induction l with
  | nil => exact ⟨_, rfl, .inl ⟨rfl, by simp⟩⟩
  | cons rgn rest ih =>
    obtain ⟨hgap, hsorted⟩ := pairwise_cons.mp hsorted
    obtain ⟨hrgn, hlt⟩ := forall_mem_cons.mp hlt
    obtain ⟨r, hloop, hr⟩ := ih hsorted hlt
    have hskip := fun h : ∀ b, ¬ RoomIn reserved size (2 ^ k) start stop rgn b =>
      found_cons_of_empty h hr
    rw [findBaseLoop, Region.rend, add_of_lt hrgn]
    dsimp only
    split_ifs with hsmall hbelow hempty
    · refine ⟨r, hloop, hskip fun b hb => ?_⟩
      have := hb.bounds
      omega
    · refine ⟨_, rfl, .inl ⟨rfl, eq_empty_of_forall_notMem ?_⟩⟩
      rintro b ⟨a, ha, hb⟩
      have hend : a.base + a.size ≤ start := by
        rcases mem_cons.mp ha with rfl | ha
        · exact hbelow
        · have := hgap a ha
          omega
      have := hb.bounds
      omega
    · refine ⟨r, hloop, hskip fun b hb => ?_⟩
      have := hb.bounds
      omega
    · have htop : min (rgn.base + rgn.size) stop < 2 ^ 64 := by omega
      obtain ⟨found, hfind, hfound⟩ := findRegion_found hres htop hk hfuel
      rw [hfind]
      dsimp only
      rcases hfound with ⟨herr, hnone⟩ | ⟨hne, hroom, hmax⟩
      · rw [if_neg (not_not.mpr herr)]
        exact ⟨r, hloop, hskip fun b hb => eq_empty_iff_forall_notMem.mp hnone b hb⟩
      · rw [if_pos hne]
        refine ⟨found, rfl, .inr ⟨hne, ⟨rgn, mem_cons_self, hroom⟩, ?_⟩⟩
        rintro b ⟨a, ha, hb⟩
        rcases mem_cons.mp ha with rfl | ha
        · exact hmax hb
        · have h₁ := hgap a ha
          have h₂ := hb.bounds
          have h₃ : rgn.base ≤ found := (le_max_left _ _).trans (RoomIn.bounds hroom).1
          omega

end Base

section Main

/-- A place for a block in the memory. The first page of a memory region at address 0 is left out
when the search starts there. -/
def Free (memory reserved : List Region) (size align start stop b : ℕ) : Prop :=
  align ∣ b ∧ start ≤ b ∧ b + size ≤ stop ∧
    (∃ rgn ∈ memory, rgn.base ≤ b ∧ b + size ≤ rgn.base + rgn.size ∧
      (start = 0 → rgn.base = 0 → pageSize ≤ b)) ∧
    ∀ rgn ∈ reserved, b + size ≤ rgn.base ∨ rgn.base + rgn.size ≤ b

theorem free_iff : Free memory reserved size align start stop b ↔
    ∃ rgn ∈ memory, RoomIn reserved size align start stop rgn b := by
  constructor
  · rintro ⟨haligned, hstart, hstop, ⟨rgn, hmem, hlow, hhigh, hpage⟩, hclear⟩
    refine ⟨rgn, hmem, haligned, ?_, le_min hhigh hstop, hclear⟩
    split_ifs with hzero
    · exact hpage (by omega) (by omega)
    · exact max_le hlow hstart
  · rintro ⟨rgn, hmem, h⟩
    obtain ⟨hlow, hhigh⟩ := h.bounds
    have hfloor := h.low
    refine ⟨h.aligned, by omega, by omega, ⟨rgn, hmem, by omega, by omega, ?_⟩, h.clear⟩
    intro h₁ h₂
    rwa [if_pos (by omega)] at hfloor

/-- The search returns the highest place for a block, and fails only when there is none. -/
theorem memblock_find_base_highest (hm : WellFormed memory) (hr : WellFormed reserved)
    (hsize : 0 < size) (hk : k < 64) (hfuel : reserved.length < fuel)
    (currentLimit start stop : ℕ) :
    ∃ r, memblockFindBase reserved size (2 ^ k) fuel memory currentLimit start stop = some r ∧
      (r = memblockError ↔ ∀ b, ¬ Free memory reserved size (2 ^ k) start
        (if stop = 0 then currentLimit else stop) b) ∧
      (r ≠ memblockError → IsGreatest {b | Free memory reserved size (2 ^ k) start
        (if stop = 0 then currentLimit else stop) b} r) := by
  obtain ⟨r, hloop, hfound⟩ : ∃ r,
      memblockFindBase reserved size (2 ^ k) fuel memory currentLimit start stop = some r ∧ _ :=
    findBaseLoop_found hr.ordered.lt hk hsize (pairwise_reverse.mpr hm.ordered.sorted)
      (fun rgn h => hm.ordered.lt rgn (mem_reverse.mp h)) hfuel
  simp only [mem_reverse, ← free_iff] at hfound
  refine ⟨r, hloop, ?_⟩
  rcases hfound with ⟨herr, hnone⟩ | ⟨hne, hgreatest⟩
  · have hempty := eq_empty_iff_forall_notMem.mp hnone
    exact ⟨⟨fun _ => hempty, fun _ => herr⟩, fun h => (h herr).elim⟩
  · exact ⟨⟨fun h => (hne h).elim, fun h => (h r hgreatest.1).elim⟩, fun _ => hgreatest⟩

/-- A search from address 0 finds a place in the first page if the memory does not begin at 0. -/
theorem memblock_find_base_first_page :
    memblockFindBase [dummy] 1024 1 2 [⟨2048, 8192⟩] 0 0 4000 = some 2976 ∧ 2976 < pageSize := by
  decide

/-- The highest place is below the reserved region. -/
theorem memblock_find_base_highest_small :
    memblockFindBase [⟨8192, 4096⟩] 1024 (2 ^ 9) 2 [⟨0, 12288⟩] 12288 0 0 = some 7168 ∧
      IsGreatest {b | Free [⟨0, 12288⟩] [⟨8192, 4096⟩] 1024 (2 ^ 9) 0 12288 b} 7168 := by
  have hrun : memblockFindBase [⟨8192, 4096⟩] 1024 (2 ^ 9) 2 [⟨0, 12288⟩] 12288 0 0 =
      some 7168 := by decide
  have hm : WellFormed [⟨0, 12288⟩] := .inr ⟨by simp, ⟨pairwise_singleton _ _, by simp⟩, by simp⟩
  have hr : WellFormed [⟨8192, 4096⟩] := .inr ⟨by simp, ⟨pairwise_singleton _ _, by simp⟩, by simp⟩
  have hfuel : ([⟨8192, 4096⟩] : List Region).length < 2 := by decide
  obtain ⟨r, h, -, hgreatest⟩ := memblock_find_base_highest hm hr (by decide : 0 < 1024)
    (by decide : 9 < 64) hfuel 12288 0 0
  obtain rfl := Option.some.inj (hrun.symm.trans h)
  exact ⟨hrun, hgreatest (by decide)⟩

end Main

end LinuxKernel.Memblock
