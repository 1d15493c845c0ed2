import LinuxKernel.Raid5.Layout

/-! # The way back to the array

A sector of the array is a stripe, a chunk of the stripe and an offset in the chunk. With the layout
of the stripe this makes `compute_blocknr` the inverse of `raid5_compute_sector`.
-/

namespace LinuxKernel.Raid5

open Nat Int Option

variable {conf : Conf} {previous : Bool} {stripe d offset n rSector sector : ℕ} {pd qd i : ℤ}
  {ddf : Bool} {f g : ℤ → ℤ}

structure Conf.Valid (conf : Conf) (previous : Bool) : Prop where
  accepts : Accepts conf.level (conf.algo previous)
  chunk : 0 < conf.sectorsPerChunk previous
  disks : conf.level.minDisks ≤ conf.disks previous

section Arithmetic

theorem Conf.cast_maxDegraded (conf : Conf) : (conf.maxDegraded : ℤ) = conf.level.parity := by
  rw [Conf.maxDegraded]
  cases conf.level <;> rfl

section

variable (h : conf.Valid previous)
include h

theorem Conf.Valid.lt_disks : conf.maxDegraded < conf.disks previous := by
  have hparity := conf.cast_maxDegraded
  have hdisks := h.disks
  cases hl : conf.level <;> rw [hl] at hparity hdisks <;>
    simp only [Level.parity, Level.minDisks] at * <;> omega

theorem Conf.Valid.cast_dataDisks :
    (conf.dataDisks previous : ℤ) = conf.disks previous - conf.level.parity := by
  rw [Conf.dataDisks, ← conf.cast_maxDegraded]
  have := h.lt_disks
  omega

theorem Conf.Valid.dataDisks_pos : 0 < conf.dataDisks previous := Nat.sub_pos_of_lt h.lt_disks

end

def arraySector (conf : Conf) (previous : Bool) (stripe d offset : ℕ) : ℕ :=
  (stripe * conf.dataDisks previous + d) * conf.sectorsPerChunk previous + offset

theorem Conf.Valid.exists_arraySector (h : conf.Valid previous) (rSector : ℕ) :
    ∃ stripe d offset, d < conf.dataDisks previous ∧ offset < conf.sectorsPerChunk previous ∧
      rSector = arraySector conf previous stripe d offset := by
  refine ⟨rSector / conf.sectorsPerChunk previous / conf.dataDisks previous,
    rSector / conf.sectorsPerChunk previous % conf.dataDisks previous,
    rSector % conf.sectorsPerChunk previous, mod_lt _ h.dataDisks_pos, mod_lt _ h.chunk, ?_⟩
  rw [arraySector, div_add_mod', div_add_mod']

theorem mul_add_div (ho : offset < n) : (stripe * n + offset) / n = stripe := by
  rw [mul_comm, Nat.mul_add_div (zero_lt_of_lt ho), div_eq_of_lt ho, add_zero]

theorem mul_add_mod (ho : offset < n) : (stripe * n + offset) % n = offset := by
  rw [mul_comm, Nat.mul_add_mod, mod_eq_of_lt ho]

theorem le_arraySector (h : conf.Valid previous) :
    stripe * conf.sectorsPerChunk previous + offset ≤
      arraySector conf previous stripe d offset := by
  refine Nat.add_le_add_right (Nat.mul_le_mul_right _ ?_) _
  exact Nat.le_trans (Nat.le_mul_of_pos_right stripe h.dataDisks_pos) (Nat.le_add_right _ _)

end Arithmetic

section Compute

/-- The layout of a stripe of the array. -/
abbrev Laid (conf : Conf) (previous : Bool) :=
  Lays conf.level (conf.algo previous) (conf.disks previous)

variable (h : conf.Valid previous)
include h

theorem Conf.Valid.exists_laid (stripe : ℕ) :
    ∃ pd qd ddf f g, Laid conf previous stripe pd qd ddf f g :=
  exists_lays h.disks h.accepts

variable (hl : Laid conf previous stripe pd qd ddf f g)
include hl

theorem raid5ComputeSector_eq (hd : d < conf.dataDisks previous)
    (ho : offset < conf.sectorsPerChunk previous)
    (hlt : arraySector conf previous stripe d offset < 2 ^ 64) :
    raid5ComputeSector conf (arraySector conf previous stripe d offset) previous =
      some (⟨f d, pd, qd, ddf⟩, stripe * conf.sectorsPerChunk previous + offset) := by
  have hsector := Nat.lt_of_le_of_lt (le_arraySector h) hlt
  rw [raid5ComputeSector, arraySector, mul_add_div ho, mul_add_mod ho, mul_add_div hd,
    mul_add_mod hd, h.cast_dataDisks, hl.1, mod_eq_of_lt hsector]
  rfl

theorem computeBlocknr_eq (ho : offset < conf.sectorsPerChunk previous)
    (hi : DataDisk conf.level (conf.disks previous) pd qd i)
    (hlt : arraySector conf previous stripe (g i).toNat offset < 2 ^ 64) :
    computeBlocknr conf
        ⟨stripe * conf.sectorsPerChunk previous + offset, conf.disks previous,
          pd, qd, ddf⟩ i previous =
      some (.sector (arraySector conf previous stripe (g i).toNat offset)) ∧
    raid5ComputeSector conf (arraySector conf previous stripe (g i).toNat offset) previous =
      some (⟨i, pd, qd, ddf⟩, stripe * conf.sectorsPerChunk previous + offset) := by
  obtain ⟨h₀, hd, hback⟩ := hl.2.2.chunk hi
  rw [← h.cast_dataDisks] at hd
  have hcompute := raid5ComputeSector_eq h hl (by omega : (g i).toNat < _) ho hlt
  rw [toNat_of_nonneg h₀, hback] at hcompute
  have hchunk : (((stripe * conf.dataDisks previous : ℕ) + g i) % 2 ^ 64).toNat =
      stripe * conf.dataDisks previous + (g i).toNat := by
    have hle : stripe * conf.dataDisks previous + (g i).toNat ≤
        arraySector conf previous stripe (g i).toNat offset :=
      Nat.le_trans (Nat.le_mul_of_pos_right _ h.chunk) (le_add_right _ _)
    omega
  refine ⟨?_, hcompute⟩
  rw [computeBlocknr]
  rw [if_neg hi.ne_pd, if_neg fun hq => hi.ne_qd hq.1 hq.2, ← Conf.dataDisks, h.cast_dataDisks,
    hl.2.1, mul_add_mod ho, mul_add_div ho]
  simp only [bind_eq_bind, bind_some]
  rw [hchunk, ← arraySector, mod_eq_of_lt hlt, hcompute]
  simp

end Compute

section Bijection

variable (h : conf.Valid previous)
include h

theorem raid5ComputeSector_inj {r r' : ℕ} {p p' : Place} (hr : r < 2 ^ 64) (hr' : r' < 2 ^ 64)
    (hp : raid5ComputeSector conf r previous = some (p, sector))
    (hp' : raid5ComputeSector conf r' previous = some (p', sector)) (hdd : p.ddIdx = p'.ddIdx) :
    r = r' := by
  obtain ⟨stripe, d, offset, hd, ho, rfl⟩ := h.exists_arraySector r
  obtain ⟨stripe', d', offset', hd', ho', rfl⟩ := h.exists_arraySector r'
  obtain ⟨pd, qd, ddf, f, g, hl⟩ := h.exists_laid stripe
  obtain ⟨_, _, _, f', _, hl'⟩ := h.exists_laid stripe'
  obtain ⟨rfl, rfl⟩ := Prod.mk.inj (some.inj ((raid5ComputeSector_eq h hl hd ho hr).symm.trans hp))
  obtain ⟨rfl, hsector⟩ :=
    Prod.mk.inj (some.inj ((raid5ComputeSector_eq h hl' hd' ho' hr').symm.trans hp'))
  obtain rfl : stripe' = stripe := by
    have := congrArg (· / conf.sectorsPerChunk previous) hsector
    rwa [mul_add_div ho', mul_add_div ho] at this
  obtain rfl : offset' = offset := add_left_cancel hsector
  have hback {d : ℕ} (hd : d < conf.dataDisks previous) : g (f d) = d :=
    (hl.2.2.disk (natCast_nonneg d) (by rw [← h.cast_dataDisks]; exact Int.ofNat_lt.mpr hd)).2
  have hf : f' d' = f d' := congrArg Place.ddIdx (some.inj ((hl'.1 d').symm.trans (hl.1 d')))
  have hdd' : (d : ℤ) = d' := by
    rw [← hback hd, ← hback hd', ← hf]
    exact congrArg g hdd
  rw [ofNat_inj.mp hdd']

theorem exists_stripe
    (hfits : (sector / conf.sectorsPerChunk previous + 1) * conf.dataDisks previous *
      conf.sectorsPerChunk previous ≤ 2 ^ 64) :
    ∃ sh, stripeSetIdx conf sector previous = some sh ∧
      ∀ i, DataDisk conf.level (conf.disks previous) sh.pdIdx sh.qdIdx i →
        ∃ rSector p, computeBlocknr conf sh i previous = some (.sector rSector) ∧
          raid5ComputeSector conf rSector previous = some (p, sector) ∧ p.ddIdx = i := by
  obtain ⟨stripe, offset, ho, rfl⟩ : ∃ stripe offset, offset < conf.sectorsPerChunk previous ∧
      sector = stripe * conf.sectorsPerChunk previous + offset :=
    ⟨_, _, mod_lt sector h.chunk, (div_add_mod' ..).symm⟩
  rw [mul_add_div ho] at hfits
  have hlt {d : ℕ} (hd : d < conf.dataDisks previous) :
      arraySector conf previous stripe d offset < 2 ^ 64 := by
    refine Nat.lt_of_lt_of_le (Nat.add_lt_add_left ho _) (Nat.le_trans ?_ hfits)
    rw [← succ_mul, succ_mul stripe]
    exact mul_le_mul_right _ (Nat.add_le_add_left hd _)
  obtain ⟨pd, qd, ddf, f, g, hl⟩ := h.exists_laid stripe
  have hcompute := raid5ComputeSector_eq h hl h.dataDisks_pos ho (hlt h.dataDisks_pos)
  refine ⟨⟨stripe * conf.sectorsPerChunk previous + offset, conf.disks previous, pd, qd, ddf⟩, ?_,
    fun i hi => ?_⟩
  · rw [stripeSetIdx, mul_add_div ho, mul_add_mod ho]
    have := hlt h.dataDisks_pos
    rw [arraySector, add_zero] at hcompute this
    rw [mod_eq_of_lt this, hcompute]
    rfl
  · obtain ⟨h₀, hd, -⟩ := hl.2.2.chunk hi
    rw [← h.cast_dataDisks] at hd
    obtain ⟨hblock, hback⟩ := computeBlocknr_eq h hl ho hi (hlt (by omega))
    exact ⟨_, _, hblock, hback, rfl⟩

end Bijection

/-- The map of the sectors of an array is one to one, and `compute_blocknr` is its inverse. -/
theorem raid5_mapping_inverse (conf : Conf) (previous : Bool) (h : conf.Valid previous) :
    (∀ rSector < 2 ^ 64, ∃ p sector,
      raid5ComputeSector conf rSector previous = some (p, sector) ∧
        DataDisk conf.level (conf.disks previous) p.pdIdx p.qdIdx p.ddIdx ∧
        computeBlocknr conf ⟨sector, conf.disks previous, p.pdIdx, p.qdIdx, p.ddfLayout⟩ p.ddIdx
          previous = some (.sector rSector)) ∧
      (∀ r < 2 ^ 64, ∀ r' < 2 ^ 64, ∀ p p' sector,
        raid5ComputeSector conf r previous = some (p, sector) →
        raid5ComputeSector conf r' previous = some (p', sector) → p.ddIdx = p'.ddIdx → r = r') ∧
      ∀ sector, (sector / conf.sectorsPerChunk previous + 1) * conf.dataDisks previous *
          conf.sectorsPerChunk previous ≤ 2 ^ 64 →
        ∃ sh, stripeSetIdx conf sector previous = some sh ∧
          ∀ i, DataDisk conf.level (conf.disks previous) sh.pdIdx sh.qdIdx i →
            ∃ rSector p, computeBlocknr conf sh i previous = some (.sector rSector) ∧
              raid5ComputeSector conf rSector previous = some (p, sector) ∧ p.ddIdx = i := by
  refine ⟨fun rSector hlt => ?_,
    fun _ hr _ hr' _ _ _ hp hp' hdd => raid5ComputeSector_inj h hr hr' hp hp' hdd,
    fun _ hfits => exists_stripe h hfits⟩
  obtain ⟨stripe, d, offset, hd, ho, rfl⟩ := h.exists_arraySector rSector
  obtain ⟨pd, qd, ddf, f, g, hl⟩ := h.exists_laid stripe
  obtain ⟨hdisk, hback⟩ := hl.2.2.disk (natCast_nonneg d)
    (by rw [← h.cast_dataDisks]; exact Int.ofNat_lt.mpr hd)
  have hblock := computeBlocknr_eq h hl ho hdisk
  rw [hback] at hblock
  exact ⟨_, _, raid5ComputeSector_eq h hl hd ho hlt, hdisk, (hblock hlt).1⟩

theorem raid5_mapping_inverse_four_disks :
    raid5ComputeSector ⟨.six, .rotatingNContinue, .parityN, 8, 8, 4, 4⟩ 1000 false =
        some (⟨3, 1, 0, true⟩, 496) ∧
      ∃ p sector, raid5ComputeSector ⟨.six, .rotatingNContinue, .parityN, 8, 8, 4, 4⟩ 1000 false =
        some (p, sector) ∧ p.ddIdx ≠ p.qdIdx := by
  have h : Conf.Valid ⟨.six, .rotatingNContinue, .parityN, 8, 8, 4, 4⟩ false :=
    ⟨trivial, by decide, by decide⟩
  obtain ⟨p, sector, heq, hdisk, -⟩ := (raid5_mapping_inverse _ _ h).1 1000 (by decide)
  exact ⟨by decide, p, sector, heq, hdisk.ne_qd rfl⟩

end LinuxKernel.Raid5
