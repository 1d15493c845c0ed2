import Mathlib.Data.List.ProdSigma
import Mathlib.Tactic.Ring
import LinuxKernel.Raid10.Model

/-! # The geometry of a RAID 10 array

`setup_conf` rounds the size of the devices so that each has `s` chunks for each of the far copies.
The copies of a sector, in the order in which `raid10_find_phys` lists them, are then given by a
formula: the devices go on by one for each near copy and by `near_copies` for each far copy.
-/

namespace LinuxKernel.Raid10

open List Nat

variable {mddev : Mddev} {conf : R10conf} {a s n f d t k m N F : ℕ}

section Setup

/-- The chunk size is an `int`, and the sectors of the array can be counted with 64 bits. -/
structure Fits (mddev : Mddev) : Prop where
  chunk : mddev.newChunkSectors < 2 ^ 31
  size : mddev.raidDisks * (mddev.devSectors + 1) ≤ 2 ^ 64

/-- The geometry with chunks of `2 ^ a` sectors and `s` chunks of each device for a far copy. -/
structure Geometry (conf : R10conf) (a s : ℕ) : Prop where
  near_pos : 0 < conf.nearCopies
  far_pos : 0 < conf.farCopies
  copies : conf.copies = conf.nearCopies * conf.farCopies
  two_le : 2 ≤ conf.nearCopies * conf.farCopies
  copies_le : conf.nearCopies * conf.farCopies ≤ conf.raidDisks
  mask : conf.chunkMask = 2 ^ a - 1
  shift : conf.chunkShift = a
  devSectors : conf.devSectors = conf.farCopies * s * 2 ^ a
  stride : conf.stride = (if conf.farOffset then 1 else s) * 2 ^ a
  fits : conf.raidDisks * (conf.farCopies * s * 2 ^ a) < 2 ^ 64

theorem firstBit_two_pow (h : a < 32) : firstBit (2 ^ a) = a := by
  have hfind : (range 32).find? (2 ^ a).testBit = some a := by
    rw [find?_range_eq_some]
    refine ⟨by simp, mem_range.mpr h, fun j hj => ?_⟩
    simp [hj.ne']
  rw [firstBit, hfind]
  rfl

/-- Rounding up the used chunks of the devices gives a multiple of the far copies. -/
theorem used_chunks (hk : 0 < k) (hF : 0 < F) (hle : k * F ≤ N) :
    (s * N / k * (k * F) + (N - 1)) / N = F * s := by
  have hdiv := div_add_mod' (s * N) k
  have hmod := mod_lt (s * N) hk
  generalize s * N / k = C at *
  have hlow : F * s * N ≤ C * (k * F) + (k * F - F) := by
    calc F * s * N = (C * k + s * N % k) * F := by rw [hdiv]; ring
      _ ≤ (C * k + (k - 1)) * F := mul_le_mul_right F (by omega)
      _ = C * (k * F) + (k * F - F) := by rw [add_mul, Nat.sub_mul]; ring_nf
  have hhigh : C * (k * F) ≤ F * s * N := by
    calc C * (k * F) = C * k * F := by ring
      _ ≤ s * N * F := mul_le_mul_right F (by omega)
      _ = F * s * N := by ring
  have hkF : F ≤ k * F := Nat.le_mul_of_pos_left F hk
  refine Nat.div_eq_of_lt_le ?_ ?_
  · omega
  · rw [succ_mul]
    omega

theorem and_mask : n &&& (2 ^ a - 1) = n % 2 ^ a := and_two_pow_sub_one_eq_mod n a

theorem setupConf_geometry (h : setupConf mddev = some conf) (hfits : Fits mddev) :
    ∃ a s, Geometry conf a s := by
  rw [setupConf] at h
  split at h
  · cases h
  rename_i hchunk
  dsimp only at h
  split at h
  · cases h
  obtain rfl := Option.some.inj h
  obtain ⟨a, ha⟩ : isPowerOfTwo mddev.newChunkSectors := by
    rw [← ne_zero_and_sub_one_eq_zero_iff_isPowerOfTwo]
    simpa [isPowerOf2] using not_not.mp (not_or.mp hchunk).2
  have ha32 : a < 32 := by
    by_contra hlt
    have := Nat.pow_le_pow_right (show 0 < 2 by omega) (not_lt.mp hlt)
    have := hfits.chunk
    omega
  generalize hnc : mddev.newLayout &&& 255 = nc at *
  generalize hfc : mddev.newLayout >>> 8 &&& 255 = fc at *
  have hcopies : 2 ≤ nc * fc ∧ nc * fc ≤ mddev.raidDisks := by omega
  have hnear : 0 < nc := Nat.pos_of_mul_pos_right (by omega : 0 < nc * fc)
  have hfar : 0 < fc := Nat.pos_of_mul_pos_left (by omega : 0 < nc * fc)
  rw [ha, firstBit_two_pow ha32, shiftRight_eq_div_pow] at *
  obtain ⟨s, hs⟩ : ∃ s, mddev.devSectors / 2 ^ a / fc = s := ⟨_, rfl⟩
  have hdev : fc * s * 2 ^ a ≤ mddev.devSectors := by
    rw [← hs, mul_comm fc]
    exact (mul_le_mul_right _ (div_mul_le_self ..)).trans (div_mul_le_self ..)
  have hused : fc * s ≤ mddev.devSectors :=
    (Nat.le_mul_of_pos_right _ (Nat.two_pow_pos a)).trans hdev
  have hN : mddev.raidDisks * (fc * s * 2 ^ a) < 2 ^ 64 := by
    refine (mul_le_mul_left _ hdev).trans_lt (lt_of_lt_of_le ?_ hfits.size)
    exact mul_lt_mul_of_pos_left (lt_succ_self _) (by omega)
  have hsize : s * mddev.raidDisks ≤ mddev.raidDisks * (fc * s * 2 ^ a) := by
    rw [mul_comm]
    refine mul_le_mul_left _ ?_
    exact (Nat.le_mul_of_pos_left s hfar).trans (Nat.le_mul_of_pos_right _ (Nat.two_pow_pos a))
  have hround : s * mddev.raidDisks / nc * (nc * fc) + (mddev.raidDisks - 1) < 2 ^ 64 := by
    calc s * mddev.raidDisks / nc * (nc * fc) + (mddev.raidDisks - 1)
        = s * mddev.raidDisks / nc * nc * fc + (mddev.raidDisks - 1) := by rw [mul_assoc]
      _ ≤ s * mddev.raidDisks * fc + (mddev.raidDisks - 1) :=
          Nat.add_le_add_right (mul_le_mul_right _ (div_mul_le_self ..)) _
      _ = mddev.raidDisks * (fc * s) + (mddev.raidDisks - 1) := by ring_nf
      _ < mddev.raidDisks * (fc * s) + mddev.raidDisks := by omega
      _ ≤ 2 ^ 64 := (mul_le_mul_left _ (succ_le_succ hused)).trans hfits.size
  have hdev64 : fc * s * 2 ^ a < 2 ^ 64 :=
    (Nat.le_mul_of_pos_left _ (by omega)).trans_lt hN
  have hstride : (if mddev.newLayout &&& 1 <<< 16 ≠ 0 then 1 else s) * 2 ^ a < 2 ^ 64 := by
    split_ifs
    · exact (one_mul _).trans_lt (Nat.pow_lt_pow_right (by omega) (by omega))
    · exact (mul_le_mul_right _ (Nat.le_mul_of_pos_left s hfar)).trans_lt hdev64
  refine ⟨a, s, hnear, hfar, rfl, hcopies.1, hcopies.2, rfl, rfl, ?_, ?_, hN⟩
  · simp only [hs, sector, mod_eq_of_lt (hsize.trans_lt hN), mod_eq_of_lt hround,
      used_chunks hnear hfar hcopies.2, shiftLeft_eq, mod_eq_of_lt hdev64]
  · simp only [hs, sector, mod_eq_of_lt (hsize.trans_lt hN), mod_eq_of_lt hround,
      used_chunks hnear hfar hcopies.2, shiftLeft_eq, Nat.mul_div_cancel_left s hfar,
      decide_eq_true_eq]
    exact mod_eq_of_lt hstride

end Setup

section Copies

variable (conf) in
/-- The copy with the numbers `n` and `f` of a sector whose first copy is on the device `dev` at the
address `t`. -/
def copyAt (dev t n f : ℕ) : ℕ × ℕ :=
  ((dev + n + f * conf.nearCopies) % conf.raidDisks,
    t + (dev + n) / conf.raidDisks * (conf.chunkMask + 1) + f * conf.stride)

theorem farLoop_eq (hd : d < conf.raidDisks) (hk : conf.nearCopies ≤ conf.raidDisks)
    (ht : t + f * conf.stride < 2 ^ 64) : farLoop conf f d t =
      (List.range f).map fun i =>
        ((d + (i + 1) * conf.nearCopies) % conf.raidDisks, t + (i + 1) * conf.stride) := by
  induction f generalizing d t with
  | zero => rfl
  | succ f ih =>
    have hnext : (if d + conf.nearCopies ≥ conf.raidDisks then d + conf.nearCopies - conf.raidDisks
        else d + conf.nearCopies) = (d + conf.nearCopies) % conf.raidDisks := by
      split_ifs with hge
      · rw [mod_eq_sub_mod hge, mod_eq_of_lt (by omega)]
      · rw [mod_eq_of_lt (by omega)]
    rw [succ_mul] at ht
    have hsector : sector (t + conf.stride) = t + conf.stride := mod_eq_of_lt (by omega)
    rw [farLoop, hnext, hsector, ih (mod_lt _ (by omega)) (by omega), range_succ_eq_map,
      map_cons, map_map]
    refine congrArg₂ _ (by simp) (map_congr_left fun i _ => ?_)
    refine Prod.ext ?_ ?_
    · simp only [Function.comp_apply, mod_add_mod, succ_eq_add_one]
      congr 1
      ring
    · simp only [Function.comp_apply, succ_eq_add_one]
      ring

theorem far_copies (hd : d < conf.raidDisks) (hk : conf.nearCopies ≤ conf.raidDisks)
    (hF : 0 < conf.farCopies) (ht : t + (conf.farCopies - 1) * conf.stride < 2 ^ 64) :
    (d, t) :: farLoop conf (conf.farCopies - 1) d t =
      (List.range conf.farCopies).map (copyAt conf d t 0) := by
  obtain ⟨F, hF⟩ : ∃ F, conf.farCopies = F + 1 := ⟨conf.farCopies - 1, by omega⟩
  rw [hF] at ht ⊢
  rw [farLoop_eq hd hk ht, range_succ_eq_map, map_cons, map_map]
  refine congrArg₂ _ ?_ (map_congr_left fun i _ => ?_)
  · simp [copyAt, mod_eq_of_lt hd, div_eq_of_lt hd]
  · simp [copyAt, div_eq_of_lt hd]

theorem copyAt_succ (hN : 0 < conf.raidDisks) :
    copyAt conf d t (n + 1) f = if d + 1 ≥ conf.raidDisks then
      copyAt conf (d + 1 - conf.raidDisks) (t + (conf.chunkMask + 1)) n f
    else copyAt conf (d + 1) t n f := by
  split_ifs with hge
  · have hsplit : d + (n + 1) = d + 1 - conf.raidDisks + n + conf.raidDisks := by omega
    rw [copyAt, copyAt, hsplit, add_div_right _ hN, add_right_comm _ conf.raidDisks, add_mod_right]
    refine Prod.ext rfl ?_
    ring
  · rw [copyAt, copyAt, add_assoc d 1, add_comm 1 n]

theorem nearLoop_eq (hd : d < conf.raidDisks) (hk : conf.nearCopies ≤ conf.raidDisks)
    (hF : 0 < conf.farCopies)
    (ht : ∀ n < m, ∀ f < conf.farCopies, (copyAt conf d t n f).2 < 2 ^ 64) :
    nearLoop conf m d t =
      (List.range m).flatMap fun n => (List.range conf.farCopies).map (copyAt conf d t n) := by
  induction m generalizing d t with
  | zero => rfl
  | succ m ih =>
    have hfirst : t + (conf.farCopies - 1) * conf.stride < 2 ^ 64 := by
      have := ht 0 (by omega) (conf.farCopies - 1) (by omega)
      simpa [copyAt, div_eq_of_lt hd] using this
    have hrest :
      (if d + 1 ≥ conf.raidDisks then nearLoop conf m 0 (sector (t + (conf.chunkMask + 1)))
        else nearLoop conf m (d + 1) t) = (range m).flatMap fun n =>
          (range conf.farCopies).map (copyAt conf d t (n + 1)) := by
      have hN : 0 < conf.raidDisks := by omega
      split_ifs with hge
      · have hlast : d + 1 - conf.raidDisks = 0 := by omega
        have hstep {n} : copyAt conf d t (n + 1) = copyAt conf 0 (t + (conf.chunkMask + 1)) n := by
          funext f
          rw [copyAt_succ hN, if_pos hge, hlast]
        rcases Nat.eq_zero_or_pos m with rfl | hm
        · rfl
        have hsector : sector (t + (conf.chunkMask + 1)) = t + (conf.chunkMask + 1) := by
          refine mod_eq_of_lt ?_
          have := ht 1 (by omega) 0 hF
          rw [hstep] at this
          simpa [copyAt] using this
        rw [hsector, ih hN fun n hn f hf => hstep ▸ ht (n + 1) (by omega) f hf]
        simp only [hstep]
      · have hstep {n} : copyAt conf d t (n + 1) = copyAt conf (d + 1) t n := by
          funext f
          rw [copyAt_succ hN, if_neg hge]
        rw [ih (by omega) fun n hn f hf => hstep ▸ ht (n + 1) (by omega) f hf]
        simp only [hstep]
    rw [nearLoop, hrest, far_copies hd hk hF hfirst, range_succ_eq_map, flatMap_cons, flatMap_map]

end Copies

end LinuxKernel.Raid10
