import LinuxKernel.Timer.Wheel

/-! # Where a timer sits

A timer in `tv1` sits in the bucket of the tick at which it is due. A timer in one
of the other vectors sits in a bucket that is cascaded before it is due. Every
timer that is enqueued is placed so, whatever the distance of its expiry.
-/

namespace LinuxKernel.Timer

open Nat BitVec

variable {c : Config} {near : Prop} {now e : Jiffies} {n : ℕ} {v : Vec} {d : ℕ}

namespace Config

variable (c)

theorem tvrSize_eq : c.tvrSize = 2 ^ c.tvrBits := one_shiftLeft _

theorem rootIndex_eq (t : Jiffies) : c.rootIndex t = t.toNat % 2 ^ c.tvrBits := by
  rw [rootIndex, tvrMask, tvrSize_eq, and_two_pow_sub_one_eq_mod]

theorem index_eq (n : ℕ) (t : Jiffies) : c.index n t = t.toNat / 2 ^ c.shift n % 2 ^ c.tvnBits := by
  rw [index, tvnMask, tvnSize, one_shiftLeft, and_two_pow_sub_one_eq_mod, shiftRight_eq_div_pow]

theorem tvrBits_le : c.tvrBits ≤ 8 := by unfold tvrBits; split_ifs <;> omega

theorem shift_succ (n : ℕ) : c.shift (n + 1) = c.shift n + c.tvnBits := by
  unfold shift; ring

theorem shift_zero : c.shift 0 = c.tvrBits := by simp [shift]

theorem shift_four_le : c.shift 4 ≤ 32 := by
  unfold shift tvrBits tvnBits
  split_ifs <;> omega

variable {c}

theorem shift_add_le (hn : n < 4) : c.shift n + c.tvnBits ≤ 32 := by
  unfold shift tvrBits tvnBits
  split_ifs <;> omega

end Config

theorem toNat_of_distance (now e : Jiffies) : e.toNat = (now.toNat + (e - now).toNat) % 2 ^ 64 := by
  rw [toNat_sub]
  omega

theorem rootIndex_of_distance {x : ℕ} (h : e.toNat = x % 2 ^ 64) :
    c.rootIndex e = x % 2 ^ c.tvrBits := by
  rw [c.rootIndex_eq, h]
  exact mod_mod_of_dvd x (pow_dvd_pow 2 (c.tvrBits_le.trans (by norm_num)))

theorem index_of_distance {x : ℕ} (hn : n < 4) (h : e.toNat = x % 2 ^ 64) :
    c.index n e = x / 2 ^ c.shift n % 2 ^ c.tvnBits := by
  have hle := Config.shift_add_le (c := c) hn
  have hsplit : 2 ^ 64 = 2 ^ c.shift n * 2 ^ (64 - c.shift n) := by
    rw [← pow_add]; congr 1; omega
  rw [c.index_eq, h, hsplit, mod_mul_right_div_self]
  exact mod_mod_of_dvd _ (pow_dvd_pow 2 (by omega))

/-- A timer that expires at `e` may sit in bucket `v` when the time is `now`: it is in
the bucket of its own tick, or its bucket is cascaded not later than the timer is
due. In the first `d` vectors the cascades of the current tick are done. A `near`
timer sits in the very bucket that its expiry falls into. -/
def Placed (c : Config) (near : Prop) (d : ℕ) (now e : Jiffies) : Vec → Prop
  | .tv1 i => ticksUntil now e < 2 ^ c.tvrBits ∧
      i = (now.toNat + ticksUntil now e) % 2 ^ c.tvrBits
  | .tvn n i => n < 4 ∧ (e - now).toNat < 2 ^ 63 ∧
      ∃ m, (n < d → 1 ≤ m) ∧ m ≤ ticksUntil now e ∧ 2 ^ c.shift n ∣ now.toNat + m ∧
        i = (now.toNat + m) / 2 ^ c.shift n % 2 ^ c.tvnBits ∧
        (near → ticksUntil now e < m + 2 ^ c.shift n ∧ ticksUntil now e < 2 ^ c.shift (n + 1))

/-- The last multiple of a bucket's span up to `x` lies after `t` when `x` is a span away. -/
theorem exists_hit {t x s : ℕ} (hs : 0 < s) (h : t + s ≤ x) :
    ∃ m, 1 ≤ m ∧ t + m ≤ x ∧ s ∣ t + m ∧ (t + m) / s = x / s ∧ x < t + m + s := by
  have hlo := div_mul_le_self x s
  have hhi := lt_div_mul_add hs (a := x)
  refine ⟨x / s * s - t, by omega, by omega, ?_, ?_, by omega⟩
  · rw [add_sub_of_le (by omega)]
    exact Dvd.intro_left _ rfl
  · rw [add_sub_of_le (by omega), Nat.mul_div_cancel _ hs]

theorem placed_level {i x : ℕ} (hn : n < 4) (hf : (e - now).toNat < 2 ^ 63)
    (hx : now.toNat + 2 ^ c.shift n ≤ x) (hx' : x ≤ now.toNat + (e - now).toNat)
    (hi : i = x / 2 ^ c.shift n % 2 ^ c.tvnBits)
    (hnear : near → x = now.toNat + (e - now).toNat ∧ (e - now).toNat < 2 ^ c.shift (n + 1))
    (d : ℕ) : Placed c near d now e (.tvn n i) := by
  obtain ⟨m, hm, hle, hd, hq, hlt⟩ := exists_hit (Nat.two_pow_pos _) hx
  rw [Placed, ticksUntil_of_future hf]
  refine ⟨hn, hf, m, fun _ => hm, by omega, hd, by rw [hi, hq], fun h => ?_⟩
  obtain ⟨hxe, hlap⟩ := hnear h
  exact ⟨by omega, hlap⟩

theorem shift_lt_of_four {c : Config} : 1 <<< c.shift 3 ≤ 2 ^ 26 := by
  rw [one_shiftLeft]
  exact Nat.pow_le_pow_right (by norm_num)
    (by unfold Config.shift Config.tvrBits Config.tvnBits; split_ifs <;> omega)

theorem bucket_placed (c : Config) (d : ℕ)
    (hnear : near → ticksUntil now e < 2 ^ c.shift 4) :
    Placed c near d now e (bucket c now e) := by
  have hdist := toNat_of_distance now e
  have hsmall := shift_lt_of_four (c := c)
  have hlow : ∀ n, n < 4 → 1 <<< c.shift n ≤ 1 <<< c.shift 3 := by
    intro n hn
    simp only [one_shiftLeft]
    apply Nat.pow_le_pow_right (by norm_num)
    unfold Config.shift
    have := mul_le_mul_right c.tvnBits (show n ≤ 3 by omega)
    omega
  have h0 := hlow 0 (by omega)
  have h1 := hlow 1 (by omega)
  have h2 := hlow 2 (by omega)
  rw [c.shift_zero, ← Config.tvrSize] at h0
  unfold bucket
  dsimp only
  split_ifs with hr ha hb hc hneg hfar
  · have hf : (e - now).toNat < 2 ^ 63 := by omega
    rw [Placed, ticksUntil_of_future hf, ← c.tvrSize_eq]
    exact ⟨hr, by rw [c.tvrSize_eq]; exact rootIndex_of_distance hdist⟩
  · refine placed_level (by omega) (by omega) ?_ le_rfl (index_of_distance (by omega) hdist)
      (fun _ => ⟨rfl, by rwa [← one_shiftLeft]⟩) d
    rw [c.shift_zero, ← c.tvrSize_eq]; omega
  · refine placed_level (by omega) (by omega) ?_ le_rfl (index_of_distance (by omega) hdist)
      (fun _ => ⟨rfl, by rwa [← one_shiftLeft]⟩) d
    rw [← one_shiftLeft]; omega
  · refine placed_level (by omega) (by omega) ?_ le_rfl (index_of_distance (by omega) hdist)
      (fun _ => ⟨rfl, by rwa [← one_shiftLeft]⟩) d
    rw [← one_shiftLeft]; omega
  · rw [sub_toInt_neg_iff] at hneg
    rw [Placed, ticksUntil_of_past hneg, c.rootIndex_eq]
    exact ⟨Nat.two_pow_pos _, rfl⟩
  · -- the clamped expiry chooses the bucket, and it comes before the real one
    rw [sub_toInt_neg_iff] at hneg
    have hlap : 2 ^ c.shift 4 ≤ 2 ^ 32 := Nat.pow_le_pow_right (by norm_num) c.shift_four_le
    refine placed_level (x := now.toNat + 0xffffffff) (by omega) (by omega) ?_ (by omega)
      (index_of_distance (by omega) ?_) (fun h => ?_) d
    · rw [← one_shiftLeft]; omega
    · rw [toNat_add, add_comm]; rfl
    · have hlt := hnear h
      rw [ticksUntil_of_future (by omega)] at hlt
      omega
  · have hf : (e - now).toNat < 2 ^ 63 := by omega
    rw [ticksUntil_of_future hf] at hnear
    refine placed_level (by omega) hf ?_ le_rfl (index_of_distance (by omega) hdist)
      (fun h => ⟨rfl, hnear h⟩) d
    rw [← one_shiftLeft]; omega

/-- A bucket that is cascaded now is the one with the current index, at a tick that is
a multiple of its span. All other buckets of the vector are done for this tick. -/
theorem Placed.passed (h : Placed c near d now e v)
    (hne : ¬ (2 ^ c.shift d ∣ now.toNat ∧ v = .tvn d (c.index d now))) :
    Placed c near (d + 1) now e v := by
  cases v with
  | tv1 i => exact h
  | tvn n i =>
    obtain ⟨hn, hf, m, h1, hm, hd, hi, hnear⟩ := h
    refine ⟨hn, hf, m, fun hlt => ?_, hm, hd, hi, hnear⟩
    by_contra h0
    obtain rfl : m = 0 := by omega
    obtain rfl : n = d := by omega
    exact hne ⟨hd, by rw [hi, c.index_eq, add_zero]⟩

theorem toNat_succ (t : Jiffies) : (t + 1).toNat = (t.toNat + 1) % 2 ^ 64 := by
  rw [toNat_add]; rfl

/-- A tick keeps a timer where it is when it is not due and its bucket was not hit. -/
theorem Placed.tick (h : Placed c near 4 now e v) (hpos : 0 < ticksUntil now e) :
    Placed c near 0 (now + 1) e v := by
  obtain ⟨hf, hs⟩ := ticksUntil_succ hpos
  have hsucc := toNat_succ now
  cases v with
  | tv1 i =>
    obtain ⟨hlt, hi⟩ := h
    refine ⟨by omega, ?_⟩
    have hdvd : 2 ^ c.tvrBits ∣ 2 ^ 64 := pow_dvd_pow 2 (c.tvrBits_le.trans (by norm_num))
    rw [hi, hsucc, add_mod ((now.toNat + 1) % 2 ^ 64), mod_mod_of_dvd _ hdvd, ← add_mod]
    congr 1
    omega
  | tvn n i =>
    obtain ⟨hn, -, m, hm1, hm, hd, hi, hnear⟩ := h
    have hle := Config.shift_add_le (c := c) hn
    refine ⟨hn, hf, m - 1, fun h => absurd h (not_lt_zero n), by omega, ?_, ?_, fun h => ?_⟩
    · -- the tick count may wrap, but only at a multiple of every span
      have hdvd : 2 ^ c.shift n ∣ 2 ^ 64 := pow_dvd_pow 2 (by omega)
      have hwrap : (now.toNat + 1) % 2 ^ 64 + (m - 1) =
          now.toNat + m - (now.toNat + 1) / 2 ^ 64 * 2 ^ 64 := by
        omega
      rw [hsucc, hwrap]
      exact dvd_sub hd (Dvd.dvd.mul_left hdvd _)
    · have hsplit : 2 ^ 64 = 2 ^ c.shift n * 2 ^ (64 - c.shift n) := by
        rw [← pow_add]; congr 1; omega
      have hwrap : now.toNat + m = (now.toNat + 1) % 2 ^ 64 + (m - 1) +
          2 ^ c.shift n * (2 ^ (64 - c.shift n) * ((now.toNat + 1) / 2 ^ 64)) := by
        rw [← mul_assoc, ← hsplit]
        omega
      have hpow : 2 ^ c.tvnBits ∣ 2 ^ (64 - c.shift n) := pow_dvd_pow 2 (by omega)
      rw [hi, hsucc, hwrap, add_mul_div_left _ _ (Nat.two_pow_pos _), add_mod,
        mod_eq_zero_of_dvd (Dvd.dvd.mul_right hpow _), add_zero, mod_mod]
    · obtain ⟨hlt, hlap⟩ := hnear h
      exact ⟨by omega, by omega⟩

theorem placed_root_due (h : Placed c near d now e (.tv1 (c.rootIndex now))) :
    ticksUntil now e = 0 := by
  obtain ⟨hlt, hi⟩ := h
  rw [c.rootIndex_eq] at hi
  have hmod : (now.toNat + ticksUntil now e) % 2 ^ c.tvrBits =
      (now.toNat + 0) % 2 ^ c.tvrBits := hi.symm
  have := Nat.ModEq.add_left_cancel' now.toNat hmod
  rw [ModEq, mod_eq_of_lt hlt] at this
  exact this

/-- A timer that is due and not in a bucket still to be cascaded is in the current bucket. -/
theorem Placed.due (h : Placed c near 4 now e v) (hz : ticksUntil now e = 0) :
    v = .tv1 (c.rootIndex now) := by
  cases v with
  | tv1 i =>
    obtain ⟨-, hi⟩ := h
    rw [hi, hz, c.rootIndex_eq]
    rfl
  | tvn n i =>
    obtain ⟨hn, -, m, h1, hm, -⟩ := h
    omega

theorem Placed.lap (h : Placed c near d now e v) (hnear : near) :
    ticksUntil now e < 2 ^ c.shift 4 := by
  cases v with
  | tv1 i =>
    refine h.1.trans_le (Nat.pow_le_pow_right (by norm_num) ?_)
    unfold Config.shift
    omega
  | tvn n i =>
    obtain ⟨hn, -, m, -, -, -, -, hlt⟩ := h
    refine (hlt hnear).2.trans_le (Nat.pow_le_pow_right (by norm_num) ?_)
    unfold Config.shift
    have := mul_le_mul_right c.tvnBits (show n + 1 ≤ 4 by omega)
    omega

end LinuxKernel.Timer
