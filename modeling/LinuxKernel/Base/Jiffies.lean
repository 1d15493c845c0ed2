import Mathlib.Tactic

/-! # Wrapping time

Times are 64-bit counters that wrap around. One time is before another when the
wrapped difference, read as a signed number, is negative.
-/

namespace LinuxKernel

open BitVec

/-- A point in time, as an `unsigned long` of 64 bits. -/
abbrev Jiffies := BitVec 64

def timeAfter (a b : Jiffies) : Bool := (b - a).toInt < 0

def timeBefore (a b : Jiffies) : Bool := timeAfter b a

def timeAfterEq (a b : Jiffies) : Bool := 0 ≤ (a - b).toInt

def timeBeforeEq (a b : Jiffies) : Bool := timeAfterEq b a

/-- The number of ticks from `now` to `t`, or zero when `t` is in the past. -/
def ticksUntil (now t : Jiffies) : ℕ := if (t - now).toInt < 0 then 0 else (t - now).toNat

variable {now t : Jiffies} {s : Jiffies}

theorem sub_toInt_neg_iff : (t - now).toInt < 0 ↔ 2 ^ 63 ≤ (t - now).toNat := by
  rw [toInt_eq_toNat_cond]
  split_ifs <;> omega

theorem ticksUntil_of_past (h : 2 ^ 63 ≤ (t - now).toNat) : ticksUntil now t = 0 :=
  if_pos (sub_toInt_neg_iff.mpr h)

theorem ticksUntil_of_future (h : (t - now).toNat < 2 ^ 63) : ticksUntil now t = (t - now).toNat :=
  if_neg fun hn => absurd (sub_toInt_neg_iff.mp hn) (by omega)

theorem toNat_succ_sub (h : t ≠ now) : (t - (now + 1)).toNat + 1 = (t - now).toNat := by
  have hne : t.toNat ≠ now.toNat := fun he => h (eq_of_toNat_eq he)
  have h1 : (1 : Jiffies).toNat = 1 := rfl
  simp only [toNat_sub, toNat_add]
  omega

theorem ticksUntil_succ (h : 0 < ticksUntil now t) :
    (t - (now + 1)).toNat < 2 ^ 63 ∧ ticksUntil (now + 1) t + 1 = ticksUntil now t := by
  have hf : (t - now).toNat < 2 ^ 63 := by
    by_contra hp
    rw [ticksUntil_of_past (by omega)] at h
    exact absurd h (lt_irrefl 0)
  have hne : t ≠ now := by
    rintro rfl
    rw [ticksUntil_of_future hf, BitVec.sub_self] at h
    exact absurd h (lt_irrefl 0)
  have hs := toNat_succ_sub hne
  rw [ticksUntil_of_future hf, ticksUntil_of_future (by omega)]
  exact ⟨by omega, hs⟩

/-- How far a time is ahead of `now`; negative when it lies in the past. -/
def offset (now t : Jiffies) : ℤ := (t - now).toInt

theorem offset_bounds (now t : Jiffies) : -2 ^ 63 ≤ offset now t ∧ offset now t < 2 ^ 63 :=
  ⟨le_toInt _, toInt_lt⟩

theorem ticksUntil_eq_offset (now t : Jiffies) : ticksUntil now t = (offset now t).toNat := by
  unfold ticksUntil offset
  rw [toInt_eq_toNat_cond]
  split_ifs <;> omega

/-- The wrapped difference of two times is the difference of their offsets, as long as
that is in range. -/
theorem sub_toInt_eq (now : Jiffies) (hlo : -2 ^ 63 ≤ offset now t - offset now s)
    (hhi : offset now t - offset now s < 2 ^ 63) :
    (t - s).toInt = offset now t - offset now s := by
  have hsub : t - s = t - now - (s - now) := by
    apply eq_of_toNat_eq
    simp only [toNat_sub]
    omega
  rw [hsub, toInt_sub]
  apply Int.bmod_eq_of_le <;> unfold offset at * <;> omega

theorem timeBefore_iff (now : Jiffies) (hlo : -2 ^ 63 ≤ offset now t - offset now s)
    (hhi : offset now t - offset now s < 2 ^ 63) :
    timeBefore t s = true ↔ offset now t < offset now s := by
  rw [timeBefore, timeAfter, decide_eq_true_iff, sub_toInt_eq now hlo hhi]
  omega

theorem timeBeforeEq_iff (now : Jiffies) (hlo : -2 ^ 63 ≤ offset now s - offset now t)
    (hhi : offset now s - offset now t < 2 ^ 63) :
    timeBeforeEq t s = true ↔ offset now t ≤ offset now s := by
  rw [timeBeforeEq, timeAfterEq, decide_eq_true_iff, sub_toInt_eq now hlo hhi]
  omega

@[simp] theorem offset_self (now : Jiffies) : offset now now = 0 := by simp [offset]

theorem offset_add (now : Jiffies) {n : ℕ} (hn : n < 2 ^ 63) :
    offset now (now + BitVec.ofNat 64 n) = n := by
  have hsub : now + BitVec.ofNat 64 n - now = BitVec.ofNat 64 n := by
    rw [BitVec.add_comm, add_sub_cancel]
  rw [offset, hsub, toInt_eq_toNat_cond, toNat_ofNat]
  split_ifs <;> omega

theorem offset_succ (h : -2 ^ 63 < offset now t) : offset (now + 1) t = offset now t - 1 := by
  have h1 : offset now (now + 1) = 1 := offset_add now (by norm_num)
  obtain ⟨-, hlt⟩ := offset_bounds now t
  rw [offset, sub_toInt_eq now (by omega) (by omega), h1]

end LinuxKernel
