import Mathlib.Data.BitVec
import Mathlib.Data.Nat.Bitwise
import LinuxKernel.Base.Jiffies

/-! # Rounded times

Timers that need not be exact are moved to times at which others expire. `round_jiffies_common`
moves them to whole seconds, skewed for each processor, and `apply_slack` to the time in an interval
that ends with the most zero bits.
-/

namespace LinuxKernel.Timer

open BitVec Nat

section Seconds

/-- What `cpu * 3`, an `int`, is as a time. -/
def skew (cpu : BitVec 32) : Jiffies := (cpu * 3).signExtend 64

/-- `HZ` is `hz`. -/
def roundJiffiesCommon (hz : ℕ) (jiffies j : Jiffies) (cpu : BitVec 32) (forceUp : Bool) :
    Jiffies :=
  let original := j
  let j := j + skew cpu
  let rem := j.toNat % hz
  let j := if rem < hz / 4 ∧ forceUp = false then j - BitVec.ofNat 64 rem
    else j - BitVec.ofNat 64 rem + BitVec.ofNat 64 hz
  let j := j - skew cpu
  if j ≤ jiffies then original else j

/-- What a rounded time is like. The multiple of a second may be one past the largest number. -/
structure Rounded (hz : ℕ) (jiffies j : Jiffies) (cpu : BitVec 32) (forceUp : Bool) (r : Jiffies) :
    Prop where
  after : timeAfter r jiffies = true
  near : |(r - j).toInt| < hz
  whole : r = j ∨ ∃ m, hz ∣ m ∧ m < 2 ^ 64 + hz ∧ r + skew cpu = BitVec.ofNat 64 m
  up : forceUp = true → timeBefore r j = false

section

variable {hz : ℕ} {jiffies j : Jiffies} {cpu : BitVec 32} {forceUp : Bool}
  (hhz : 0 < hz) (hlt : hz < 2 ^ 31) (hj : 0 < (j - jiffies).toNat)
  (hj' : (j - jiffies).toNat < 2 ^ 63 - hz)
include hhz hlt hj hj'

theorem rounded_iff {e : ℤ} (he : -hz < e) (he' : e ≤ hz) (hforce : forceUp = true → 0 ≤ e)
    (hm : e = 0 ∨ ∃ m, hz ∣ m ∧ m < 2 ^ 64 + hz ∧
      j + BitVec.ofInt 64 e + skew cpu = BitVec.ofNat 64 m) :
    Rounded hz jiffies j cpu forceUp (j + BitVec.ofInt 64 e) ↔
      0 < (j - jiffies).toNat + e ∧ e < hz := by
  have hdiff : (j + BitVec.ofInt 64 e - j).toInt = e := by
    rw [add_comm, add_sub_cancel, toInt_ofInt]
    apply Int.bmod_eq_of_le <;> omega
  have hnow : timeAfter (j + BitVec.ofInt 64 e) jiffies = true ↔ 0 < (j - jiffies).toNat + e := by
    clear hm
    rw [timeAfter, decide_eq_true_iff, sub_toInt_neg_iff]
    simp only [toNat_sub, toNat_add, toNat_ofInt] at hj hj' ⊢
    omega
  rw [← hnow]
  refine ⟨fun h => ⟨h.after, ?_⟩, fun h => ⟨h.1, ?_, ?_, fun h => ?_⟩⟩
  · have := h.near
    rw [hdiff, abs_lt] at this
    exact this.2
  · rw [hdiff, abs_lt]
    exact ⟨he, h.2⟩
  · exact hm.imp_left fun h => by simp [h]
  · rw [timeBefore, timeAfter, hdiff, decide_eq_false_iff_not, not_lt]
    exact hforce h

theorem rounded_ite_iff {e : ℤ} (he : -hz < e) (he' : e ≤ hz) (hforce : forceUp = true → 0 ≤ e)
    (hm : ∃ m, hz ∣ m ∧ m < 2 ^ 64 + hz ∧ j + BitVec.ofInt 64 e + skew cpu = BitVec.ofNat 64 m) :
    Rounded hz jiffies j cpu forceUp
        (if j + BitVec.ofInt 64 e ≤ jiffies then j else j + BitVec.ofInt 64 e) ↔
      j + BitVec.ofInt 64 e ≤ jiffies ∨ 0 < (j - jiffies).toNat + e ∧ e < hz := by
  split_ifs with hle
  · have hself : Rounded hz jiffies j cpu forceUp (j + BitVec.ofInt 64 0) :=
      (rounded_iff hhz hlt hj hj' (by omega) (by omega) (fun _ => le_rfl) (.inl rfl)).mpr (by omega)
    exact iff_of_true (by simpa using hself) (.inl hle)
  · rw [rounded_iff hhz hlt hj hj' he he' hforce (.inr hm), or_iff_right hle]

/-- The rounded time is right if and only if a time that is rounded down does not go around below
zero, and one that is rounded up is no whole second already. -/
theorem round_jiffies_common_iff :
    Rounded hz jiffies j cpu forceUp (roundJiffiesCommon hz jiffies j cpu forceUp) ↔
      if (j + skew cpu).toNat % hz < hz / 4 ∧ forceUp = false then
        (j + skew cpu).toNat % hz ≤ jiffies.toNat + (j - jiffies).toNat
      else (j + skew cpu).toNat % hz ≠ 0 ∨ j + BitVec.ofNat 64 hz ≤ jiffies := by
  have hx := (j + skew cpu).isLt
  have hof : BitVec.ofNat 64 (j + skew cpu).toNat = j + skew cpu :=
    (ofNat_toNat ..).trans (setWidth_eq _)
  rw [roundJiffiesCommon]
  generalize (j + skew cpu).toNat = x at hx hof ⊢
  have hrem := mod_lt x hhz
  have hle := mod_le x hz
  have hdvd := dvd_sub_mod (n := hz) x
  generalize x % hz = rem at hrem hle hdvd ⊢
  -- rounding up adds a second to what is rounded down
  obtain ⟨up, hup⟩ : ∃ up, (if rem < hz / 4 ∧ forceUp = false then 0 else hz) = up := ⟨_, rfl⟩
  have hcases : up = 0 ∧ forceUp = false ∨ up = hz := by
    split_ifs at hup with hdown
    · exact .inl ⟨hup.symm, hdown.2⟩
    · exact .inr hup.symm
  have hsum : (if rem < hz / 4 ∧ forceUp = false then
      j + skew cpu - BitVec.ofNat 64 rem
      else j + skew cpu - BitVec.ofNat 64 rem + BitVec.ofNat 64 hz) =
      j + skew cpu - BitVec.ofNat 64 rem + BitVec.ofNat 64 up := by
    rw [← hup]
    split_ifs <;> simp
  have heq : j + skew cpu - BitVec.ofNat 64 rem + BitVec.ofNat 64 up -
      skew cpu = j + BitVec.ofInt 64 (up - rem) := by
    rw [Int.sub_eq_add_neg, ofInt_add, ofInt_neg, ofInt_natCast, ofInt_natCast]
    abel
  have hm : hz ∣ x - rem + up ∧ x - rem + up < 2 ^ 64 + hz ∧
      j + BitVec.ofInt 64 (up - rem) + skew cpu = BitVec.ofNat 64 (x - rem + up) := by
    refine ⟨?_, by omega, ?_⟩
    · rcases hcases with ⟨rfl, -⟩ | rfl
      · exact hdvd
      · exact hdvd.add (dvd_refl up)
    · rw [← heq, ofNat_add, ← ofNat_sub_ofNat_of_le x rem (by omega) hle, hof]
      abel
  rw [hsum, heq, rounded_ite_iff hhz hlt hj hj' (by omega) (by omega) ?_ ⟨_, hm⟩]
  · simp only [le_def, toNat_sub, toNat_add, toNat_ofInt, toNat_ofNat] at hj hj' ⊢
    split_ifs at hup ⊢ <;> omega
  · rcases hcases with ⟨-, hf⟩ | rfl
    · simp [hf]
    · omega

end

theorem round_jiffies_common_up :
    Rounded 100 10 130 0 false (roundJiffiesCommon 100 10 130 0 false) :=
  (round_jiffies_common_iff (by decide) (by decide) (by decide) (by decide)).mpr (by decide)

/-- With the skew of processor 34, the second before 1 is 2 ticks before 0. -/
theorem round_jiffies_common_past : timeAfter 1 0 = true ∧
    roundJiffiesCommon 100 0 1 34 false = -2 ∧ timeAfter (-2) 0 = false := by
  decide

end Seconds

section Slack

/-- The end of `apply_slack`. The shift is one of an `int`, by the low five bits as on x86. -/
def roundLimit (expires expiresLimit : Jiffies) : Jiffies :=
  let mask := expires ^^^ expiresLimit
  if mask = 0 then expires
  else
    let bit := mask.toNat.log2
    let mask := ((1 : BitVec 32) <<< (bit % 32) - 1).signExtend 64
    expiresLimit &&& ~~~mask

def applySlack (jiffies : Jiffies) (slack : BitVec 32) (expires : Jiffies) : Jiffies :=
  if 0 ≤ slack.toInt then roundLimit expires (expires + slack.signExtend 64)
  else
    let delta := (expires - jiffies).toInt
    if delta < 256 then expires else roundLimit expires (expires + BitVec.ofInt 64 (delta / 256))

variable {a b k p : ℕ}

/-- What two numbers have above the highest bit in which they differ. -/
theorem div_log2_xor (h : a < b) :
    a / 2 ^ (a ^^^ b).log2 % 2 = 0 ∧ b / 2 ^ (a ^^^ b).log2 = a / 2 ^ (a ^^^ b).log2 + 1 := by
  have hne : a ^^^ b ≠ 0 := fun hz => h.ne <| by
    simpa [hz] using xor_xor_cancel_left a b
  have hone : (a ^^^ b) / 2 ^ (a ^^^ b).log2 = 1 :=
    Nat.div_eq_of_lt_le (by simpa using log2_self_le hne)
      (by simpa [pow_succ'] using (a ^^^ b).lt_log2_self)
  have hle := Nat.div_le_div_right (c := 2 ^ (a ^^^ b).log2) h.le
  rw [xor_div_two_pow] at hone
  generalize 2 ^ (a ^^^ b).log2 = m at *
  have hb := xor_xor_cancel_left (a / m) (b / m)
  have hdiv := xor_div_two (a := a / m) (b := 1)
  have hmod := xor_mod_two_eq (m := a / m) (n := 1)
  rw [hone] at hb
  rw [Nat.xor_zero] at hdiv
  omega

/-- The number whose low `k` bits are cleared ends with the most zeros if and only if this clears
all bits below the highest one in which the two differ. -/
theorem best_iff (hk : k ≤ p) (ha : a / 2 ^ p % 2 = 0) (hb : b / 2 ^ p = a / 2 ^ p + 1) :
    (∀ v, a < v → v ≤ b → ∀ j, 2 ^ j ∣ v → 2 ^ j ∣ b / 2 ^ k * 2 ^ k) ↔ b % 2 ^ p < 2 ^ k := by
  have hp := Nat.two_pow_pos p
  have hlast := lt_div_mul_add (a := a) hp
  have hsplit := div_add_mod' b (2 ^ p)
  have hsplit' := div_add_mod' b (2 ^ k)
  rw [hb, Nat.succ_mul] at hsplit
  constructor
  · intro h
    have hdvd := h (b / 2 ^ p * 2 ^ p) (by rw [hb, Nat.succ_mul]; omega) (div_mul_le_self ..) p
      (dvd_mul_left ..)
    -- a multiple of `2 ^ p` that is at most `b` is at most the last one
    have hle := (Nat.div_mul_cancel hdvd).symm.le.trans
      (mul_le_mul_right _ (Nat.div_le_div_right (div_mul_le_self b (2 ^ k))))
    rw [hb, Nat.succ_mul] at hle
    omega
  · intro h v hav hvb j hj
    have hround : b / 2 ^ k * 2 ^ k = b / 2 ^ p * 2 ^ p := by
      have hmod := mod_mod_of_dvd b (pow_dvd_pow 2 hk)
      rw [mod_eq_of_lt h] at hmod
      rw [hb, Nat.succ_mul]
      omega
    rw [hround]
    rcases lt_or_ge p j with hpj | hjp
    · obtain ⟨c, rfl⟩ := (pow_dvd_pow 2 hpj).trans hj
      have h₁ := Nat.div_le_div_right (c := 2 ^ p) hav.le
      have h₂ := Nat.div_le_div_right (c := 2 ^ p) hvb
      rw [pow_succ, mul_assoc, Nat.mul_div_cancel_left _ hp] at h₁ h₂
      have heq : a / 2 ^ p = 2 * c := by omega
      have hle := div_mul_le_self a (2 ^ p)
      rw [heq, mul_comm, ← mul_assoc, ← Nat.pow_succ] at hle
      omega
    · exact (pow_dvd_pow 2 hjp).trans (dvd_mul_left ..)

theorem lt_round (hk : k ≤ p) (hb : b / 2 ^ p = a / 2 ^ p + 1) : a < b / 2 ^ k * 2 ^ k := by
  have hdvd : 2 ^ k ∣ b / 2 ^ p * 2 ^ p := (pow_dvd_pow 2 hk).trans (dvd_mul_left ..)
  calc a < a / 2 ^ p * 2 ^ p + 2 ^ p := lt_div_mul_add (Nat.two_pow_pos p)
    _ = b / 2 ^ p * 2 ^ p := by rw [hb, Nat.succ_mul]
    _ = b / 2 ^ p * 2 ^ p / 2 ^ k * 2 ^ k := (Nat.div_mul_cancel hdvd).symm
    _ ≤ b / 2 ^ k * 2 ^ k :=
      mul_le_mul_right _ (Nat.div_le_div_right (div_mul_le_self ..))

theorem and_not_mask (x : Jiffies) (hk : k < 32) :
    (x &&& ~~~((1 : BitVec 32) <<< k - 1).signExtend 64).toNat = x.toNat / 2 ^ k * 2 ^ k := by
  have hmask : ∀ k < 32, ~~~((1 : BitVec 32) <<< k - 1).signExtend 64 = allOnes 64 <<< k := by
    decide
  rw [hmask k hk, ← shiftLeft_ushiftRight, toNat_shiftLeft, toNat_ushiftRight,
    shiftRight_eq_div_pow, Nat.shiftLeft_eq]
  exact mod_eq_of_lt ((div_mul_le_self ..).trans_lt x.isLt)

/-- A number from `a` to `b` that ends with the most zero bits of those above `a`. -/
def BestIn (a b r : ℕ) : Prop :=
  a ≤ r ∧ r ≤ b ∧ (r ≠ a → ∀ v, a < v → v ≤ b → ∀ j, 2 ^ j ∣ v → 2 ^ j ∣ r)

/-- The time that is chosen has the most zero bits if and only if the mask clears all that the limit
has below the highest bit in which it differs. -/
theorem apply_slack_iff (jiffies : Jiffies) (slack : BitVec 32) (expires : Jiffies) {limit : ℕ}
    (hs : 0 ≤ slack.toInt) (hlimit : expires.toNat + slack.toNat = limit) (hwrap : limit < 2 ^ 64) :
    BestIn expires.toNat limit (applySlack jiffies slack expires).toNat ↔
      limit % 2 ^ (expires.toNat ^^^ limit).log2 < 2 ^ ((expires.toNat ^^^ limit).log2 % 32) := by
  subst hlimit
  have hadd : (expires + slack.signExtend 64).toNat = expires.toNat + slack.toNat := by
    have hmsb : slack.msb = false := by
      rw [msb_eq_toInt, decide_eq_false_iff_not, not_lt]
      exact hs
    rw [signExtend_eq_setWidth_of_msb_false hmsb, toNat_add, toNat_setWidth]
    omega
  rw [applySlack, if_pos hs, roundLimit, ← hadd]
  generalize expires + slack.signExtend 64 = limit at hadd
  rcases Nat.eq_zero_or_pos slack.toNat with hzero | hpos
  · obtain rfl : limit = expires := eq_of_toNat_eq (by omega)
    simp [BestIn, mod_one]
  have hlt : expires.toNat < limit.toNat := by omega
  have hne : expires ^^^ limit ≠ 0 := fun hz => hlt.ne (by
    rw [BitVec.xor_eq_zero_iff.mp hz])
  obtain ⟨ha, hb⟩ := div_log2_xor hlt
  have hk := mod_le (expires.toNat ^^^ limit.toNat).log2 32
  have hround := lt_round hk hb
  rw [if_neg hne, and_not_mask _ (mod_lt _ (by decide)), ← best_iff hk ha hb]
  exact ⟨fun h => h.2.2 hround.ne', fun h => ⟨hround.le, div_mul_le_self .., fun _ => h⟩⟩

theorem apply_slack_iff_small : BestIn 100 130 (applySlack 0 30 100).toNat :=
  (apply_slack_iff 0 30 100 (by decide) rfl (by decide)).mpr (by decide)

/-- The mask of an interval around 2^32 clears nothing. -/
theorem apply_slack_odd : applySlack 0 2 0xffffffff = 0x100000001 ∧
    2 ^ 32 ∣ 0x100000000 ∧ ¬ 2 ^ 32 ∣ (0x100000001 : Jiffies).toNat := by
  decide

end Slack

end LinuxKernel.Timer
