import Mathlib.Algebra.Order.Floor.Div
import LinuxKernel.Timer.Invariant

/-! # The search for the next timer

The search of `__next_timer_interrupt` goes through the vectors from below. In each
it visits the buckets in the order of their times, starting with the first one that
is not passed. When all timers that are not deferrable are near, it finds one that
no other precedes, up to `NEXT_TIMER_MAX_DELTA`.
-/

namespace LinuxKernel.Timer

open List Nat Bool Set

variable {c : Config} {b : Base} {i n : ℕ} {v : Vec} {s : Bool × Jiffies} {e : Jiffies}

section Slots

variable {m q : ℕ}

theorem slots_eq (m index : ℕ) :
    slots (2 ^ m - 1) index = (List.range (2 ^ m)).map fun k => (index + k) % 2 ^ m := by
  have hpos := Nat.two_pow_pos m
  rw [slots, Nat.sub_add_cancel hpos]
  simp only [and_two_pow_sub_one_eq_mod]

theorem mem_slots (h : q ≤ n) (h' : n < q + 2 ^ m) : n % 2 ^ m ∈ slots (2 ^ m - 1) (q % 2 ^ m) := by
  rw [slots_eq, mem_map]
  refine ⟨n - q, mem_range.mpr (by omega), ?_⟩
  rw [mod_add_mod, Nat.add_sub_cancel' h]

/-- The slots before the one at which a search stops are those of the earlier times. -/
theorem slots_split {pre post : List ℕ} {slot : ℕ}
    (h : slots (2 ^ m - 1) (q % 2 ^ m) = pre ++ slot :: post) :
    pre.length < 2 ^ m ∧ slot = (q + pre.length) % 2 ^ m ∧
      ∀ x, q ≤ x → x < q + pre.length → x % 2 ^ m ∈ pre := by
  rw [slots_eq] at h
  have hlen := congrArg length h
  simp only [length_map, length_range, length_append, length_cons] at hlen
  have hget : ∀ k (hk : k < 2 ^ m), (pre ++ slot :: post)[k]? = some ((q + k) % 2 ^ m) := by
    intro k hk
    rw [← h, getElem?_map, getElem?_range hk, Option.map_some, mod_add_mod]
  refine ⟨by omega, ?_, fun x hx hlt => ?_⟩
  · have := hget pre.length (by omega)
    rw [getElem?_append_right le_rfl, Nat.sub_self] at this
    exact Option.some.inj this
  · have := hget (x - q) (by omega)
    rw [getElem?_append_left (by omega), Nat.add_sub_cancel' hx] at this
    exact mem_of_getElem? this

end Slots

/-- The number of the first bucket of a vector that does not start before `t`. -/
def firstBucket (c : Config) (t : Jiffies) (n : ℕ) : ℕ := t.toNat ⌈/⌉ 2 ^ c.shift n

theorem firstBucket_le_iff {t : Jiffies} {q : ℕ} :
    firstBucket c t n ≤ q ↔ t.toNat ≤ q * 2 ^ c.shift n := by
  rw [firstBucket, ceilDiv_le_iff_le_mul (Nat.two_pow_pos _), mul_comm]

theorem le_firstBucket_mul (t : Jiffies) (n : ℕ) : t.toNat ≤ firstBucket c t n * 2 ^ c.shift n :=
  firstBucket_le_iff.mp le_rfl

theorem firstBucket_succ (t : Jiffies) (n : ℕ) :
    firstBucket c t (n + 1) = firstBucket c t n ⌈/⌉ 2 ^ c.tvnBits := by
  apply eq_of_forall_ge_iff
  intro q
  rw [firstBucket_le_iff, ceilDiv_le_iff_le_mul (Nat.two_pow_pos _), firstBucket_le_iff,
    c.shift_succ, pow_add]
  constructor <;> intro h <;> nlinarith

/-- The next multiple of a power of two, as `__next_timer_interrupt` computes it. -/
theorem ceilDiv_mul_eq (q m : ℕ) :
    q ⌈/⌉ 2 ^ m * 2 ^ m = if q % 2 ^ m = 0 then q else q + (2 ^ m - q % 2 ^ m) := by
  have hdiv := div_add_mod q (2 ^ m)
  rw [ceilDiv_eq_add_pred_div]
  split_ifs with h
  · have : (q + 2 ^ m - 1) / 2 ^ m = q / 2 ^ m := by
      rw [Nat.div_eq_iff (by omega)]
      constructor <;> rw [mul_comm] <;> omega
    rw [this, mul_comm]
    omega
  · have : (q + 2 ^ m - 1) / 2 ^ m = q / 2 ^ m + 1 := by
      rw [Nat.div_eq_iff (by omega), add_mul, mul_comm]
      constructor <;> omega
    rw [this, add_mul, mul_comm]
    omega

/-- Rounding up in wrapped arithmetic agrees with rounding up on the bits that matter. -/
theorem nextCascade_modEq {t : Jiffies} {q m w : ℕ} (hm : m ≤ w) (hw : w ≤ 64)
    (h : t.toNat ≡ q [MOD 2 ^ w]) :
    (nextCascade t (t.toNat % 2 ^ m) (2 ^ m) m).toNat ≡ q ⌈/⌉ 2 ^ m [MOD 2 ^ (w - m)] := by
  have hidx : t.toNat % 2 ^ m = q % 2 ^ m := h.of_dvd (pow_dvd_pow 2 hm)
  have hsplit : 2 ^ w = 2 ^ m * 2 ^ (w - m) := by rw [← pow_add, Nat.add_sub_cancel' hm]
  have hround : (if t.toNat % 2 ^ m ≠ 0 then t + BitVec.ofNat 64 (2 ^ m - t.toNat % 2 ^ m)
      else t).toNat ≡ 2 ^ m * (q ⌈/⌉ 2 ^ m) [MOD 2 ^ w] := by
    rw [mul_comm, ceilDiv_mul_eq, hidx]
    by_cases h0 : q % 2 ^ m = 0
    · rw [if_neg (not_not.mpr h0), if_pos h0]
      exact h
    · rw [if_pos h0, if_neg h0, BitVec.toNat_add, BitVec.toNat_ofNat, add_mod_mod]
      exact ((mod_modEq _ _).of_dvd (pow_dvd_pow 2 hw)).trans (h.add_right _)
  rw [nextCascade, BitVec.toNat_ushiftRight, shiftRight_eq_div_pow]
  have hdvd : 2 ^ m ∣ (if t.toNat % 2 ^ m ≠ 0 then
      t + BitVec.ofNat 64 (2 ^ m - t.toNat % 2 ^ m) else t).toNat :=
    (hround.of_dvd (pow_dvd_pow 2 hm)).dvd_iff dvd_rfl |>.mpr (Dvd.intro _ rfl)
  apply Nat.ModEq.mul_left_cancel' (Nat.two_pow_pos m).ne'
  rw [Nat.mul_div_cancel' hdvd, ← hsplit]
  exact hround

/-- A near timer is in the bucket with the number that its due time falls into. -/
theorem Placed.number {near : Prop} {d : ℕ} {now : Jiffies}
    (h : Placed c near d now e (.tvn n i)) (hnear : near) :
    let q := (now.toNat + ticksUntil now e) / 2 ^ c.shift n
    firstBucket c now n ≤ q ∧ q < firstBucket c now n + 2 ^ c.tvnBits ∧ i = q % 2 ^ c.tvnBits := by
  obtain ⟨-, -, m, -, hm, hd, hi, hlt⟩ := h
  obtain ⟨hlt, hlap⟩ := hlt hnear
  have hpos := Nat.two_pow_pos (c.shift n)
  have hq : (now.toNat + ticksUntil now e) / 2 ^ c.shift n = (now.toNat + m) / 2 ^ c.shift n := by
    obtain ⟨x, hx⟩ := hd
    rw [hx, Nat.mul_div_cancel_left x hpos, Nat.div_eq_iff hpos, mul_comm]
    omega
  have hmul := Nat.div_mul_cancel hd
  rw [hq]
  refine ⟨firstBucket_le_iff.mpr (by omega), ?_, hi⟩
  have hfirst := le_firstBucket_mul (c := c) now n
  rw [c.shift_succ, pow_add, mul_comm] at hlap
  by_contra hge
  have := mul_le_mul_right (2 ^ c.shift n) (not_lt.mp hge)
  rw [add_mul] at this
  omega

/-- A near timer of a higher vector is not due before the first bucket starts. -/
theorem Placed.above {near : Prop} {d : ℕ} {now : Jiffies} {k : ℕ}
    (h : Placed c near d now e (.tvn n i)) (hnear : near) (hk : k ≤ n) :
    firstBucket c now k * 2 ^ c.shift k ≤ now.toNat + ticksUntil now e := by
  obtain ⟨hq, -⟩ := h.number hnear
  have hshift : c.shift n = c.shift k + (n - k) * c.tvnBits := by
    unfold Config.shift
    rw [add_assoc, ← add_mul, Nat.add_sub_cancel' hk]
  rw [firstBucket_le_iff] at hq
  refine le_trans ?_ (div_mul_le_self _ (2 ^ c.shift n))
  rw [hshift, pow_add, mul_comm (2 ^ c.shift k), ← mul_assoc] at hq ⊢
  exact mul_le_mul_right _ (firstBucket_le_iff.mpr hq)

section Search

/-- The farthest a timer or the cached next expiry may lie in the past, so that no
wrapped comparison with a near timer goes wrong. -/
def maxPast (c : Config) : ℤ := 2 ^ 63 - 2 ^ c.shift 4

/-- The state of a base in which the search is sound: all timers that are not
deferrable are near, and none of them lies too far in the past. -/
structure Searchable (c : Config) (b : Base) : Prop where
  placed : AllPlaced c True 0 b
  past : ∀ v, ∀ i ∈ b.vec v, (b.timer i).deferrable = false →
    -maxPast c ≤ offset b.timerJiffies (b.timer i).expires

def left (b : Base) (e : Jiffies) : ℕ := ticksUntil b.timerJiffies e

structure Candidate (b : Base) (e : Jiffies) : Prop where
  origin : e = b.timerJiffies + BitVec.ofNat 64 nextTimerMaxDelta ∨
    ∃ v, ∃ i ∈ b.vec v, (b.timer i).deferrable = false ∧ e = (b.timer i).expires
  max : left b e ≤ nextTimerMaxDelta

structure Earliest (b : Base) (e : Jiffies) : Prop extends Candidate b e where
  least : ∀ v, ∀ i ∈ b.vec v, (b.timer i).deferrable = false → left b e ≤ left b (b.timer i).expires

theorem candidate_max (b : Base) :
    Candidate b (b.timerJiffies + BitVec.ofNat 64 nextTimerMaxDelta) := by
  refine ⟨.inl rfl, ?_⟩
  rw [left, ticksUntil_eq_offset, offset_add _ (by decide)]
  rfl

theorem shift_four_bounds (c : Config) : (0 : ℤ) < 2 ^ c.shift 4 ∧ (2 : ℤ) ^ c.shift 4 ≤ 2 ^ 32 :=
  ⟨by positivity, pow_le_pow_right₀ (by norm_num) c.shift_four_le⟩

theorem Searchable.lap (h : Searchable c b) (hi : i ∈ b.vec v)
    (hd : (b.timer i).deferrable = false) :
    offset b.timerJiffies (b.timer i).expires < 2 ^ c.shift 4 := by
  have hlt := (h.placed v i hi).lap ⟨trivial, hd⟩
  rw [ticksUntil_eq_offset] at hlt
  have hcast : ((2 ^ c.shift 4 : ℕ) : ℤ) = 2 ^ c.shift 4 := by push_cast; rfl
  omega

theorem Candidate.window (h : Candidate b e) (hs : Searchable c b) :
    -maxPast c ≤ offset b.timerJiffies e ∧ offset b.timerJiffies e < 2 ^ 62 := by
  obtain ⟨hpos, hle⟩ := shift_four_bounds c
  rcases h.origin with rfl | ⟨v, i, hi, hd, rfl⟩
  · rw [offset_add _ (by decide)]
    constructor
    · unfold maxPast
      omega
    · decide
  · exact ⟨hs.past v i hi hd, (hs.lap hi hd).trans_le (by omega)⟩

theorem Searchable.future {x : ℕ} (h : Searchable c b) (hi : i ∈ b.vec (.tvn n x)) :
    0 ≤ offset b.timerJiffies (b.timer i).expires := by
  obtain ⟨-, hf, -⟩ := h.placed _ i hi
  by_contra hneg
  have := sub_toInt_neg_iff.mp (not_le.mp hneg)
  omega

/-- Lowering `expires` to a timer that is before it. -/
theorem Candidate.lower {x : ℕ} (h : Candidate b e) (hs : Searchable c b)
    (hi : i ∈ b.vec (.tvn n x)) (hd : (b.timer i).deferrable = false) :
    let e' := if timeBefore (b.timer i).expires e then (b.timer i).expires else e
    Candidate b e' ∧ left b e' ≤ left b e ∧ left b e' ≤ left b (b.timer i).expires := by
  obtain ⟨hlo, hhi⟩ := h.window hs
  have hfut := hs.future hi
  have hlap := hs.lap hi hd
  have hmax := h.max
  unfold maxPast at hlo
  unfold left at *
  rw [ticksUntil_eq_offset] at hmax
  have hbefore : timeBefore (b.timer i).expires e = true ↔
      offset b.timerJiffies (b.timer i).expires < offset b.timerJiffies e :=
    timeBefore_iff b.timerJiffies (by omega) (by omega)
  split_ifs with hb
  · rw [hbefore] at hb
    refine ⟨⟨.inr ⟨_, i, hi, hd, rfl⟩, ?_⟩, ?_, le_rfl⟩ <;> unfold left at * <;>
      simp only [ticksUntil_eq_offset] <;> omega
  · rw [hbefore] at hb
    refine ⟨h, le_rfl, ?_⟩
    simp only [ticksUntil_eq_offset]
    omega

theorem searchBucket_spec {x : ℕ} (hs : Searchable c b) {l : List ℕ} {s : Bool × Jiffies}
    (hl : ∀ i ∈ l, i ∈ b.vec (.tvn n x)) (h : Candidate b s.2) :
    let s' := searchBucket b l s
    Candidate b s'.2 ∧ left b s'.2 ≤ left b s.2 ∧
      (∀ i ∈ l, (b.timer i).deferrable = false → left b s'.2 ≤ left b (b.timer i).expires) ∧
      (s'.1 = true ↔ s.1 = true ∨ ∃ i ∈ l, (b.timer i).deferrable = false) := by
  induction l generalizing s with
  | nil => exact ⟨h, le_rfl, by simp, by simp [searchBucket]⟩
  | cons i l ih =>
    obtain ⟨hi, hl⟩ := forall_mem_cons.mp hl
    by_cases hd : (b.timer i).deferrable = true
    · have heq : searchBucket b (i :: l) s = searchBucket b l s := by
        rw [searchBucket, if_pos hd]
      obtain ⟨h₁, h₂, h₃, h₄⟩ := ih hl h
      rw [heq]
      refine ⟨h₁, h₂, forall_mem_cons.mpr ⟨fun hf => ?_, h₃⟩, ?_⟩
      · rw [hd] at hf
        cases hf
      · simpa [hd] using h₄
    · rw [not_eq_true] at hd
      obtain ⟨g₁, g₂, g₃⟩ := h.lower hs hi hd
      have heq : searchBucket b (i :: l) s = searchBucket b l
          (true, if timeBefore (b.timer i).expires s.2 then (b.timer i).expires else s.2) := by
        rw [searchBucket, if_neg (by simp [hd])]
        split_ifs <;> rfl
      obtain ⟨h₁, h₂, h₃, h₄⟩ := ih (s := (true,
        if timeBefore (b.timer i).expires s.2 then (b.timer i).expires else s.2)) hl g₁
      rw [heq]
      refine ⟨h₁, h₂.trans g₂, forall_mem_cons.mpr ⟨fun _ => h₂.trans g₃, h₃⟩, ?_⟩
      simp [h₄, hd]

theorem searchSlots_spec (hs : Searchable c b) (sl : List ℕ) {s : Bool × Jiffies}
    (h : Candidate b s.2) :
    let r := searchSlots b n sl s
    Candidate b r.2.2 ∧ left b r.2.2 ≤ left b s.2 ∧
      (r.1 = none ∧ (s.1 = true → sl = []) ∧ (s.1 = false → r.2.1 = false) ∧
          (∀ x ∈ sl, ∀ i ∈ b.vec (.tvn n x), (b.timer i).deferrable = true) ∨
        ∃ pre slot post, sl = pre ++ slot :: post ∧ r.1 = some slot ∧ r.2.1 = true ∧
          (∀ x ∈ pre, ∀ i ∈ b.vec (.tvn n x), (b.timer i).deferrable = true) ∧
          (∀ i ∈ b.vec (.tvn n slot), (b.timer i).deferrable = false →
            left b r.2.2 ≤ left b (b.timer i).expires) ∧
          (s.1 = true → pre = []) ∧
          (s.1 = false → ∃ i ∈ b.vec (.tvn n slot), (b.timer i).deferrable = false)) := by
  induction sl generalizing s with
  | nil => exact ⟨h, le_rfl, .inl ⟨rfl, fun _ => rfl, id, by simp⟩⟩
  | cons x sl ih =>
    obtain ⟨h₁, h₂, h₃, h₄⟩ := searchBucket_spec hs (fun _ hi => hi) h
    rw [searchSlots]
    cases hf : (searchBucket b (b.vec (.tvn n x)) s).1 with
    | true =>
      refine ⟨h₁, h₂, .inr ⟨[], x, sl, rfl, rfl, hf, by simp, h₃, fun _ => rfl, fun hs1 => ?_⟩⟩
      rcases h₄.mp hf with h | h
      · rw [hs1] at h
        cases h
      · exact h
    | false =>
      have hnone : s.1 = false ∧ ∀ i ∈ b.vec (.tvn n x), (b.timer i).deferrable = true := by
        rw [hf] at h₄
        simpa using h₄
      obtain ⟨hs1, hx⟩ := hnone
      have hne : s.1 ≠ true := by simp [hs1]
      obtain ⟨g₁, g₂, g₃⟩ := ih h₁
      refine ⟨g₁, g₂.trans h₂, ?_⟩
      rcases g₃ with ⟨hr, -, hfalse, hall⟩ | ⟨pre, slot, post, rfl, hr, ht, hpre, hl, -, hex⟩
      · exact .inl ⟨hr, fun ht => absurd ht hne, fun _ => hfalse hf, forall_mem_cons.mpr ⟨hx, hall⟩⟩
      · exact .inr ⟨x :: pre, slot, post, rfl, hr, ht, forall_mem_cons.mpr ⟨hx, hpre⟩, hl,
          fun ht => absurd ht hne, fun _ => hex hf⟩

/-- The vectors that are searched before `tv2 + n`. -/
def Vec.below (n : ℕ) : Vec → Prop
  | .tv1 _ => True
  | .tvn m _ => m < n

/-- The state of the search before it comes to a vector: `found` and `expires`. A timer
that was found is due before the end of the first bucket of the vector. -/
structure Search (c : Config) (b : Base) (n : ℕ) (s : Bool × Jiffies) : Prop where
  candidate : Candidate b s.2
  least : ∀ v, v.below n → ∀ i ∈ b.vec v, (b.timer i).deferrable = false →
    left b s.2 ≤ left b (b.timer i).expires
  found : s.1 = true → b.timerJiffies.toNat + left b s.2 <
    (firstBucket c b.timerJiffies n + 1) * 2 ^ c.shift n
  unfound : s.1 = false → ∀ v, v.below n → ∀ i ∈ b.vec v, (b.timer i).deferrable = true

/-- A slot that is not before the index lies before the next cascade. -/
theorem no_wrap {q k m : ℕ} (hk : k < 2 ^ m) (h0 : q % 2 ^ m ≠ 0)
    (hle : q % 2 ^ m ≤ (q + k) % 2 ^ m) : q + k + 1 ≤ q ⌈/⌉ 2 ^ m * 2 ^ m := by
  rw [ceilDiv_mul_eq, if_neg h0]
  have hadd : (q + k) % 2 ^ m = (q % 2 ^ m + k) % 2 ^ m := (mod_add_mod q (2 ^ m) k).symm
  rcases lt_or_ge (q % 2 ^ m + k) (2 ^ m) with h | h
  · omega
  · rw [hadd, mod_eq_sub_mod h, mod_eq_of_lt (show q % 2 ^ m + k - 2 ^ m < 2 ^ m by omega)] at hle
    omega

/-- The number of the bucket that a time falls into in the vector `tv2 + n`. -/
def bucketNumber (c : Config) (b : Base) (n : ℕ) (e : Jiffies) : ℕ :=
  (b.timerJiffies.toNat + left b e) / 2 ^ c.shift n

theorem Searchable.number (h : Searchable c b) {x : ℕ} (hi : i ∈ b.vec (.tvn n x))
    (hd : (b.timer i).deferrable = false) :
    firstBucket c b.timerJiffies n ≤ bucketNumber c b n (b.timer i).expires ∧
      bucketNumber c b n (b.timer i).expires < firstBucket c b.timerJiffies n + 2 ^ c.tvnBits ∧
      x = bucketNumber c b n (b.timer i).expires % 2 ^ c.tvnBits :=
  (h.placed _ i hi).number ⟨trivial, hd⟩

theorem left_le_of_bucket {e' : Jiffies} {q : ℕ}
    (h : b.timerJiffies.toNat + left b e < (q + 1) * 2 ^ c.shift n)
    (h' : q < bucketNumber c b n e') : left b e ≤ left b e' := by
  have hmul := mul_le_mul_right (2 ^ c.shift n) (show q + 1 ≤ bucketNumber c b n e' from h')
  have hdiv : bucketNumber c b n e' * 2 ^ c.shift n ≤ b.timerJiffies.toNat + left b e' :=
    div_mul_le_self _ _
  omega

/-- Where the search of one vector stops: at a slot before which it met no timer, unless
one had been found before. -/
structure Stop (c : Config) (b : Base) (n : ℕ) (s : Bool × Jiffies) (k slot : ℕ)
    (s' : Bool × Jiffies) : Prop where
  lt : k < 2 ^ c.tvnBits
  number : slot = (firstBucket c b.timerJiffies n + k) % 2 ^ c.tvnBits
  before : ∀ x, ∀ i ∈ b.vec (.tvn n x), (b.timer i).deferrable = false →
    firstBucket c b.timerJiffies n + k ≤ bucketNumber c b n (b.timer i).expires
  least : ∀ i ∈ b.vec (.tvn n slot), (b.timer i).deferrable = false →
    left b s'.2 ≤ left b (b.timer i).expires
  first : s.1 = true → k = 0
  exists_found : s.1 = false → ∃ i ∈ b.vec (.tvn n slot), (b.timer i).deferrable = false
  candidate : Candidate b s'.2
  le : left b s'.2 ≤ left b s.2
  found : s'.1 = true

variable {k slot : ℕ} {s' : Bool × Jiffies}

section

variable (h : Stop c b n s k slot s') (hs : Searchable c b) (hsr : Search c b n s)
include h hs hsr

theorem Stop.bound :
    b.timerJiffies.toNat + left b s'.2 <
      (firstBucket c b.timerJiffies n + k + 1) * 2 ^ c.shift n := by
  cases hf : s.1 with
  | true =>
    have hfound := hsr.found hf
    have hle := h.le
    rw [h.first hf, add_zero]
    omega
  | false =>
    obtain ⟨i, hi, hd⟩ := h.exists_found hf
    obtain ⟨hlo, hhi, hx⟩ := hs.number hi hd
    have hle := h.least i hi hd
    have hk := h.lt
    -- the slot determines the number of the bucket, which is less than a lap ahead
    have hp : bucketNumber c b n (b.timer i).expires = firstBucket c b.timerJiffies n + k := by
      apply mod_injOn_Ico (firstBucket c b.timerJiffies n) (2 ^ c.tvnBits)
      · simp only [Finset.coe_Ico, mem_Ico]; omega
      · simp only [Finset.coe_Ico, mem_Ico]; omega
      · exact hx.symm.trans h.number
    have hlt := lt_div_mul_add (Nat.two_pow_pos (c.shift n))
      (a := b.timerJiffies.toNat + left b (b.timer i).expires)
    rw [← bucketNumber, hp] at hlt
    rw [add_mul _ 1]
    omega

theorem Stop.least_below (hv : v.below (n + 1)) (hi : i ∈ b.vec v)
    (hd : (b.timer i).deferrable = false) :
    left b s'.2 ≤ left b (b.timer i).expires := by
  rcases v with x | ⟨m, x⟩
  · exact h.le.trans (hsr.least (.tv1 x) trivial i hi hd)
  · rcases Nat.lt_succ_iff_lt_or_eq.mp hv with hm | rfl
    · exact h.le.trans (hsr.least (.tvn m x) hm i hi hd)
    · obtain ⟨-, -, hx⟩ := hs.number hi hd
      rcases (h.before x i hi hd).lt_or_eq with hp | hp
      · exact left_le_of_bucket (h.bound hs hsr) hp
      · rw [← hp, ← h.number] at hx
        exact h.least i (hx ▸ hi) hd

theorem Stop.search : Search c b (n + 1) s' := by
  refine ⟨h.candidate, fun v hv i hi hd => h.least_below hs hsr hv hi hd, fun _ => ?_,
    fun hf => ?_⟩
  · have hup : firstBucket c b.timerJiffies n ≤
        firstBucket c b.timerJiffies (n + 1) * 2 ^ c.tvnBits := by
      rw [firstBucket_succ, mul_comm, ← ceilDiv_le_iff_le_mul (Nat.two_pow_pos _)]
    have hk := h.lt
    rw [c.shift_succ, add_comm (c.shift n), pow_add, ← mul_assoc, add_mul]
    exact (h.bound hs hsr).trans_le (mul_le_mul_right _ (by omega))
  · rw [h.found] at hf
    cases hf

/-- What is found before the index wraps around is due before the next cascade. -/
theorem Stop.earliest (h0 : firstBucket c b.timerJiffies n % 2 ^ c.tvnBits ≠ 0)
    (hslot : firstBucket c b.timerJiffies n % 2 ^ c.tvnBits ≤ slot) : Earliest b s'.2 := by
  refine ⟨h.candidate, fun v i hi hd => ?_⟩
  by_cases hv : v.below (n + 1)
  · exact h.least_below hs hsr hv hi hd
  · rcases v with x | ⟨m, x⟩
    · exact absurd trivial hv
    · have habove := (hs.placed _ i hi).above ⟨trivial, hd⟩ (not_lt.mp hv)
      have hbound := h.bound hs hsr
      have hcarry := no_wrap h.lt h0 (h.number ▸ hslot)
      rw [firstBucket_succ, c.shift_succ, add_comm (c.shift n), pow_add, ← mul_assoc] at habove
      have hmul := mul_le_mul_right (2 ^ c.shift n) hcarry
      unfold left at *
      omega

end

theorem searchSlots_search (h : Search c b n s) (hs : Searchable c b) :
    let r := searchSlots b n (slots c.tvnMask (firstBucket c b.timerJiffies n % 2 ^ c.tvnBits)) s
    r.1 = none ∧ Search c b (n + 1) r.2 ∨ ∃ k slot, r.1 = some slot ∧ Stop c b n s k slot r.2 := by
  have hmask : c.tvnMask = 2 ^ c.tvnBits - 1 := by
    rw [Config.tvnMask, Config.tvnSize, one_shiftLeft]
  obtain ⟨hc, hle, hr⟩ := searchSlots_spec (n := n) hs
    (slots c.tvnMask (firstBucket c b.timerJiffies n % 2 ^ c.tvnBits)) h.candidate
  rw [hmask] at hc hle hr ⊢
  rcases hr with ⟨hnone, hnil, hfalse, hall⟩ |
    ⟨pre, slot, post, hsplit, hsome, hfound, hpre, hleast, hfirst, hex⟩
  · have hs1 : s.1 = false := by
      rw [← not_eq_true]
      intro ht
      have := congrArg length (hnil ht)
      rw [slots_eq] at this
      simp at this
    have hlevel : ∀ v : Vec, v.below (n + 1) → ∀ i ∈ b.vec v, (b.timer i).deferrable = true := by
      intro v hv i hi
      rcases v with x | ⟨m, x⟩
      · exact h.unfound hs1 (.tv1 x) trivial i hi
      · rcases Nat.lt_succ_iff_lt_or_eq.mp hv with hm | rfl
        · exact h.unfound hs1 (.tvn m x) hm i hi
        · by_contra hd
          rw [not_eq_true] at hd
          obtain ⟨hlo, hhi, hx⟩ := hs.number hi hd
          have := hall x (hx ▸ mem_slots hlo hhi) i hi
          rw [hd] at this
          cases this
    refine .inl ⟨hnone, hc, fun v hv i hi hd => ?_, fun ht => ?_, fun _ => hlevel⟩
    · rw [hlevel v hv i hi] at hd
      cases hd
    · rw [hfalse hs1] at ht
      cases ht
  · obtain ⟨hk, hslot, hearly⟩ := slots_split hsplit
    refine .inr ⟨pre.length, slot, hsome, hk, hslot, fun x i hi hd => ?_, hleast,
      fun ht => by rw [hfirst ht, length_nil], hex, hc, hle, hfound⟩
    obtain ⟨hlo, -, hx⟩ := hs.number hi hd
    by_contra hlt
    have := hpre _ (hearly _ hlo (not_le.mp hlt)) i (hx ▸ hi)
    rw [hd] at this
    cases this

section

variable (hs : Searchable c b)
include hs

/-- The search through the vectors from `tv2 + n` on, with the start of the vector in
the wrapped time. -/
theorem searchVectors_earliest {k : ℕ} (hk : k ≤ 4) {t : Jiffies}
    (ht : t.toNat ≡ firstBucket c b.timerJiffies (4 - k) [MOD 2 ^ (64 - c.shift (4 - k))])
    (h : Search c b (4 - k) s) : Earliest b (searchVectors c b k t s) := by
  induction k generalizing t s with
  | zero =>
    refine ⟨h.candidate, fun v i hi hd => h.least v ?_ i hi hd⟩
    rcases v with x | ⟨m, x⟩
    · trivial
    · exact (hs.placed _ i hi).1
  | succ k ih =>
    have hlt : 4 - (k + 1) < 4 := by omega
    have hsub : 4 - (k + 1) = 3 - k := by omega
    have hsucc : 3 - k + 1 = 4 - k := by omega
    rw [hsub] at ht h hlt
    have hsh := Config.shift_add_le (c := c) hlt
    have hidx : t.toNat &&& c.tvnMask = t.toNat % 2 ^ c.tvnBits := by
      rw [Config.tvnMask, Config.tvnSize, one_shiftLeft, and_two_pow_sub_one_eq_mod]
    have hmod : t.toNat % 2 ^ c.tvnBits = firstBucket c b.timerJiffies (3 - k) % 2 ^ c.tvnBits :=
      ht.of_dvd (pow_dvd_pow 2 (by omega))
    have hnext : (nextCascade t (t.toNat % 2 ^ c.tvnBits) (2 ^ c.tvnBits) c.tvnBits).toNat ≡
        firstBucket c b.timerJiffies (4 - k) [MOD 2 ^ (64 - c.shift (4 - k))] := by
      have := nextCascade_modEq (m := c.tvnBits) (by omega) (by omega) ht
      rwa [← firstBucket_succ, Nat.sub_sub, ← c.shift_succ, hsucc] at this
    rw [searchVectors, Config.tvnSize, one_shiftLeft, hidx]
    rw [hmod] at hnext ⊢
    rcases searchSlots_search h hs with ⟨hnone, hr⟩ | ⟨j, slot, hsome, hstop⟩
    · rcases hres : searchSlots b (3 - k)
        (slots c.tvnMask (firstBucket c b.timerJiffies (3 - k) % 2 ^ c.tvnBits)) s with ⟨o, s'⟩
      rw [hres] at hnone hr
      obtain rfl := hnone
      exact ih (by omega) hnext (hsucc ▸ hr)
    · rcases hres : searchSlots b (3 - k)
        (slots c.tvnMask (firstBucket c b.timerJiffies (3 - k) % 2 ^ c.tvnBits)) s with ⟨o, s'⟩
      rw [hres] at hsome hstop
      obtain rfl := hsome
      dsimp only
      split_ifs with hwrap
      · exact ih (by omega) hnext (hsucc ▸ hstop.search hs h)
      · obtain ⟨h0, hslot⟩ := not_or.mp hwrap
        exact hstop.earliest hs h h0 (not_lt.mp hslot)

/-- In `tv1` the slot of a timer says how many ticks it has left. -/
theorem root_slot {x : ℕ} (hi : i ∈ b.vec (.tv1 x)) :
    left b (b.timer i).expires < 2 ^ c.tvrBits ∧
      x = (b.timerJiffies.toNat + left b (b.timer i).expires) % 2 ^ c.tvrBits :=
  hs.placed _ i hi

theorem searchRoot_none (h : searchRoot c b (b.timerJiffies.toNat % 2 ^ c.tvrBits) = none) {x : ℕ}
    (hi : i ∈ b.vec (.tv1 x)) : (b.timer i).deferrable = true := by
  obtain ⟨hlt, hx⟩ := root_slot hs hi
  rw [searchRoot, Config.tvrMask, c.tvrSize_eq, findSome?_eq_none_iff] at h
  have hslot := h x (hx ▸ mem_slots (le_add_right _ _) (by omega))
  rw [Option.map_eq_none_iff, find?_eq_none] at hslot
  simpa using hslot i hi

theorem searchRoot_some {slot : ℕ}
    (h : searchRoot c b (b.timerJiffies.toNat % 2 ^ c.tvrBits) = some (slot, e)) :
    left b e < 2 ^ c.tvrBits ∧ slot = (b.timerJiffies.toNat + left b e) % 2 ^ c.tvrBits ∧
      (∃ i ∈ b.vec (.tv1 slot), (b.timer i).deferrable = false ∧ e = (b.timer i).expires) ∧
      ∀ x, ∀ j ∈ b.vec (.tv1 x), (b.timer j).deferrable = false →
        left b e ≤ left b (b.timer j).expires := by
  rw [searchRoot, Config.tvrMask, c.tvrSize_eq, findSome?_eq_some_iff] at h
  obtain ⟨pre, x, post, hsplit, hfind, hpre⟩ := h
  obtain ⟨i, hi, heq⟩ := Option.map_eq_some_iff.mp hfind
  obtain ⟨rfl, rfl⟩ := Prod.mk.inj heq
  have hmem := mem_of_find?_eq_some hi
  have hlive := find?_some hi
  rw [not_eq_true'] at hlive
  obtain ⟨hk, hslot, hearly⟩ := slots_split hsplit
  obtain ⟨hlt, hx⟩ := root_slot hs hmem
  have hlen : left b (b.timer i).expires = pre.length := by
    have := mod_injOn_Ico b.timerJiffies.toNat (2 ^ c.tvrBits)
      (by simp only [Finset.coe_Ico, mem_Ico]; omega)
      (by simp only [Finset.coe_Ico, mem_Ico]; omega) (hx.symm.trans hslot)
    omega
  refine ⟨hlt, hx, ⟨i, hmem, hlive, rfl⟩, fun y j hj hd => ?_⟩
  obtain ⟨hlt', hy⟩ := root_slot hs hj
  by_contra hgt
  have hnone := hpre y (hy ▸ hearly _ (le_add_right _ _) (by omega))
  rw [Option.map_eq_none_iff, find?_eq_none] at hnone
  have := hnone j hj
  simp [hd] at this

/-- No timer that is not deferrable is due before the one that is returned. -/
theorem nextTimerInterrupt_earliest : Earliest b (nextTimerInterrupt c b) := by
  have hbits := c.tvrBits_le
  have hfirst : firstBucket c b.timerJiffies 0 = b.timerJiffies.toNat ⌈/⌉ 2 ^ c.tvrBits := by
    rw [firstBucket, c.shift_zero]
  have hnext : (nextCascade b.timerJiffies (b.timerJiffies.toNat % 2 ^ c.tvrBits) (2 ^ c.tvrBits)
      c.tvrBits).toNat ≡ firstBucket c b.timerJiffies 0 [MOD 2 ^ (64 - c.shift 0)] := by
    rw [hfirst, c.shift_zero]
    exact nextCascade_modEq (by omega) le_rfl (Nat.ModEq.refl _)
  unfold nextTimerInterrupt
  dsimp only
  rw [c.rootIndex_eq, c.tvrSize_eq]
  rcases hroot : searchRoot c b (b.timerJiffies.toNat % 2 ^ c.tvrBits) with _ | ⟨slot, e⟩
  · have hdef : ∀ v : Vec, v.below 0 → ∀ i ∈ b.vec v, (b.timer i).deferrable = true := by
      rintro (x | ⟨m, x⟩) hv i hi
      · exact searchRoot_none hs hroot hi
      · exact absurd hv (not_lt_zero m)
    refine searchVectors_earliest hs le_rfl hnext
      ⟨candidate_max b, fun v hv i hi hd => ?_, by simp, fun _ => hdef⟩
    rw [hdef v hv i hi] at hd
    cases hd
  · obtain ⟨hlt, hslot, ⟨i, hi, hd, rfl⟩, hleast⟩ := searchRoot_some hs hroot
    have hcand : Candidate b (b.timer i).expires := by
      refine ⟨.inr ⟨_, i, hi, hd, rfl⟩, hlt.le.trans ?_⟩
      exact (Nat.pow_le_pow_right (by norm_num) hbits).trans (by decide)
    dsimp only
    split_ifs with hwrap
    · refine searchVectors_earliest hs le_rfl hnext ⟨hcand, ?_, fun _ => ?_, by simp⟩
      · rintro (x | ⟨m, x⟩) hv j hj hdj
        · exact hleast x j hj hdj
        · exact absurd hv (not_lt_zero m)
      · change b.timerJiffies.toNat + left b (b.timer i).expires < _
        have := le_firstBucket_mul (c := c) b.timerJiffies 0
        rw [add_mul, Nat.sub_self, c.shift_zero] at *
        omega
    · obtain ⟨h0, hle⟩ := not_or.mp hwrap
      refine ⟨hcand, ?_⟩
      rintro (x | ⟨m, x⟩) j hj hdj
      · exact hleast x j hj hdj
      · have habove := (hs.placed _ j hj).above ⟨trivial, hdj⟩ (zero_le m)
        have hcarry := no_wrap hlt h0 (hslot ▸ not_lt.mp hle)
        rw [hfirst, c.shift_zero] at habove
        unfold left at *
        omega

end

end Search

end LinuxKernel.Timer
