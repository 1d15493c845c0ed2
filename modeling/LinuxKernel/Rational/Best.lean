import Mathlib.Tactic

/-! # Best rational approximations

`rational_best_approximation` returns the last convergent of the continued fraction that is within
the limits. The fractions between two convergents can be closer, and those it does not look at: it
is right if the limits leave room for less than about half of the next quotient.
-/

namespace LinuxKernel.Rational

open Int Nat

section Source

structure State where
  n : ℕ
  d : ℕ
  n0 : ℕ
  d0 : ℕ
  n1 : ℕ
  d1 : ℕ
  deriving DecidableEq, Repr

def start (givenNumerator givenDenominator : ℕ) : State :=
  ⟨givenNumerator, givenDenominator, 0, 1, 1, 0⟩

/-- The rest of a round, for an `unsigned long` of 64 bits. -/
def State.next (s : State) : State :=
  let a := s.n / s.d
  ⟨s.d, s.n % s.d, s.n1, s.d1, (s.n0 + a * s.n1) % 2 ^ 64, (s.d0 + a * s.d1) % 2 ^ 64⟩

variable (maxNumerator maxDenominator : ℕ)

def State.exceeds (s : State) : Bool := s.n1 > maxNumerator || s.d1 > maxDenominator

def loop : ℕ → State → Option (ℕ × ℕ)
  | 0, _ => none
  | fuel + 1, s =>
    if s.exceeds maxNumerator maxDenominator then some (s.n0, s.d0)
    else if s.d = 0 then some (s.n1, s.d1)
    else loop fuel s.next

def rationalBestApproximation (fuel givenNumerator givenDenominator : ℕ) : Option (ℕ × ℕ) :=
  loop maxNumerator maxDenominator fuel (start givenNumerator givenDenominator)

end Source

/-- No fraction within the limits is strictly closer to the given one. -/
def Best (num den maxN maxD : ℕ) (r : ℕ × ℕ) : Prop :=
  0 < r.2 ∧ r.1 ≤ maxN ∧ r.2 ≤ maxD ∧ ∀ a b : ℕ, 0 < b → a ≤ maxN → b ≤ maxD →
    ¬ |(num : ℚ) / den - a / b| < |(num : ℚ) / den - r.1 / r.2|

section Quotients

variable (maxN maxD : ℕ)

/-- The quotients of `n / d` as a continued fraction. -/
def quotients : ℕ → ℕ → ℕ → List ℕ
  | 0, _, _ => []
  | k + 1, n, d => if d = 0 then [] else n / d :: quotients k d (n % d)

/-- The value of a continued fraction. -/
def value (l : List ℕ) : ℚ := l.foldr (fun a x => a + x⁻¹) 0

/-- Two numerators or denominators of consecutive convergents, after further quotients. -/
def continuants (l : List ℕ) (c : ℕ × ℕ) : ℕ × ℕ := l.foldl (fun c a => (c.2, c.1 + a * c.2)) c

def numerators (l : List ℕ) : ℕ × ℕ := continuants l (0, 1)

def denominators (l : List ℕ) : ℕ × ℕ := continuants l (1, 0)

def Within (l : List ℕ) : Prop :=
  (numerators l).2 ≤ maxN ∧ (denominators l).2 ≤ maxD

/-- The convergent of some quotients is within the limits. With a part `u` of the next quotient it
is so only if `u` is below half of what is left, up to the ratio of the last two denominators. -/
def HalfAtMost (l rest : List ℕ) : Prop :=
  l ≠ [] ∧ Within maxN maxD l ∧ (rest ≠ [] → ∀ u : ℕ, Within maxN maxD (l ++ [u]) →
    2 * u + ((denominators l).1 / (denominators l).2 : ℚ) ≤ value rest)

variable {maxN maxD} {k n d : ℕ} {l rest : List ℕ}

theorem numerators_append : numerators (l ++ rest) = continuants rest (numerators l) :=
  List.foldl_append

theorem denominators_append : denominators (l ++ rest) = continuants rest (denominators l) :=
  List.foldl_append

theorem le_continuants (hpos : ∀ a ∈ l, 0 < a) (c : ℕ × ℕ) : c.2 ≤ (continuants l c).2 := by
  induction l generalizing c with
  | nil => exact le_rfl
  | cons a l ih =>
    obtain ⟨ha, hl⟩ := List.forall_mem_cons.mp hpos
    exact (le_add_left _ _).trans' (Nat.le_mul_of_pos_left _ ha) |>.trans
      (ih hl (c.2, c.1 + a * c.2))

theorem Within.left (h : Within maxN maxD (l ++ rest)) (hpos : ∀ a ∈ rest, 0 < a) :
    Within maxN maxD l := by
  rw [Within, numerators_append, denominators_append] at h
  exact ⟨(le_continuants hpos _).trans h.1, (le_continuants hpos _).trans h.2⟩

theorem quotients_pos (h : d ≤ n) : ∀ a ∈ quotients k n d, 0 < a := by
  induction k generalizing n d with
  | zero => simp [quotients]
  | succ k ih =>
    rw [quotients]
    split_ifs with hd
    · simp
    · exact List.forall_mem_cons.mpr ⟨Nat.div_pos h (pos_of_ne_zero hd),
        ih (mod_lt n (pos_of_ne_zero hd)).le⟩

theorem quotients_ne_nil (hk : d ≤ k) : quotients k n d ≠ [] ↔ d ≠ 0 := by
  cases k with
  | zero => simp [quotients, Nat.le_zero.mp hk]
  | succ k =>
    rw [quotients]
    split_ifs <;> simp_all

theorem value_quotients (hk : d ≤ k) : value (quotients k n d) = n / d := by
  induction k generalizing n d with
  | zero => simp [quotients, value, Nat.le_zero.mp hk]
  | succ k ih =>
    rw [quotients]
    split_ifs with hd
    · simp [hd, value]
    · have hmod := mod_lt n (pos_of_ne_zero hd)
      have hd' : (d : ℚ) ≠ 0 := by exact_mod_cast hd
      have hn : (n : ℚ) = d * (n / d : ℕ) + (n % d : ℕ) := by exact_mod_cast (div_add_mod n d).symm
      change ((n / d : ℕ) : ℚ) + (value (quotients k d (n % d)))⁻¹ = n / d
      rw [ih (by omega), inv_div, eq_div_iff hd', add_mul, div_mul_cancel₀ _ hd', hn]
      ring

end Quotients

/-- No fraction between the last convergent and the next one is within the limits and closer. -/
def Settled (maxN maxD : ℕ) (s : State) : Prop :=
  0 < s.d1 ∧ ∀ u, s.n0 + u * s.n1 ≤ maxN → s.d0 + u * s.d1 ≤ maxD →
    2 * u * s.d * s.d1 + s.d * s.d0 ≤ s.n * s.d1

section Combination

variable {n d p q p' q' ε r s u v : ℤ}

section

variable (hdet : p * q' - p' * q = ε) (hε : |ε| = 1)
include hdet hε

theorem exists_combination (r s : ℤ) : ∃ u v, r = u * p + v * p' ∧ s = u * q + v * q' := by
  have hsq : ε * ε = 1 := by rw [← abs_mul_abs_self, hε, one_mul]
  refine ⟨ε * (r * q' - s * p'), ε * (p * s - q * r), ?_, ?_⟩
  · linear_combination (-r) * hsq - ε * r * hdet
  · linear_combination (-s) * hsq - ε * s * hdet

theorem error_combination :
    |(n * p + d * p') * (u * q + v * q') - (n * q + d * q') * (u * p + v * p')| =
      |n * v - d * u| := by
  have h : (n * p + d * p') * (u * q + v * q') - (n * q + d * q') * (u * p + v * p') =
      ε * (n * v - d * u) := by
    linear_combination (n * v - d * u) * hdet
  rw [h, abs_mul, hε, one_mul]

/-- The first neighbour misses by `d`, so that this is what a closer combination has to beat. -/
theorem closer_combination (hd : 0 ≤ d) :
    |(n * p + d * p') * (u * q + v * q') - (n * q + d * q') * (u * p + v * p')| * q <
        |(n * p + d * p') * q - (n * q + d * q') * p| * (u * q + v * q') ↔
      |n * v - d * u| * q < d * (u * q + v * q') := by
  have hfirst := error_combination (n := n) (d := d) (u := 1) (v := 0) hdet hε
  simp only [one_mul, zero_mul, add_zero, mul_one, mul_zero, zero_sub, abs_neg,
    abs_of_nonneg hd] at hfirst
  rw [error_combination hdet hε, hfirst]

end

/-- A closer combination contains the second neighbour. -/
theorem pos_of_closer (hq : 0 < q) (hden : 0 < n * q + d * q')
    (h : |n * v - d * u| * q < d * (u * q + v * q')) : 0 < v := by
  have hle : d * u - n * v ≤ |n * v - d * u| := by
    rw [abs_sub_comm]
    exact le_abs_self _
  have hlt := (mul_le_mul_of_nonneg_right hle hq.le).trans_lt h
  have hpos : 0 < v * (n * q + d * q') := by linarith
  exact (pos_iff_pos_of_mul_pos hpos).mpr hden

theorem closer_iff {num den a b p q : ℕ} (hden : 0 < den) (hb : 0 < b) (hq : 0 < q) :
    |(num : ℚ) / den - a / b| < |(num : ℚ) / den - p / q| ↔
      |(num * b - den * a : ℤ)| * q < |(num * q - den * p : ℤ)| * b := by
  have hden' : (0 : ℚ) < den := by exact_mod_cast hden
  have hb' : (0 : ℚ) < b := by exact_mod_cast hb
  have hq' : (0 : ℚ) < q := by exact_mod_cast hq
  rw [div_sub_div _ _ hden'.ne' hb'.ne', div_sub_div _ _ hden'.ne' hq'.ne', abs_div, abs_div,
    abs_of_pos (mul_pos hden' hb'), abs_of_pos (mul_pos hden' hq'),
    div_lt_div_iff₀ (mul_pos hden' hb') (mul_pos hden' hq'), mul_left_comm,
    mul_left_comm _ (den : ℚ),
    mul_lt_mul_iff_right₀ hden']
  exact_mod_cast Iff.rfl

end Combination

section Loop

variable {num den maxN maxD fuel : ℕ} {s : State} {l : List ℕ}

/-- What the loop keeps: the given fraction is a combination of the last two convergents, which are
neighbours and within the limits. -/
structure Inv (num den maxN maxD : ℕ) (s : State) : Prop where
  num : s.n * s.n1 + s.d * s.n0 = num
  den : s.n * s.d1 + s.d * s.d0 = den
  det : |(s.n1 * s.d0 - s.n0 * s.d1 : ℤ)| = 1
  last : s.n1 ≤ maxN ∧ s.d1 ≤ maxD
  before : s.n0 ≤ maxN ∧ s.d0 ≤ maxD
  lt : s.n < 2 ^ 32 ∧ s.d < 2 ^ 32
  order : s.d1 = 0 ∨ s.d ≤ s.n ∧ s.d * s.d0 ≤ s.n * s.d1

theorem Inv.start (hN : 0 < maxN) (hD : 0 < maxD) (hnum : num < 2 ^ 32)
    (hden : den < 2 ^ 32) :
    Inv num den maxN maxD (start num den) := by
  refine ⟨?_, ?_, ?_, ⟨hN, Nat.zero_le _⟩, ⟨Nat.zero_le _, hD⟩, ⟨hnum, hden⟩, .inl rfl⟩ <;>
    simp [Rational.start]

theorem exceeds_eq_false : s.exceeds maxN maxD = false ↔ s.n1 ≤ maxN ∧ s.d1 ≤ maxD := by
  simp [State.exceeds]

theorem Inv.closer_iff (h : Inv num den maxN maxD s) (hden : 0 < den) (hq : 0 < s.d1) {a b : ℕ}
    (hb : 0 < b) {u v : ℤ} (ha : (a : ℤ) = u * s.n1 + v * s.n0)
    (hb' : (b : ℤ) = u * s.d1 + v * s.d0) :
    |(num : ℚ) / den - a / b| < |(num : ℚ) / den - s.n1 / s.d1| ↔
      |s.n * v - s.d * u| * s.d1 < s.d * (u * s.d1 + v * s.d0) := by
  rw [Rational.closer_iff hden hb hq, ← h.num, ← h.den]
  push_cast
  rw [ha, hb', closer_combination rfl h.det (natCast_nonneg s.d)]

/-- The last convergent is best just when no fraction before the next one is closer. -/
theorem Inv.best_iff (h : Inv num den maxN maxD s) (hden : 0 < den) :
    Best num den maxN maxD (s.n1, s.d1) ↔ Settled maxN maxD s := by
  have hpos : (0 : ℤ) < s.n * s.d1 + s.d * s.d0 := by exact_mod_cast h.den ▸ hden
  constructor
  · rintro ⟨hq, -, -, hbest⟩
    refine ⟨hq, fun u hn hd => not_lt.mp fun hlt => ?_⟩
    have hb : 0 < s.d0 + u * s.d1 := by
      by_contra hzero
      have h₁ : s.d0 = 0 := by omega
      have h₂ : u * s.d1 = 0 := by omega
      rw [h₁, mul_assoc, mul_assoc, mul_left_comm u, h₂] at hlt
      omega
    refine hbest _ _ hb hn hd ((h.closer_iff hden hq hb (u := u) (v := 1) ?_ ?_).mpr ?_)
    · push_cast
      ring
    · push_cast
      ring
    · rcases abs_cases ((s.n : ℤ) * 1 - s.d * u) with ⟨habs, -⟩ | ⟨habs, -⟩ <;> rw [habs]
      · linarith
      · linarith
  · rintro ⟨hq, hsettled⟩
    refine ⟨hq, h.last.1, h.last.2, fun a b hb ha hb' hlt => ?_⟩
    obtain ⟨u, v, hu, hv⟩ := exists_combination rfl h.det a b
    rw [h.closer_iff hden hq hb hu hv] at hlt
    have hq' : (0 : ℤ) < s.d1 := by exact_mod_cast hq
    have hv₀ : 0 < v := pos_of_closer hq' hpos hlt
    have horder : (0 : ℤ) ≤ s.n * s.d1 - s.d * s.d0 := by
      have := (h.order.resolve_left hq.ne').2
      exact sub_nonneg.mpr (by exact_mod_cast this)
    -- the second neighbour need not be taken more than once
    have hone : (s.n * s.d1 - s.d * s.d0 : ℤ) < 2 * s.d * u * s.d1 := by
      have habs := mul_le_mul_of_nonneg_right (le_abs_self (s.n * v - s.d * u)) hq'.le
      have := mul_le_mul_of_nonneg_right (add_one_le_of_lt hv₀) horder
      linarith
    have hu₀ : 0 < u := by
      by_contra hle
      have : 2 * (s.d : ℤ) * u * s.d1 ≤ 0 :=
        mul_nonpos_of_nonpos_of_nonneg
          (mul_nonpos_of_nonneg_of_nonpos (by positivity) (not_lt.mp hle)) hq'.le
      linarith
    obtain ⟨w, rfl⟩ := eq_ofNat_of_zero_le hu₀.le
    have hw := hsettled w ?_ ?_
    · linarith
    · have := mul_le_mul_of_nonneg_right (add_one_le_of_lt hv₀) (natCast_nonneg s.n0)
      have hle : (s.n0 + w * s.n1 : ℤ) ≤ a := by linarith
      exact (by exact_mod_cast hle : s.n0 + w * s.n1 ≤ a).trans ha
    · have := mul_le_mul_of_nonneg_right (add_one_le_of_lt hv₀) (natCast_nonneg s.d0)
      have hle : (s.d0 + w * s.d1 : ℤ) ≤ b := by linarith
      exact (by exact_mod_cast hle : s.d0 + w * s.d1 ≤ b).trans hb'

/-- The state after the quotients `l`. -/
structure After (s : State) (l : List ℕ) : Prop where
  numerators : numerators l = (s.n0, s.n1)
  denominators : denominators l = (s.d0, s.d1)
  pos : l ≠ [] → 0 < s.d1

theorem After.within_concat (h : After s l) (u : ℕ) :
    Within maxN maxD (l ++ [u]) ↔ s.n0 + u * s.n1 ≤ maxN ∧ s.d0 + u * s.d1 ≤ maxD := by
  rw [Within, numerators_append, denominators_append, h.1, h.2]
  rfl

theorem After.settled_iff (h : After s l) (hinv : Inv num den maxN maxD s) {k : ℕ}
    (hk : s.d ≤ k) :
    Settled maxN maxD s ↔ HalfAtMost maxN maxD l (quotients k s.n s.d) := by
  have hwithin : Within maxN maxD l := by
    rw [Within, h.1, h.2]
    exact hinv.last
  have hl : l ≠ [] ↔ 0 < s.d1 := ⟨h.pos, fun hpos hnil => by
    subst hnil
    exact hpos.ne (Prod.mk.inj h.2).2⟩
  rw [Settled, HalfAtMost, hl, and_iff_right hwithin]
  refine and_congr_right fun hd1 => ?_
  rw [quotients_ne_nil hk]
  simp only [h.within_concat, h.2, value_quotients hk, and_imp]
  have hd1' : (0 : ℚ) < s.d1 := by exact_mod_cast hd1
  by_cases hd : s.d = 0
  · simp [hd]
  · have hd' : (0 : ℚ) < s.d := by exact_mod_cast pos_of_ne_zero hd
    rw [imp_iff_right hd]
    refine forall_congr' fun u => imp_congr_right fun _ => imp_congr_right fun _ => ?_
    rw [le_div_iff₀ hd', ← mul_le_mul_iff_left₀ hd1']
    have hsum : ((2 * u + s.d0 / s.d1) * s.d * s.d1 : ℚ) =
        (2 * u * s.d * s.d1 + s.d * s.d0 : ℕ) := by
      push_cast
      field_simp
    rw [hsum]
    exact_mod_cast Iff.rfl

variable (hN : maxN < 2 ^ 32) (hD : maxD < 2 ^ 32)
include hN hD

theorem Inv.next_eq (h : Inv num den maxN maxD s) : s.next =
    ⟨s.d, s.n % s.d, s.n1, s.d1, s.n0 + s.n / s.d * s.n1, s.d0 + s.n / s.d * s.d1⟩ := by
  have hfit : ∀ x y max, x ≤ max → y ≤ max → max < 2 ^ 32 → x + s.n / s.d * y < 2 ^ 64 := by
    intro x y max hx hy hmax
    have ha : s.n / s.d ≤ 2 ^ 32 - 1 := (div_le_self _ _).trans (le_pred_of_lt h.lt.1)
    have := mul_le_mul ha (show y ≤ 2 ^ 32 - 1 by omega)
    omega
  rw [State.next, mod_eq_of_lt (hfit _ _ _ h.before.1 h.last.1 hN),
    mod_eq_of_lt (hfit _ _ _ h.before.2 h.last.2 hD)]

theorem Inv.next (h : Inv num den maxN maxD s) (hd : s.d ≠ 0)
    (hlast : s.next.exceeds maxN maxD = false) : Inv num den maxN maxD s.next := by
  have hmod := mod_lt s.n (pos_of_ne_zero hd)
  have hsplit : ∀ x y, s.d * (x + s.n / s.d * y) + s.n % s.d * y = s.n * y + s.d * x := by
    intro x y
    calc s.d * (x + s.n / s.d * y) + s.n % s.d * y
        = (s.d * (s.n / s.d) + s.n % s.d) * y + s.d * x := by ring
      _ = s.n * y + s.d * x := by rw [div_add_mod]
  rw [exceeds_eq_false] at hlast
  rw [h.next_eq hN hD] at hlast ⊢
  refine ⟨(hsplit _ _).trans h.num, (hsplit _ _).trans h.den, ?_, hlast, h.last,
    ⟨h.lt.2, hmod.trans h.lt.2⟩, .inr ⟨hmod.le, ?_⟩⟩
  · rw [← h.det, abs_sub_comm]
    push_cast
    ring_nf
  · rcases h.order with hzero | ⟨hle, -⟩
    · simp [hzero]
    · have ha : 1 ≤ s.n / s.d := (one_le_div_iff (pos_of_ne_zero hd)).mpr hle
      calc s.n % s.d * s.d1 ≤ s.d * (s.n / s.d * s.d1) :=
            Nat.mul_le_mul hmod.le (Nat.le_mul_of_pos_left _ ha)
        _ ≤ s.d * (s.d0 + s.n / s.d * s.d1) := mul_le_mul_left _ (le_add_left _ _)

theorem After.next (h : After s l) (hinv : Inv num den maxN maxD s) (hd : s.d ≠ 0) :
    After s.next (l ++ [s.n / s.d]) := by
  rw [hinv.next_eq hN hD]
  refine ⟨by rw [numerators_append, h.1]; rfl, by rw [denominators_append, h.2]; rfl, fun _ => ?_⟩
  cases l with
  | nil =>
    obtain ⟨h0, h1⟩ := Prod.mk.inj h.2
    simp [← h0, ← h1]
  | cons a l =>
    have hd1 := h.pos (by simp)
    have ha := (one_le_div_iff (pos_of_ne_zero hd)).mpr (hinv.order.resolve_left hd1.ne').1
    exact Nat.add_pos_right _ (Nat.mul_pos ha hd1)

theorem After.within_next (h : After s l) (hinv : Inv num den maxN maxD s) :
    Within maxN maxD (l ++ [s.n / s.d]) ↔ s.next.exceeds maxN maxD = false := by
  rw [h.within_concat, exceeds_eq_false, hinv.next_eq hN hD]

/-- If the next convergent is within the limits then the last one is not the best one: the whole
next quotient is more than half of what is left. -/
theorem Inv.not_settled (h : Inv num den maxN maxD s) (hd : s.d ≠ 0)
    (hnext : s.next.exceeds maxN maxD = false) : ¬ Settled maxN maxD s := by
  rintro ⟨hd1, hall⟩
  rw [exceeds_eq_false, h.next_eq hN hD] at hnext
  have hle := (h.order.resolve_left hd1.ne').1
  have ha := (one_le_div_iff (pos_of_ne_zero hd)).mpr hle
  have hlt : s.n < 2 * (s.n / s.d) * s.d := by
    have hmod := mod_lt s.n (pos_of_ne_zero hd)
    have hsplit := div_add_mod s.n s.d
    have hd_le := Nat.le_mul_of_pos_right s.d ha
    rw [mul_assoc, mul_comm (s.n / s.d)]
    omega
  have := hall _ hnext.1 hnext.2
  exact absurd (Nat.mul_lt_mul_of_pos_right hlt hd1) (by omega)

/-- When the loop ends, no more quotients can be used. -/
theorem Inv.settled_iff {k : ℕ} (h : Inv num den maxN maxD s) (hafter : After s l) (hk : s.d ≤ k)
    (hstop : s.d ≠ 0 → s.next.exceeds maxN maxD = true) :
    Settled maxN maxD s ↔ ∃ l' rest,
      quotients k s.n s.d = l' ++ rest ∧ HalfAtMost maxN maxD (l ++ l') rest := by
  rw [hafter.settled_iff h hk]
  refine ⟨fun hhalf => ⟨[], _, rfl, by rwa [List.append_nil]⟩, ?_⟩
  rintro ⟨_ | ⟨a, l'⟩, rest, hq, hhalf⟩
  · rwa [hq, List.nil_append, ← l.append_nil]
  · have hd : s.d ≠ 0 := (quotients_ne_nil (n := s.n) hk).mp (by simp [hq])
    obtain ⟨k, rfl⟩ : ∃ m, k = m + 1 := ⟨k - 1, by omega⟩
    rw [quotients, if_neg hd] at hq
    obtain ⟨rfl, htail⟩ := List.cons.inj hq
    have hpos : ∀ a ∈ l' ++ rest, 0 < a := by
      rw [← List.append_eq, ← htail]
      exact quotients_pos (mod_lt s.n (pos_of_ne_zero hd)).le
    have hwithin : Within maxN maxD (l ++ [s.n / s.d]) :=
      Within.left (by simpa using hhalf.2.1) (List.forall_mem_append.mp hpos).1
    rw [hafter.within_next hN hD h, hstop hd] at hwithin
    cases hwithin

/-- The loop returns the last convergent within the limits. -/
theorem Inv.loop_spec (hden : 0 < den) {k : ℕ} (h : Inv num den maxN maxD s) (hafter : After s l)
    (hk : s.d ≤ k) (hfuel : k < fuel) :
    ∃ r, loop maxN maxD fuel s = some r ∧ r.1 ≤ maxN ∧ r.2 ≤ maxD ∧
      (Best num den maxN maxD r ↔ ∃ l' rest,
        quotients k s.n s.d = l' ++ rest ∧ HalfAtMost maxN maxD (l ++ l') rest) := by
  induction k generalizing s l fuel with
  | zero =>
    have hd : s.d = 0 := by omega
    obtain ⟨fuel, rfl⟩ : ∃ m, fuel = m + 1 := ⟨fuel - 1, by omega⟩
    rw [loop, exceeds_eq_false.mpr h.last, if_neg Bool.false_ne_true, if_pos hd]
    exact ⟨_, rfl, h.last.1, h.last.2,
      (h.best_iff hden).trans (h.settled_iff hN hD hafter hk (absurd hd))⟩
  | succ k ih =>
    obtain ⟨fuel, rfl⟩ : ∃ m, fuel = m + 2 := ⟨fuel - 2, by omega⟩
    have hbest := h.best_iff hden
    rw [loop, exceeds_eq_false.mpr h.last, if_neg Bool.false_ne_true]
    by_cases hd : s.d = 0
    · rw [if_pos hd]
      exact ⟨_, rfl, h.last.1, h.last.2, hbest.trans (h.settled_iff hN hD hafter hk (absurd hd))⟩
    rw [if_neg hd]
    cases hnext : s.next.exceeds maxN maxD with
    | true =>
      rw [loop, hnext, if_pos rfl]
      exact ⟨_, rfl, h.last.1, h.last.2,
        hbest.trans (h.settled_iff hN hD hafter hk fun _ => hnext)⟩
    | false =>
      have hmod := mod_lt s.n (pos_of_ne_zero hd)
      obtain ⟨r, hloop, hn, hd', hr⟩ := ih (h.next hN hD hd hnext)
        (hafter.next hN hD h hd) (show s.n % s.d ≤ k by omega) (show k < fuel + 1 by omega)
      refine ⟨r, hloop, hn, hd', hr.trans ?_⟩
      change (∃ l' rest, quotients k s.d (s.n % s.d) = _ ∧ _) ↔ _
      constructor
      · rintro ⟨l', rest, hq, hhalf⟩
        exact ⟨s.n / s.d :: l', rest, by rw [quotients, if_neg hd, hq, List.cons_append],
          by simpa using hhalf⟩
      · rintro ⟨_ | ⟨a, l'⟩, rest, hq, hhalf⟩
        · rw [List.nil_append] at hq
          rw [← hq, List.append_nil, ← hafter.settled_iff h hk] at hhalf
          exact absurd hhalf (h.not_settled hN hD hd hnext)
        · rw [quotients, if_neg hd] at hq
          obtain ⟨rfl, htail⟩ := List.cons.inj hq
          exact ⟨l', rest, htail, by simpa using hhalf⟩

end Loop

/-- The result is within the limits. It is a best approximation if and only if the limits leave room
for some convergent, but for at most half of the next quotient. -/
theorem rational_best_approximation_best {num den maxN maxD fuel : ℕ} (hnum : num < 2 ^ 32)
    (hden : 0 < den) (hden' : den < 2 ^ 32) (hN : 0 < maxN) (hN' : maxN < 2 ^ 32) (hD : 0 < maxD)
    (hD' : maxD < 2 ^ 32) (hfuel : den < fuel) :
    ∃ n d, rationalBestApproximation maxN maxD fuel num den = some (n, d) ∧ n ≤ maxN ∧ d ≤ maxD ∧
      (Best num den maxN maxD (n, d) ↔
        ∃ l rest, quotients den num den = l ++ rest ∧ HalfAtMost maxN maxD l rest) := by
  obtain ⟨r, hloop, hr⟩ := (Inv.start hN hD hnum hden').loop_spec hN' hD' hden
    (l := []) ⟨rfl, rfl, (absurd rfl ·)⟩ le_rfl hfuel
  exact ⟨r.1, r.2, hloop, hr⟩

/-- For 9/10 the next convergent has the denominator 10, but 7/8 is closer than 1/1. -/
theorem rational_best_approximation_misses :
    rationalBestApproximation 8 8 11 9 10 = some (1, 1) ∧ ¬ Best 9 10 8 8 (1, 1) :=
  ⟨by decide, fun h => h.2.2.2 7 8 (by decide) (by decide) (by decide) (by norm_num)⟩

/-- The quotients are 3, 7, 14, ..., and a denominator of 31 leaves room for 4 of the 14. -/
theorem rational_best_approximation_best_pi :
    rationalBestApproximation 255 31 10001 31415 10000 = some (22, 7) ∧
      Best 31415 10000 255 31 (22, 7) := by
  have hrun : rationalBestApproximation 255 31 10001 31415 10000 = some (22, 7) := by decide
  obtain ⟨n, d, h, -, -, hbest⟩ := rational_best_approximation_best
    (by decide : 31415 < 2 ^ 32) (by decide) (by decide) (by decide : 0 < 255)
    (by decide) (by decide : 0 < 31) (by decide) (by decide : 10000 < 10001)
  obtain ⟨rfl, rfl⟩ := Prod.mk.inj (Option.some.inj (hrun.symm.trans h))
  refine ⟨hrun, hbest.mpr ⟨[3, 7], [14, 1, 8, 2], by decide, by decide, ⟨by decide, by decide⟩,
    fun _ u hu => ?_⟩⟩
  have hu4 : u ≤ 4 := by
    have : 1 + u * 7 ≤ 31 := hu.2
    omega
  have hu4' : (u : ℚ) ≤ 4 := by exact_mod_cast hu4
  norm_num [value, denominators, continuants]
  linarith

end LinuxKernel.Rational
