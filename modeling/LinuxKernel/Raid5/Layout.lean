import Mathlib.Tactic.SplitIfs
import LinuxKernel.Raid5.Model

/-! # The layouts of a stripe

For one stripe, a layout puts the chunks on the disks that have no parity, and the way back finds
the chunk of such a disk. There are a few forms for this: the chunks go around the parity, they
start behind it and wrap at the last disk, or the parity is at the ends.
-/

namespace LinuxKernel.Raid5

open Int

variable {level : Level} {algorithm : Algorithm} {n m a d i pd qd : ℤ}

section Forms

def Level.parity : Level → ℤ
  | .six => 2
  | _ => 1

def Level.minDisks : Level → ℤ
  | .six => 4
  | _ => 2

structure DataDisk (level : Level) (n pd qd i : ℤ) : Prop where
  nonneg : 0 ≤ i
  lt : i < n
  ne_pd : i ≠ pd
  ne_qd : level = .six → i ≠ qd

/-- The chunks of a stripe are on its data disks, and `g` is the way back from them. -/
structure Inverse (level : Level) (n pd qd : ℤ) (f g : ℤ → ℤ) : Prop where
  disk {d : ℤ} : 0 ≤ d → d < n - level.parity → DataDisk level n pd qd (f d) ∧ g (f d) = d
  chunk {i : ℤ} : DataDisk level n pd qd i → 0 ≤ g i ∧ g i < n - level.parity ∧ f (g i) = i

theorem emod_wrap (h₀ : 0 ≤ a) (h : a < 2 * n) : a % n = if a < n then a else a - n := by
  split_ifs with hlt
  · exact emod_eq_of_lt h₀ hlt
  · rw [← emod_eq_of_lt (show 0 ≤ a - n by omega) (show a - n < n by omega), sub_emod_right]

theorem Inverse.of_one {f g : ℤ → ℤ} (hlevel : level.parity = 1)
    (hdisk : ∀ d, 0 ≤ d → d < n - 1 → 0 ≤ f d ∧ f d < n ∧ f d ≠ pd ∧ g (f d) = d)
    (hchunk : ∀ i, 0 ≤ i → i < n → i ≠ pd → 0 ≤ g i ∧ g i < n - 1 ∧ f (g i) = i) :
    Inverse level n pd qd f g := by
  have hsix : level ≠ .six := by
    rintro rfl
    cases hlevel
  constructor
  · intro d h₀ hd
    rw [hlevel] at hd
    obtain ⟨h₁, h₂, h₃, h₄⟩ := hdisk d h₀ hd
    exact ⟨⟨h₁, h₂, h₃, fun h => absurd h hsix⟩, h₄⟩
  · intro i hi
    rw [hlevel]
    exact hchunk i hi.nonneg hi.lt hi.ne_pd

theorem Inverse.of_two {f g : ℤ → ℤ}
    (hdisk : ∀ d, 0 ≤ d → d < n - 2 → 0 ≤ f d ∧ f d < n ∧ f d ≠ pd ∧ f d ≠ qd ∧ g (f d) = d)
    (hchunk : ∀ i, 0 ≤ i → i < n → i ≠ pd → i ≠ qd → 0 ≤ g i ∧ g i < n - 2 ∧ f (g i) = i) :
    Inverse .six n pd qd f g := by
  constructor
  · intro d h₀ hd
    obtain ⟨h₁, h₂, h₃, h₄, h₅⟩ := hdisk d h₀ hd
    exact ⟨⟨h₁, h₂, h₃, fun _ => h₄⟩, h₅⟩
  · exact fun hi => hchunk _ hi.nonneg hi.lt hi.ne_pd (hi.ne_qd rfl)

end Forms

section One

/-- The chunks go around the parity. -/
theorem inverse_skip (h₀ : 0 ≤ pd) (hn : pd < n) : Inverse .five n pd qd
    (fun d => if d ≥ pd then d + 1 else d) (fun i => if i > pd then i - 1 else i) := by
  refine .of_one rfl (fun d hd hdn => ?_) fun i hi hin hne => ?_
  · split_ifs <;> omega
  · split_ifs <;> omega

/-- The chunks start behind the parity and wrap at the last disk. -/
theorem inverse_rotate (h₀ : 0 ≤ pd) (hn : pd < n) : Inverse .five n pd qd
    (fun d => (pd + 1 + d) % n) (fun i => (if i < pd then i + n else i) - (pd + 1)) := by
  refine .of_one rfl (fun d hd hdn => ?_) fun i hi hin hne => ?_
  · rw [emod_wrap (by omega) (by omega)]
    split_ifs <;> omega
  · rw [emod_wrap (by split_ifs <;> omega) (by split_ifs <;> omega)]
    split_ifs <;> omega

/-- The parity is on the first disk. -/
theorem inverse_first : Inverse .five n 0 qd (fun d => d + 1) (fun i => i - 1) :=
  .of_one rfl (fun d hd hdn => by omega) fun i hi hin hne => by omega

/-- The parity is on the last disk. -/
theorem inverse_last (hlevel : level.parity = 1) :
    Inverse level n (n - level.parity) qd (fun d => d) (fun i => i) :=
  .of_one hlevel (fun d hd hdn => by omega) fun i hi hin hne => by omega

end One

section Two

/-- Q D D D P -/
theorem inverse_wrapped (hpd : pd = n - 1) :
    Inverse .six n pd 0 (fun d => d + 1) (fun i => i - 1) :=
  .of_two (fun d hd hdn => by omega) fun i hi hin hp hq => by omega

/-- D D P Q D -/
theorem inverse_skip_two (h₀ : 0 ≤ pd) (hn : pd < n - 1) : Inverse .six n pd (pd + 1)
    (fun d => if d ≥ pd then d + 2 else d) (fun i => if i > pd then i - 2 else i) := by
  refine .of_two (fun d hd hdn => ?_) fun i hi hin hp hq => ?_
  · split_ifs <;> omega
  · split_ifs <;> omega

/-- The chunks start behind P and Q, or behind P with Q before it. The disk `e` is the one at which
Q wraps. -/
theorem inverse_rotate_two {q s e : ℤ} (h₀ : 0 ≤ pd) (hn : pd < n)
    (h : q = pd + 1 ∧ s = 2 ∧ e = n - 1 ∨ q = pd + n - 1 ∧ s = 1 ∧ e = 0) :
    Inverse .six n pd (q % n) (fun d => (pd + s + d) % n) fun i =>
      if pd = e then i - 1 else (if i < pd then i + n else i) - (pd + s) := by
  refine .of_two (fun d hd hdn => ?_) fun i hi hin hp hq => ?_
  · rw [emod_wrap (by omega) (by omega), emod_wrap (by omega) (by omega)]
    split_ifs <;> omega
  · rw [emod_wrap (by omega) (by omega)] at hq
    rw [emod_wrap (by split_ifs <;> omega) (by split_ifs <;> omega)]
    split_ifs <;> omega

/-- A layout of level 5, with Q on the last disk. -/
theorem Inverse.with_last {f g : ℤ → ℤ} (h : Inverse .five (n - 1) pd (-1) f g) :
    Inverse .six n pd (n - 1) f g := by
  refine .of_two (fun d h₀ hd => ?_) fun i h₀ hi hp hq => ?_
  · obtain ⟨hdisk, hback⟩ := h.disk h₀ (by show d < n - 1 - 1; omega)
    have := hdisk.lt
    exact ⟨hdisk.nonneg, by omega, hdisk.ne_pd, by omega, hback⟩
  · obtain ⟨h₁, h₂, h₃⟩ := h.chunk ⟨h₀, by omega, hp, nofun⟩
    have h₂ : g i < n - 1 - 1 := h₂
    exact ⟨h₁, by omega, h₃⟩

/-- P and Q are on the first disks. -/
theorem inverse_first_two : Inverse .six n 0 1 (fun d => d + 2) (fun i => i - 2) :=
  .of_two (fun d hd hdn => by omega) fun i hi hin hp hq => by omega

/-- P and Q are on the last disks. -/
theorem inverse_last_two : Inverse .six n (n - 2) (n - 2 + 1) (fun d => d) (fun i => i) :=
  .of_two (fun d hd hdn => by omega) fun i hi hin hp hq => by omega

end Two

section Layouts

/-- The algorithms that `raid5_compute_sector` accepts for a level. -/
def Accepts : Level → Algorithm → Prop
  | .five, a => a ∈ [.leftAsymmetric, .rightAsymmetric, .leftSymmetric, .rightSymmetric, .parity0,
      .parityN]
  | _, _ => True

instance : Decidable (Accepts level algorithm) := by
  cases level <;> unfold Accepts <;> infer_instance

/-- What a layout does with a stripe. -/
def Lays (level : Level) (algorithm : Algorithm) (n : ℤ) (stripe : ℕ) (pd qd : ℤ) (ddf : Bool)
    (f g : ℤ → ℤ) : Prop :=
  (∀ d, place level algorithm n (n - level.parity) stripe d = some ⟨f d, pd, qd, ddf⟩) ∧
    (∀ i, unplace level algorithm n (n - level.parity) pd i = some (g i)) ∧
    Inverse level n pd qd f g

theorem exists_lays_five {stripe : ℕ} (hn : 2 ≤ n) (h : Accepts .five algorithm) :
    ∃ pd qd ddf f g, Lays .five algorithm n stripe pd qd ddf f g := by
  have h₀ := emod_nonneg stripe (show n ≠ 0 by omega)
  have hlt := emod_lt_of_pos stripe (show 0 < n by omega)
  have hparity : Level.parity .five = 1 := rfl
  cases algorithm <;> simp [Accepts] at h <;> refine ⟨_, _, _, _, _, fun _ => rfl, fun _ => rfl, ?_⟩
  case leftAsymmetric => exact inverse_skip (by omega) (by omega)
  case rightAsymmetric => exact inverse_skip h₀ hlt
  case leftSymmetric => exact inverse_rotate (by omega) (by omega)
  case rightSymmetric => exact inverse_rotate h₀ hlt
  case parity0 => exact inverse_first
  case parityN => exact inverse_last rfl

/-- The four layouts whose chunks go around P and Q. -/
theorem exists_lays_restart {stripe : ℕ} {ddf : Bool} (h₀ : 0 ≤ pd) (hlt : pd < n)
    (hplace : ∀ d, place .six algorithm n (n - Level.parity .six) stripe d =
      if pd = n - 1 then some ⟨d + 1, pd, 0, ddf⟩
      else some ⟨if d ≥ pd then d + 2 else d, pd, pd + 1, ddf⟩)
    (hunplace : ∀ i, unplace .six algorithm n (n - Level.parity .six) pd i =
      some (if pd = n - 1 then i - 1 else if i > pd then i - 2 else i)) :
    ∃ pd qd ddf f g, Lays .six algorithm n stripe pd qd ddf f g := by
  by_cases hpd : pd = n - 1
  · exact ⟨pd, 0, ddf, _, _, fun d => (hplace d).trans (if_pos hpd),
      fun i => (hunplace i).trans (congrArg some (if_pos hpd)), inverse_wrapped hpd⟩
  · exact ⟨pd, pd + 1, ddf, _, _, fun d => (hplace d).trans (if_neg hpd),
      fun i => (hunplace i).trans (congrArg some (if_neg hpd)), inverse_skip_two h₀ (by omega)⟩

theorem exists_lays_six {stripe : ℕ} (hn : 4 ≤ n) :
    ∃ pd qd ddf f g, Lays .six algorithm n stripe pd qd ddf f g := by
  have hmod (m : ℤ) : 0 ≤ m % n ∧ m % n < n :=
    ⟨emod_nonneg m (by omega), emod_lt_of_pos m (by omega)⟩
  have hmod' (m : ℤ) : 0 ≤ m % (n - 1) ∧ m % (n - 1) < n - 1 :=
    ⟨emod_nonneg m (by omega), emod_lt_of_pos m (by omega)⟩
  have hparity : Level.parity .six = 2 := rfl
  have hwidth : n - Level.parity .six + 1 = n - 1 := by omega
  obtain ⟨h₀, hlt⟩ := hmod stripe
  obtain ⟨h₀', hlt'⟩ := hmod' stripe
  obtain ⟨h₁, hlt₁⟩ := hmod ((stripe + 1) % 2 ^ 64 : ℕ)
  cases algorithm with
  | leftAsymmetric =>
    exact exists_lays_restart (by omega) (by omega) (fun _ => rfl) fun _ => rfl
  | rightAsymmetric => exact exists_lays_restart h₀ hlt (fun _ => rfl) fun _ => rfl
  | rotatingZeroRestart => exact exists_lays_restart h₀ hlt (fun _ => rfl) fun _ => rfl
  | rotatingNRestart =>
    exact exists_lays_restart (by omega) (by omega) (fun _ => rfl) fun _ => rfl
  | leftSymmetric =>
    exact ⟨_, _, _, _, _, fun _ => rfl, fun _ => rfl,
      inverse_rotate_two (by omega) (by omega) (.inl ⟨rfl, rfl, rfl⟩)⟩
  | rightSymmetric =>
    exact ⟨_, _, _, _, _, fun _ => rfl, fun _ => rfl,
      inverse_rotate_two h₀ hlt (.inl ⟨rfl, rfl, rfl⟩)⟩
  | parity0 => exact ⟨_, _, _, _, _, fun _ => rfl, fun _ => rfl, inverse_first_two⟩
  | parityN => exact ⟨_, _, _, _, _, fun _ => rfl, fun _ => rfl, inverse_last_two⟩
  | rotatingNContinue =>
    exact ⟨_, _, _, _, _, fun _ => rfl, fun _ => rfl,
      inverse_rotate_two (by omega) (by omega) (.inr ⟨rfl, rfl, rfl⟩)⟩
  | leftAsymmetric6 =>
    exact ⟨_, _, _, _, _, fun _ => rfl, fun _ => rfl,
      (inverse_skip (by omega) (by omega)).with_last⟩
  | rightAsymmetric6 =>
    exact ⟨_, _, _, _, _, fun _ => rfl, fun _ => rfl, (inverse_skip h₀' hlt').with_last⟩
  | leftSymmetric6 =>
    refine ⟨_, _, _, _, _, fun _ => rfl, fun i => ?_,
      (inverse_rotate (by omega) (by omega)).with_last⟩
    rw [← hwidth]
    rfl
  | rightSymmetric6 =>
    refine ⟨_, _, _, _, _, fun _ => rfl, fun i => ?_, (inverse_rotate h₀' hlt').with_last⟩
    rw [← hwidth]
    rfl
  | parity06 => exact ⟨_, _, _, _, _, fun _ => rfl, fun _ => rfl, inverse_first.with_last⟩

theorem exists_lays {stripe : ℕ} (hn : level.minDisks ≤ n) (h : Accepts level algorithm) :
    ∃ pd qd ddf f g, Lays level algorithm n stripe pd qd ddf f g := by
  cases level with
  | four => exact ⟨_, _, _, _, _, fun _ => rfl, fun _ => rfl, inverse_last rfl⟩
  | five => exact exists_lays_five hn h
  | six => exact exists_lays_six hn

end Layouts

end LinuxKernel.Raid5
