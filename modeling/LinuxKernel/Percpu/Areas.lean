import Mathlib.Data.Nat.ModEq
import Mathlib.Tactic.NormNum
import Mathlib.Tactic.Positivity
import LinuxKernel.Base.Word
import LinuxKernel.Percpu.Model

/-! # The areas that a map describes

The areas of a map lie one behind the other. What an allocation does to a map is said once, by
`Alloc`, in terms of the areas before and behind the one it takes.
-/

namespace LinuxKernel.Percpu

open List Nat

variable {m l l₁ l₂ : List ℤ} {e x : ℤ} {off o : ℕ}

section Entries

def total (m : List ℤ) : ℕ := (m.map Int.natAbs).sum

def freeBytes (m : List ℤ) : ℤ := (m.filter (0 < ·)).sum

def entries (off : ℕ) : List ℤ → List (ℕ × ℤ)
  | [] => []
  | e :: m => (off, e) :: entries (off + e.natAbs) m

abbrev Coalesced (m : List ℤ) : Prop := m.IsChain fun a b => ¬ (0 < a ∧ 0 < b)

@[simp] theorem total_nil : total [] = 0 := rfl

@[simp] theorem total_cons : total (e :: m) = e.natAbs + total m := by simp [total]

@[simp] theorem total_append : total (l₁ ++ l₂) = total l₁ + total l₂ := by simp [total]

@[simp] theorem freeBytes_nil : freeBytes [] = 0 := rfl

@[simp] theorem freeBytes_cons : freeBytes (e :: m) = max e 0 + freeBytes m := by
  rw [freeBytes, freeBytes, filter_cons]
  by_cases h : 0 < e
  · rw [if_pos (by simpa using h), sum_cons, max_eq_left h.le]
  · rw [if_neg (by simpa using h), max_eq_right (not_lt.mp h), zero_add]

@[simp] theorem freeBytes_append : freeBytes (l₁ ++ l₂) = freeBytes l₁ + freeBytes l₂ := by
  simp [freeBytes]

@[simp] theorem total_part (hx : 0 ≤ x) : (total (part x) : ℤ) = x := by
  unfold part
  split_ifs with h
  · simpa using Int.natAbs_of_nonneg hx
  · simpa using (not_not.mp h).symm

@[simp] theorem freeBytes_part (hx : 0 ≤ x) : freeBytes (part x) = x := by
  unfold part
  split_ifs with h
  · simpa using hx
  · simpa using (not_not.mp h).symm

theorem mem_part : e ∈ part x ↔ x ≠ 0 ∧ e = x := by
  unfold part
  split_ifs with h <;> simp [h]

theorem entries_append :
    entries off (l₁ ++ l₂) = entries off l₁ ++ entries (off + total l₁) l₂ := by
  induction l₁ generalizing off with
  | nil => simp [entries]
  | cons e l ih => rw [cons_append, entries, entries, ih, cons_append, total_cons, add_assoc]

section

variable (h : (o, e) ∈ entries off m)
include h

theorem mem_of_entries : e ∈ m := by
  induction m generalizing off with
  | nil => simp [entries] at h
  | cons x m ih =>
    rcases mem_cons.mp h with h | h
    · rw [(Prod.mk.inj h).2]
      exact mem_cons_self ..
    · exact mem_cons_of_mem _ (ih h)

theorem entries_bounds : off ≤ o ∧ o + e.natAbs ≤ off + total m := by
  induction m generalizing off with
  | nil => simp [entries] at h
  | cons x m ih =>
    rw [total_cons]
    rcases mem_cons.mp h with h | h
    · obtain ⟨rfl, rfl⟩ := Prod.mk.inj h
      omega
    · have := ih h
      omega

theorem entries_split : ∃ l₁ l₂, m = l₁ ++ e :: l₂ ∧ o = off + total l₁ := by
  induction m generalizing off with
  | nil => simp [entries] at h
  | cons x m ih =>
    rcases mem_cons.mp h with h | h
    · obtain ⟨rfl, rfl⟩ := Prod.mk.inj h
      exact ⟨[], m, rfl, rfl⟩
    · obtain ⟨l₁, l₂, rfl, rfl⟩ := ih h
      exact ⟨x :: l₁, l₂, rfl, by rw [total_cons, add_assoc]⟩

theorem entries_disjoint {o' : ℕ} {e' : ℤ} (h' : (o', e') ∈ entries off m) (hlt : o < o') :
    o + e.natAbs ≤ o' := by
  induction m generalizing off with
  | nil => simp [entries] at h
  | cons x m ih =>
    rcases mem_cons.mp h with h | h
    · obtain ⟨rfl, rfl⟩ := Prod.mk.inj h
      rcases mem_cons.mp h' with h' | h'
      · exact absurd hlt (by rw [(Prod.mk.inj h').1]; exact lt_irrefl _)
      · exact (entries_bounds h').1
    · rcases mem_cons.mp h' with h' | h'
      · have := (entries_bounds h).1
        have := (Prod.mk.inj h').1
        omega
      · exact ih h h'

end

end Entries

section Head

variable {k : ℕ}

theorem mask_eq (k : ℕ) : BitVec.ofNat 32 (2 ^ k) - 1 = BitVec.ofNat 32 (2 ^ k - 1) := by
  have hpos : 0 < 2 ^ k := Nat.two_pow_pos k
  apply BitVec.eq_of_toNat_eq
  have hone : (1 : BitVec 32).toNat = 1 := rfl
  rw [BitVec.toNat_sub, BitVec.toNat_ofNat, BitVec.toNat_ofNat]
  omega

theorem toNat_align (hk : k < 32) (x : BitVec 32) :
    (align x (BitVec.ofNat 32 (2 ^ k))).toNat =
      (x.toNat + (2 ^ k - 1)) % 2 ^ 32 / 2 ^ k * 2 ^ k := by
  have hlt : 2 ^ k < 2 ^ 32 := Nat.pow_lt_pow_right (by norm_num) hk
  rw [align, mask_eq, Word.and_not_mask, BitVec.toNat_shiftLeft, BitVec.toNat_ushiftRight,
    BitVec.toNat_add, BitVec.toNat_ofNat, shiftRight_eq_div_pow, shiftLeft_eq,
    mod_eq_of_lt (a := 2 ^ k - 1) (by omega)]
  exact mod_eq_of_lt ((div_mul_le_self _ _).trans_lt (mod_lt _ (by norm_num)))

/-- What is left out is what is missing to the next multiple, also when the sum wraps. -/
theorem headSize_eq (hk : k < 31) (hoff : off < 2 ^ 31) :
    headSize off (2 ^ k) = (2 ^ k - 1 - (off + (2 ^ k - 1)) % 2 ^ k : ℕ) := by
  have hlt : 2 ^ k ≤ 2 ^ 30 := Nat.pow_le_pow_right (by norm_num) (by omega)
  have hnat : (align (BitVec.ofNat 32 off) (BitVec.ofNat 32 (2 ^ k)) - BitVec.ofNat 32 off).toNat =
      2 ^ k - 1 - (off + (2 ^ k - 1)) % 2 ^ k := by
    have hx : (BitVec.ofNat 32 off).toNat = off := by
      exact mod_eq_of_lt (by omega)
    have hsum : (off + (2 ^ k - 1)) % 2 ^ 32 = off + (2 ^ k - 1) := mod_eq_of_lt (by omega)
    rw [BitVec.toNat_sub, toNat_align (by omega), hx, hsum]
    have := div_add_mod (off + (2 ^ k - 1)) (2 ^ k)
    rw [mul_comm] at this
    omega
  rw [headSize, BitVec.toInt_eq_toNat_of_lt (by omega), hnat]

theorem headSize_spec (off : ℕ) (hk : k < 31) (hoff : off < 2 ^ 31) :
    ∃ h : ℕ, headSize off (2 ^ k) = h ∧
      h < 2 ^ k ∧ 2 ^ k ∣ off + h ∧ ∀ o, off ≤ o → 2 ^ k ∣ o → off + h ≤ o := by
  have hpos : 0 < 2 ^ k := Nat.two_pow_pos k
  have hdiv := div_add_mod (off + (2 ^ k - 1)) (2 ^ k)
  have hsum : off + (2 ^ k - 1 - (off + (2 ^ k - 1)) % 2 ^ k) =
      2 ^ k * ((off + (2 ^ k - 1)) / 2 ^ k) := by omega
  refine ⟨_, headSize_eq hk hoff, by omega, ⟨_, hsum⟩, ?_⟩
  rintro o ho ⟨c, rfl⟩
  rw [hsum]
  have : (off + (2 ^ k - 1)) / 2 ^ k ≤ c := by
    rw [div_le_iff_le_mul_add_pred hpos]
    omega
  exact mul_le_mul_left _ this

end Head

end LinuxKernel.Percpu
