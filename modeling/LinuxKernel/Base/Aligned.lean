import Mathlib.Data.Nat.Bitwise
import Mathlib.Tactic

/-! # Aligned blocks

A block of order `o` has `2 ^ o` numbers and starts at a multiple of that. Two blocks are
nested or disjoint. A set of disjoint blocks in which no two buddies occur is determined by
the numbers that it covers.
-/

namespace LinuxKernel.Aligned

open Nat Prod

variable {m p q o k x : ℕ} {B B' : Set (ℕ × ℕ)}

def block (p o : ℕ) : Finset ℕ := Finset.Ico p (p + 2 ^ o)

/-- The other half of the block of the next order. -/
def buddy (p o : ℕ) : ℕ := p ^^^ 2 ^ o

/-- The start of the block of the next order. -/
def parent (p o : ℕ) : ℕ := p &&& buddy p o

section Arithmetic

theorem mem_block : x ∈ block p o ↔ p ≤ x ∧ x < p + 2 ^ o := Finset.mem_Ico

theorem start_mem_block (p o : ℕ) : p ∈ block p o :=
  mem_block.mpr ⟨le_rfl, Nat.lt_add_of_pos_right (Nat.two_pow_pos o)⟩

theorem mem_block_iff (h : 2 ^ o ∣ p) : x ∈ block p o ↔ x / 2 ^ o = p / 2 ^ o := by
  obtain ⟨n, rfl⟩ := h
  have hpos := Nat.two_pow_pos o
  rw [mem_block, Nat.mul_div_cancel_left n hpos, Nat.div_eq_iff hpos, mul_comm n]
  omega

theorem div_pow_succ (x o : ℕ) : x / 2 ^ (o + 1) = x / 2 ^ o / 2 := by
  rw [pow_succ, Nat.div_div_eq_div_mul]

theorem div_pow_add (x o k : ℕ) : x / 2 ^ (o + k) = x / 2 ^ o / 2 ^ k := by
  rw [pow_add, Nat.div_div_eq_div_mul]

theorem buddy_div (p o : ℕ) : buddy p o / 2 ^ o = p / 2 ^ o ^^^ 1 := by
  rw [buddy, xor_div_two_pow, Nat.div_self (Nat.two_pow_pos o)]

theorem xor_one_div_two (n : ℕ) : (n ^^^ 1) / 2 = n / 2 := by
  have := xor_div_two_pow (a := n) (b := 1) (n := 1)
  simpa using this

theorem xor_one_ne (n : ℕ) : n ^^^ 1 ≠ n := by
  rcases even_or_odd n with h | h
  · rw [xor_one_of_even h]
    omega
  · rw [xor_one_of_odd h]
    have := h.pos
    omega

theorem eq_xor_one {n n' : ℕ} (h : n' / 2 = n / 2) (hne : n' ≠ n) : n' = n ^^^ 1 := by
  rcases even_or_odd n with he | ho
  · rw [xor_one_of_even he]
    obtain ⟨j, rfl⟩ := he
    omega
  · rw [xor_one_of_odd ho]
    obtain ⟨j, rfl⟩ := ho
    omega

theorem buddy_div_of_lt (h : o < m) : buddy p o / 2 ^ m = p / 2 ^ m := by
  rw [buddy, xor_div_two_pow, div_eq_of_lt (Nat.pow_lt_pow_right one_lt_two h), xor_zero]

theorem dvd_buddy (h : 2 ^ o ∣ p) : 2 ^ o ∣ buddy p o := by
  rw [dvd_iff_mod_eq_zero] at h ⊢
  rw [buddy, xor_mod_two_pow, h, mod_self]
  rfl

theorem buddy_ne (p o : ℕ) : buddy p o ≠ p := by
  intro h
  have hdiv := buddy_div p o
  rw [h] at hdiv
  exact xor_one_ne _ hdiv.symm

theorem buddy_buddy (p o : ℕ) : buddy (buddy p o) o = p := by
  rw [buddy, buddy, Nat.xor_assoc, Nat.xor_self, xor_zero]

theorem eq_of_div_eq (hp : 2 ^ o ∣ p) (hq : 2 ^ o ∣ q) (h : p / 2 ^ o = q / 2 ^ o) : p = q := by
  rw [← Nat.div_mul_cancel hp, ← Nat.div_mul_cancel hq, h]

theorem eq_buddy (hp : 2 ^ o ∣ p) (hq : 2 ^ o ∣ q) (h : q / 2 ^ (o + 1) = p / 2 ^ (o + 1))
    (hne : q ≠ p) : q = buddy p o := by
  apply eq_of_div_eq hq (dvd_buddy hp)
  rw [div_pow_succ, div_pow_succ] at h
  rw [buddy_div]
  exact eq_xor_one h fun heq => hne (eq_of_div_eq hq hp heq)

theorem buddy_add (h : 2 ^ (o + 1) ∣ p) : buddy (p + 2 ^ o) o = p := by
  have ho : 2 ^ o ∣ p := (pow_dvd_pow 2 (le_succ o)).trans h
  obtain ⟨n, rfl⟩ := h
  have hpos := Nat.two_pow_pos o
  refine (eq_buddy (ho.add dvd_rfl) ho ?_ (by omega)).symm
  have hsum : 2 ^ (o + 1) * n + 2 ^ o = 2 ^ o * (2 * n + 1) := by ring
  have hmul : 2 ^ (o + 1) * n = 2 ^ o * (2 * n) := by ring
  rw [div_pow_succ, div_pow_succ, hsum, hmul, Nat.mul_div_cancel_left _ hpos,
    Nat.mul_div_cancel_left _ hpos]
  omega

theorem parent_div_of_lt (h : o < m) : parent p o / 2 ^ m = p / 2 ^ m := by
  rw [parent, and_div_two_pow, buddy_div_of_lt h, Nat.and_self]

theorem parent_div (p o : ℕ) : parent p o / 2 ^ (o + 1) = p / 2 ^ (o + 1) :=
  parent_div_of_lt (lt_succ_self o)

theorem and_xor_one (n : ℕ) : n &&& (n ^^^ 1) = n / 2 * 2 := by
  have hdiv : (n &&& (n ^^^ 1)) / 2 = n / 2 := by
    have := and_div_two_pow (a := n) (b := n ^^^ 1) (n := 1)
    simpa [xor_one_div_two] using this
  have hand := @and_mod_two_eq_one n (n ^^^ 1)
  have hxor := @xor_mod_two_eq_one n 1
  omega

theorem dvd_parent (h : 2 ^ o ∣ p) : 2 ^ (o + 1) ∣ parent p o := by
  have hdvd : 2 ^ o ∣ parent p o := by
    rw [dvd_iff_mod_eq_zero] at h ⊢
    rw [parent, and_mod_two_pow, h, zero_and]
  have hdiv : parent p o / 2 ^ o = p / 2 ^ o / 2 * 2 := by
    rw [parent, and_div_two_pow, buddy_div, and_xor_one]
  rw [← Nat.div_mul_cancel hdvd, hdiv, mul_assoc, mul_comm 2]
  exact Dvd.intro_left _ rfl

theorem eq_parent_or (h : 2 ^ o ∣ p) : 2 ^ (o + 1) ∣ p ∧ p = parent p o ∨
    ¬ 2 ^ (o + 1) ∣ p ∧ p = parent p o + 2 ^ o := by
  have hpar := dvd_parent h
  by_cases hp : 2 ^ (o + 1) ∣ p
  · exact .inl ⟨hp, eq_of_div_eq hp hpar (parent_div p o).symm⟩
  · refine .inr ⟨hp, ?_⟩
    -- the upper half is the buddy of the lower one
    have ho := (pow_dvd_pow 2 (le_succ o)).trans hpar
    have hadd : buddy (parent p o) o = parent p o + 2 ^ o := by
      conv_lhs => rw [← buddy_add hpar, buddy_buddy]
    rw [← hadd]
    exact eq_buddy ho h (parent_div p o).symm fun heq => hp (heq ▸ hpar)

theorem mem_parent (h : 2 ^ o ∣ p) :
    x ∈ block (parent p o) (o + 1) ↔ x ∈ block p o ∨ x ∈ block (buddy p o) o := by
  rw [mem_block_iff (dvd_parent h), parent_div, mem_block_iff h, mem_block_iff (dvd_buddy h),
    buddy_div, div_pow_succ, div_pow_succ]
  constructor
  · intro hx
    by_cases heq : x / 2 ^ o = p / 2 ^ o
    · exact .inl heq
    · exact .inr (eq_xor_one hx heq)
  · rintro (hx | hx) <;> rw [hx]
    exact xor_one_div_two _

theorem block_subset_of_mem (hp : 2 ^ o ∣ p) (hq : 2 ^ k ∣ q) (hle : o ≤ k) (hx : x ∈ block p o)
    (hx' : x ∈ block q k) : block p o ⊆ block q k := by
  intro y hy
  rw [mem_block_iff hp] at hx hy
  rw [mem_block_iff hq] at hx' ⊢
  obtain ⟨j, rfl⟩ := Nat.exists_eq_add_of_le hle
  rw [div_pow_add] at hx' ⊢
  rw [hy, ← hx, hx']

theorem add_mod_sub_mod (h : q / 2 ^ m = p / 2 ^ m) : p + q % 2 ^ m - p % 2 ^ m = q := by
  have h₁ := div_add_mod p (2 ^ m)
  have h₂ := div_add_mod q (2 ^ m)
  rw [h] at h₂
  omega

variable (h : o < m)
include h

theorem buddy_mod : buddy p o % 2 ^ m = p % 2 ^ m ^^^ 2 ^ o := by
  rw [buddy, xor_mod_two_pow, mod_eq_of_lt (Nat.pow_lt_pow_right one_lt_two h)]

theorem buddy_index : p + (p % 2 ^ m ^^^ 2 ^ o) - p % 2 ^ m = buddy p o := by
  rw [← buddy_mod h]
  exact add_mod_sub_mod (buddy_div_of_lt h)

theorem parent_mod : parent p o % 2 ^ m = (p % 2 ^ m ^^^ 2 ^ o) &&& p % 2 ^ m := by
  rw [parent, and_mod_two_pow, buddy_mod h, Nat.and_comm]

theorem parent_index : p + parent p o % 2 ^ m - p % 2 ^ m = parent p o :=
  add_mod_sub_mod (parent_div_of_lt h)

end Arithmetic

/-- The numbers that a set of blocks covers. -/
def pages (B : Set (ℕ × ℕ)) : Set ℕ := {x | ∃ p o, (p, o) ∈ B ∧ x ∈ block p o}

/-- A set of disjoint aligned blocks of orders below `m`, with all buddies merged. -/
structure Canonical (m : ℕ) (B : Set (ℕ × ℕ)) : Prop where
  order_lt : ∀ {p o}, (p, o) ∈ B → o < m
  aligned : ∀ {p o}, (p, o) ∈ B → 2 ^ o ∣ p
  disjoint : ∀ {p o q k x}, (p, o) ∈ B → (q, k) ∈ B → x ∈ block p o → x ∈ block q k → p = q ∧ o = k
  coalesced : ∀ {p o}, (p, o) ∈ B → o + 1 < m → (buddy p o, o) ∉ B

section Pages

theorem mem_pages_insert : x ∈ pages (insert (p, o) B) ↔ x ∈ block p o ∨ x ∈ pages B := by
  constructor
  · rintro ⟨q, k, hmem, hx⟩
    rcases hmem with heq | hmem
    · cases heq
      exact .inl hx
    · exact .inr ⟨q, k, hmem, hx⟩
  · rintro (hx | ⟨q, k, hmem, hx⟩)
    · exact ⟨p, o, .inl rfl, hx⟩
    · exact ⟨q, k, .inr hmem, hx⟩

end Pages

namespace Canonical

theorem empty (m : ℕ) : Canonical m ∅ where
  order_lt h := h.elim
  aligned h := h.elim
  disjoint h := h.elim
  coalesced h := h.elim

section

variable (h : Canonical m B)
include h

theorem subset (hsub : B' ⊆ B) : Canonical m B' where
  order_lt hp := h.order_lt (hsub hp)
  aligned hp := h.aligned (hsub hp)
  disjoint hp hq := h.disjoint (hsub hp) (hsub hq)
  coalesced hp ho hb := h.coalesced (hsub hp) ho (hsub hb)

theorem mem_pages_diff (hp : (p, o) ∈ B) :
    x ∈ pages (B \ {(p, o)}) ↔ x ∈ pages B ∧ x ∉ block p o := by
  constructor
  · rintro ⟨q, k, ⟨hq, hne⟩, hx⟩
    refine ⟨⟨q, k, hq, hx⟩, fun hx' => hne ?_⟩
    obtain ⟨rfl, rfl⟩ := h.disjoint hq hp hx hx'
    rfl
  · rintro ⟨⟨q, k, hq, hx⟩, hx'⟩
    refine ⟨q, k, ⟨hq, fun heq => hx' ?_⟩, hx⟩
    cases heq
    exact hx

/-- A block outside the pages whose buddy is not in the set can be added. -/
theorem insert (ho : o < m) (hp : 2 ^ o ∣ p) (hout : ∀ x ∈ block p o, x ∉ pages B)
    (hb : o + 1 < m → (buddy p o, o) ∉ B) :
    Canonical m (insert (p, o) B) where
  order_lt := by
    rintro q k (heq | hq)
    · cases heq
      exact ho
    · exact h.order_lt hq
  aligned := by
    rintro q k (heq | hq)
    · cases heq
      exact hp
    · exact h.aligned hq
  disjoint := by
    rintro q k q' k' x (heq | hq) (heq' | hq') hx hx'
    · cases heq
      cases heq'
      exact ⟨rfl, rfl⟩
    · cases heq
      exact (hout x hx ⟨q', k', hq', hx'⟩).elim
    · cases heq'
      exact (hout x hx' ⟨q, k, hq, hx⟩).elim
    · exact h.disjoint hq hq' hx hx'
  coalesced := by
    rintro q k (heq | hq) hk (heq' | hq')
    · cases heq
      exact buddy_ne p o (congrArg fst heq')
    · cases heq
      exact hb hk hq'
    · have hbuddy : buddy q k = p := congrArg fst heq'
      have horder : k = o := congrArg snd heq'
      subst horder
      apply hb hk
      rwa [← hbuddy, buddy_buddy]
    · exact h.coalesced hq hk hq'

/-- No block of the set lies properly inside a block that the set covers. -/
theorem not_inside (hq : 2 ^ k ∣ q) (hk : k < m) (hcover : ∀ x ∈ block q k, x ∈ pages B) :
    ∀ {o p}, (p, o) ∈ B → o < k → ¬ block p o ⊆ block q k := by
  intro o
  -- the buddy is covered too, and only by smaller blocks
  induction o using Nat.strong_induction_on with
  | _ o ih =>
    intro p hp hlt hsub
    have hal := h.aligned hp
    have hparent : block (parent p o) (o + 1) ⊆ block q k :=
      block_subset_of_mem (dvd_parent hal) hq hlt
        ((mem_parent hal).mpr (.inl (start_mem_block p o))) (hsub (start_mem_block p o))
    have hb : ∀ x ∈ block (buddy p o) o, x ∈ block q k := fun x hx =>
      hparent ((mem_parent hal).mpr (.inr hx))
    obtain ⟨r, j, hr, hmem⟩ := hcover _ (hb _ (start_mem_block _ o))
    rcases lt_trichotomy j o with hj | rfl | hj
    · apply ih j hj hr (hj.trans hlt)
      intro x hx
      exact hb x (block_subset_of_mem (h.aligned hr) (dvd_buddy hal) hj.le hmem
        (start_mem_block _ o) hx)
    · apply h.coalesced hp (by omega)
      rw [mem_block_iff (h.aligned hr)] at hmem
      rwa [eq_of_div_eq (dvd_buddy hal) (h.aligned hr) hmem]
    · have hin : p ∈ block r j :=
        block_subset_of_mem (dvd_parent hal) (h.aligned hr) hj
          ((mem_parent hal).mpr (.inr (start_mem_block _ o))) hmem
          ((mem_parent hal).mpr (.inl (start_mem_block p o)))
      have := (h.disjoint hp hr (start_mem_block p o) hin).2
      omega

theorem subset_of_pages (h' : Canonical m B') (heq : pages B = pages B') : B ⊆ B' := by
  rintro ⟨p, o⟩ hp
  have hcover : ∀ x ∈ block p o, x ∈ pages B' := fun x hx => heq ▸ ⟨p, o, hp, hx⟩
  obtain ⟨q, k, hq, hmem⟩ := hcover p (start_mem_block p o)
  have hcover' : ∀ x ∈ block q k, x ∈ pages B := fun x hx => heq ▸ ⟨q, k, hq, hx⟩
  rcases lt_trichotomy k o with hk | rfl | hk
  · exact (h'.not_inside (h.aligned hp) (h.order_lt hp) hcover hq hk
      (block_subset_of_mem (h'.aligned hq) (h.aligned hp) hk.le hmem (start_mem_block p o))).elim
  · rw [mem_block_iff (h'.aligned hq)] at hmem
    rwa [eq_of_div_eq (h.aligned hp) (h'.aligned hq) hmem]
  · exact (h.not_inside (h'.aligned hq) (h'.order_lt hq) hcover' hp hk
      (block_subset_of_mem (h.aligned hp) (h'.aligned hq) hk.le (start_mem_block p o) hmem)).elim

/-- A canonical set of blocks is determined by its pages. -/
theorem eq_of_pages (h' : Canonical m B') (heq : pages B = pages B') : B = B' :=
  Set.Subset.antisymm (h.subset_of_pages h' heq) (h'.subset_of_pages h heq.symm)

end

end Canonical

end LinuxKernel.Aligned
