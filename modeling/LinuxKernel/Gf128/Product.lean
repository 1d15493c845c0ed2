import LinuxKernel.Gf128.Shift

/-! # The products agree

The three products of each order are the product of the classes, by Horner's scheme over the bytes
of one factor.
-/

namespace LinuxKernel.Gf128

open Finset Function BinaryPoly AdjoinRoot
open List (range' range'_concat foldl_append foldl_cons foldl_nil)

variable {coeff : Be128 → ℕ → Bool} {power : ℕ → Be128} {mulX mulX8 : Be128 → Be128}

section Entries

variable {t : Entries} {v : ℕ}

/-- The inner loop of `sumEntries`. -/
theorem foldl_sum {j K : ℕ} (hK : K < j) (v : ℕ) :
    (range' 1 K).foldl (fun t k => update t (j + k) (be128Xor (t j) (t k))) t v =
      if j < v ∧ v ≤ j + K then be128Xor (t j) (t (v - j)) else t v := by
  induction K generalizing v with
  | zero => exact (if_neg (by omega)).symm
  | succ K ih =>
    rw [range'_concat, foldl_append, foldl_cons, foldl_nil, update_apply,
      ih (by omega), ih (by omega), ih (by omega)]
    by_cases hv : v = j + (1 + 1 * K)
    · have hsub : v - j = 1 + 1 * K := by omega
      rw [if_pos hv, if_neg (by omega), if_neg (by omega), if_pos (by omega), hsub]
    · rw [if_neg hv]
      exact if_congr (by omega) rfl rfl

/-- The sum of the entries for the bits of `v`. -/
noncomputable def sumOf (c : ℕ → Field) (v : ℕ) : Field :=
  ∑ m ∈ range 8, if v.testBit m then c m else 0

theorem sumOf_zero (c : ℕ → Field) : sumOf c 0 = 0 := by simp [sumOf]

theorem sumOf_two_pow (c : ℕ → Field) {n : ℕ} (hn : n < 8) : sumOf c (2 ^ n) = c n := by
  simp [sumOf, Nat.testBit_two_pow, hn]

theorem sumOf_add (c : ℕ → Field) {n k : ℕ} (hk : k < 2 ^ n) :
    sumOf c (2 ^ n + k) = sumOf c (2 ^ n) + sumOf c k := by
  rw [sumOf, sumOf, sumOf, ← sum_add_distrib]
  refine sum_congr rfl fun m _ => ?_
  have hbit := Nat.testBit_two_pow_mul_add 1 hk m
  rw [mul_one] at hbit
  rw [hbit, Nat.testBit_two_pow]
  by_cases hm : m < n
  · simp [hm, (show n ≠ m by omega)]
  · have hlow : k.testBit m = false :=
      Nat.testBit_lt_two_pow (hk.trans_le (Nat.pow_le_pow_right (by decide) (by omega)))
    have hone : Nat.testBit 1 (m - n) = decide (n = m) := by
      rw [Bool.eq_iff_iff, Nat.testBit_one_eq_true_iff_self_eq_zero, decide_eq_true_eq]
      omega
    simp [hm, hlow, hone]

section

variable (h : Order coeff power mulX mulX8)
include h

/-- A round of `sumEntries` completes the table for one bit more. -/
theorem value_round {c : ℕ → Field} {n : ℕ} (hlow : ∀ v < 2 ^ n, value coeff (t v) = sumOf c v)
    (hbit : value coeff (t (2 ^ n)) = sumOf c (2 ^ n)) (hv : v < 2 ^ (n + 1)) :
    value coeff ((range' 1 (2 ^ n - 1)).foldl
      (fun t k => update t (2 ^ n + k) (be128Xor (t (2 ^ n)) (t k))) t v) = sumOf c v := by
  rw [foldl_sum (by omega)]
  split
  · obtain ⟨k, rfl⟩ := Nat.exists_eq_add_of_le (show 2 ^ n ≤ v by omega)
    rw [Nat.add_sub_cancel_left, h.value_xor, hbit, hlow k (by omega), sumOf_add c (by omega)]
  · rcases lt_or_ge v (2 ^ n) with hlt | hge
    · exact hlow v hlt
    · obtain rfl : v = 2 ^ n := by omega
      exact hbit

theorem value_rounds (hzero : t 0 = .zero) {n : ℕ} (hn : n ≤ 7) :
    (∀ v < 2 ^ (n + 1), value coeff (((range' 1 n).map (2 ^ ·)).foldl
      (fun t j => (range' 1 (j - 1)).foldl
        (fun t k => update t (j + k) (be128Xor (t j) (t k))) t) t v) =
      sumOf (fun m => value coeff (t (2 ^ m))) v) ∧
    ∀ v ≥ 2 ^ (n + 1), ((range' 1 n).map (2 ^ ·)).foldl
      (fun t j => (range' 1 (j - 1)).foldl
        (fun t k => update t (j + k) (be128Xor (t j) (t k))) t) t v = t v := by
  induction n with
  | zero =>
    refine ⟨fun v hv => ?_, fun v _ => rfl⟩
    match v, hv with
    | 0, _ => rw [sumOf_zero]; exact (congrArg _ hzero).trans h.value_zero
    | 1, _ => exact (sumOf_two_pow (fun m => value coeff (t (2 ^ m))) (n := 0) (by decide)).symm
  | succ n ih =>
    obtain ⟨hlow, hhigh⟩ := ih (by omega)
    rw [range'_concat, List.map_append, foldl_append, List.map_singleton,
      foldl_cons, foldl_nil, one_mul, add_comm 1 n]
    refine ⟨fun v hv => value_round h hlow ?_ hv, fun v hv => ?_⟩
    · rw [hhigh _ le_rfl, sumOf_two_pow _ (by omega)]
    · have hpos := Nat.two_pow_pos (n + 1)
      rw [foldl_sum (by omega), if_neg (by omega), hhigh v (by omega)]

theorem value_sumEntries (hzero : t 0 = .zero) (hv : v < 256) :
    value coeff (sumEntries t v) = sumOf (fun m => value coeff (t (2 ^ m))) v :=
  (value_rounds h hzero le_rfl).1 v hv

end

theorem nextEntries_two_pow {m : ℕ} (hm : m < 8) :
    nextEntries mulX8 t (2 ^ m) = mulX8 (t (2 ^ m)) := by
  interval_cases m <;> rfl

theorem value_tables (h : Order coeff power mulX mulX8) (hzero : t 0 = .zero) (i : ℕ)
    (hv : v < 256) : value coeff (tables mulX8 t i v) =
      root modulus ^ (8 * i) * sumOf (fun m => value coeff (t (2 ^ m))) v := by
  induction i generalizing v with
  | zero => rw [mul_zero, pow_zero, one_mul]; exact value_sumEntries h hzero hv
  | succ i ih =>
    rw [tables, value_sumEntries h rfl hv, sumOf, sumOf, mul_sum]
    refine sum_congr rfl fun m hm => ?_
    have hm := mem_range.mp hm
    have hlt : 2 ^ m < 256 := Nat.pow_lt_pow_right (by decide) hm
    rw [nextEntries_two_pow hm, h.value_mulX8, ih hlt, sumOf_two_pow _ hm, mul_ite, mul_zero,
      ← mul_assoc, ← pow_add, Nat.mul_succ, add_comm 8]

end Entries

section Digits

variable {low : Be128 → ℕ → BitVec 8} {select : BitVec 8 → ℕ → Bool} {m : ℕ}

noncomputable def digit (select : BitVec 8 → ℕ → Bool) (ch : BitVec 8) : Field :=
  ∑ m ∈ range 8, if select ch m then root modulus ^ m else 0

/-- The bytes of a block from the lowest coefficients, with the bits of a byte. -/
structure Digits (coeff : Be128 → ℕ → Bool) (low : Be128 → ℕ → BitVec 8)
    (select : BitVec 8 → ℕ → Bool) : Prop where
  coeff_eq : ∀ x, ∀ k < 16, ∀ m < 8, coeff x (8 * k + m) = select (low x k) m

theorem digitsLle : Digits coeffLle Be128.byte BitVec.getMsbD where
  coeff_eq x k hk m hm := by
    rw [coeffLle, Nat.mul_add_div (by decide), Nat.mul_add_mod, Nat.div_eq_of_lt hm,
      Nat.mod_eq_of_lt hm, add_zero]

theorem digitsBbe : Digits coeffBbe (fun x k => x.byte (15 - k)) BitVec.getLsbD where
  coeff_eq x k hk m hm := by
    rw [coeffBbe, Nat.mul_add_div (by decide), Nat.mul_add_mod, Nat.div_eq_of_lt hm,
      Nat.mod_eq_of_lt hm, add_zero]

theorem Digits.value_eq (hd : Digits coeff low select) (x : Be128) :
    value coeff x = ∑ k ∈ range 16, root modulus ^ (8 * k) * digit select (low x k) := by
  rw [value, show 128 = 8 * 16 from rfl, mk_poly_mul]
  refine sum_congr rfl fun k hk => congrArg _ (sum_congr rfl fun m hm => ?_)
  rw [hd.coeff_eq x k (mem_range.mp hk) m (mem_range.mp hm)]

theorem sum_getMsbD (ch : BitVec 8) (f : ℕ → Field) :
    (∑ m ∈ range 8, if ch.getMsbD m then f m else 0) =
      ∑ m ∈ range 8, if ch.getLsbD m then f (7 - m) else 0 := by
  rw [← sum_range_reflect]
  refine sum_congr rfl fun m hm => ?_
  have hm := mem_range.mp hm
  rw [BitVec.getMsbD_eq_getLsbD, decide_eq_true (by omega), Bool.true_and,
    show 8 - 1 - (8 - 1 - m) = m by omega]

theorem sumOf_eq (ch : BitVec 8) (c : ℕ → Field) :
    sumOf c ch.toNat = ∑ m ∈ range 8, if ch.getLsbD m then c m else 0 := rfl

theorem value_iterate (h : Order coeff power mulX mulX8) (n : ℕ) (x : Be128) :
    value coeff (mulX^[n] x) = root modulus ^ n * value coeff x := by
  induction n with
  | zero => rw [iterate_zero_apply, pow_zero, one_mul]
  | succ n ih => rw [iterate_succ_apply', h.value_mulX, ih, ← mul_assoc, pow_succ']

theorem powers_eq (hm : m < 8) (r : Be128) : powers mulX r m = mulX^[m] r := by
  interval_cases m <;> rfl

theorem bitEntriesLle_two_pow (hm : m < 8) (g : Be128) :
    bitEntriesLle g (2 ^ m) = gf128mulXLle^[7 - m] g := by
  interval_cases m <;> rfl

theorem bitEntriesBbe_two_pow (hm : m < 8) (g : Be128) :
    bitEntriesBbe g (2 ^ m) = gf128mulXBbe^[m] g := by
  interval_cases m <;> rfl

theorem value_addSelected (h : Order coeff power mulX mulX8) (q : ℕ → Be128) (ch : BitVec 8)
    (r : Be128) : value coeff (addSelected q ch r) =
      value coeff r + ∑ m ∈ range 8, if ch.getMsbD m then value coeff (q m) else 0 := by
  have hfold : ∀ n, value coeff ((List.range n).foldl
      (fun r m => if ch.getMsbD m then be128Xor r (q m) else r) r) =
        value coeff r + ∑ m ∈ range n, if ch.getMsbD m then value coeff (q m) else 0 := by
    intro n
    induction n with
    | zero => simp
    | succ n ih =>
      rw [List.range_succ, foldl_append, foldl_cons, foldl_nil, sum_range_succ, ← add_assoc, ← ih]
      split
      · rw [h.value_xor]
      · rw [add_zero]
  exact hfold 8

end Digits

section Loops

variable {low : Be128 → ℕ → BitVec 8} {select : BitVec 8 → ℕ → Bool} {ch : ℕ → BitVec 8}
  {x g : Be128}

/-- Horner's scheme from the byte of the highest coefficients. -/
theorem value_horner (hd : Digits coeff low select)
    (hch : ∀ i < 16, ch (15 - i) = low x i) {f : Be128 → ℕ → Be128} {r : Be128}
    (hr : value coeff r = digit select (ch 0) * value coeff g)
    (hf : ∀ r i, value coeff (f r i) =
      root modulus ^ 8 * value coeff r + digit select (ch i) * value coeff g) :
    value coeff ((range' 1 15).foldl f r) = value coeff x * value coeff g := by
  have hhom : value coeff ((range' 1 15).foldl f r) = (range' 1 15).foldl
      (fun y i => root modulus ^ 8 * y + digit select (ch i) * value coeff g) (value coeff r) :=
    (List.foldl_hom (value coeff) fun r i => (hf r i).symm).symm
  rw [hhom, hr, foldl_horner, hd.value_eq x,
    sum_mul]
  refine sum_congr rfl fun i hi => ?_
  rw [hch i (mem_range.mp hi), ← pow_mul, mul_assoc]

section

variable (h : Order coeff power mulX mulX8) (hd : Digits coeff low select)
include h hd

theorem value_mulBytes (hch : ∀ i < 16, ch (15 - i) = low x i) {q : ℕ → Be128}
    (hq : ∀ ch : BitVec 8, (∑ m ∈ range 8, if ch.getMsbD m then value coeff (q m) else 0) =
      digit select ch * value coeff g) :
    value coeff (mulBytes mulX8 q ch) = value coeff x * value coeff g := by
  refine value_horner hd hch ?_ fun r i => ?_
  · rw [value_addSelected h, hq, h.value_zero, zero_add]
  · rw [value_addSelected h, hq, h.value_mulX8]

theorem value_mul4k (hch : ∀ i < 16, ch (15 - i) = low x i) {t : Entries}
    (ht : ∀ ch : BitVec 8, value coeff (t ch.toNat) = digit select ch * value coeff g) :
    value coeff (mul4k mulX8 t ch) = value coeff x * value coeff g := by
  refine value_horner hd hch (ht _) fun r i => ?_
  rw [h.value_xor, h.value_mulX8, ht]

theorem value_mul64k {t : ℕ → Entries}
    (ht : ∀ i, ∀ ch : BitVec 8, value coeff (t i ch.toNat) =
      root modulus ^ (8 * i) * (digit select ch * value coeff g)) :
    value coeff (mul64k t (low x)) = value coeff x * value coeff g := by
  have hfold : ∀ n, value coeff ((range' 1 n).foldl
      (fun r i => be128Xor r (t i (low x i).toNat)) (t 0 (low x 0).toNat)) =
        ∑ i ∈ range (n + 1), root modulus ^ (8 * i) * (digit select (low x i) * value coeff g) := by
    intro n
    induction n with
    | zero => simpa using ht 0 (low x 0)
    | succ n ih =>
      rw [range'_concat, foldl_append, foldl_cons, foldl_nil, h.value_xor, ih,
        sum_range_succ _ (n + 1), ht, one_mul, add_comm 1 n]
  rw [mul64k, hfold 15, hd.value_eq x, sum_mul]
  exact sum_congr rfl fun i _ => (mul_assoc _ _ _).symm

end

end Loops

section Products

variable (a g : Be128) {kzalloc : Bool} {kzallocTable : ℕ → Bool} {t : ℕ → Entries}

theorem value_gf128mulLle :
    value coeffLle (gf128mulLle a g) = value coeffLle g * value coeffLle a := by
  refine value_mulBytes orderLle digitsLle (fun i hi => ?_) fun ch => ?_
  · rw [Nat.sub_sub_self (by omega)]
  rw [digit, sum_mul]
  refine sum_congr rfl fun m hm => ?_
  rw [powers_eq (mem_range.mp hm), value_iterate orderLle, ite_mul, zero_mul]

theorem value_gf128mulBbe :
    value coeffBbe (gf128mulBbe a g) = value coeffBbe g * value coeffBbe a := by
  refine value_mulBytes orderBbe digitsBbe (fun i hi => rfl) fun ch => ?_
  rw [sum_getMsbD ch fun m => value coeffBbe (powers gf128mulXBbe a (7 - m)), digit, sum_mul]
  refine sum_congr rfl fun m hm => ?_
  have hm := mem_range.mp hm
  rw [Nat.sub_sub_self (by omega), powers_eq hm, value_iterate orderBbe, ite_mul, zero_mul]

theorem sumOf_bitEntriesLle (ch : BitVec 8) :
    sumOf (fun m => value coeffLle (bitEntriesLle g (2 ^ m))) ch.toNat =
      digit BitVec.getMsbD ch * value coeffLle g := by
  rw [sumOf_eq, digit, sum_getMsbD, sum_mul]
  refine sum_congr rfl fun m hm => ?_
  rw [bitEntriesLle_two_pow (mem_range.mp hm), value_iterate orderLle, ite_mul, zero_mul]

theorem sumOf_bitEntriesBbe (ch : BitVec 8) :
    sumOf (fun m => value coeffBbe (bitEntriesBbe g (2 ^ m))) ch.toNat =
      digit BitVec.getLsbD ch * value coeffBbe g := by
  rw [sumOf_eq, digit, sum_mul]
  refine sum_congr rfl fun m hm => ?_
  rw [bitEntriesBbe_two_pow (mem_range.mp hm), value_iterate orderBbe, ite_mul, zero_mul]

theorem value_gf128mul4kLle {t : Entries} (ht : gf128mulInit4kLle kzalloc g = some t) :
    value coeffLle (gf128mul4kLle a t) = value coeffLle a * value coeffLle g := by
  obtain ⟨-, rfl⟩ := Option.ite_some_none_eq_some.mp ht
  refine value_mul4k orderLle digitsLle (fun i hi => ?_) fun ch => ?_
  · rw [Nat.sub_sub_self (by omega)]
  rw [value_sumEntries orderLle rfl ch.isLt, sumOf_bitEntriesLle]

theorem value_gf128mul4kBbe {t : Entries} (ht : gf128mulInit4kBbe kzalloc g = some t) :
    value coeffBbe (gf128mul4kBbe a t) = value coeffBbe a * value coeffBbe g := by
  obtain ⟨-, rfl⟩ := Option.ite_some_none_eq_some.mp ht
  refine value_mul4k orderBbe digitsBbe (fun i hi => rfl) fun ch => ?_
  rw [value_sumEntries orderBbe rfl ch.isLt, sumOf_bitEntriesBbe]

theorem value_gf128mul64kLle (ht : gf128mulInit64kLle kzalloc kzallocTable g = some t) :
    value coeffLle (gf128mul64kLle a t) = value coeffLle a * value coeffLle g := by
  obtain ⟨-, rfl⟩ := Option.ite_some_none_eq_some.mp ht
  refine value_mul64k orderLle digitsLle fun i ch => ?_
  rw [value_tables orderLle rfl i ch.isLt, sumOf_bitEntriesLle]

theorem value_gf128mul64kBbe (ht : gf128mulInit64kBbe kzalloc kzallocTable g = some t) :
    value coeffBbe (gf128mul64kBbe a t) = value coeffBbe a * value coeffBbe g := by
  obtain ⟨-, rfl⟩ := Option.ite_some_none_eq_some.mp ht
  refine value_mul64k orderBbe digitsBbe fun i ch => ?_
  rw [value_tables orderBbe rfl i ch.isLt, sumOf_bitEntriesBbe]

end Products

section Variants

/-- A product of blocks in an order of the coefficients, with the laws of a commutative ring that
follow. -/
structure Multiplies (coeff : Be128 → ℕ → Bool) (mul : Be128 → Be128 → Be128) : Prop where
  product : ∀ a g, poly 128 (coeff (mul a g)) = poly 128 (coeff a) * poly 128 (coeff g) %ₘ modulus
  comm : ∀ a g, mul a g = mul g a
  assoc : ∀ a b g, mul (mul a b) g = mul a (mul b g)
  xor_mul : ∀ a b g, mul (be128Xor a b) g = be128Xor (mul a g) (mul b g)
  mul_xor : ∀ a b g, mul a (be128Xor b g) = be128Xor (mul a b) (mul a g)

variable {mul : Be128 → Be128 → Be128}

theorem Order.multiplies (h : Order coeff power mulX mulX8)
    (hmul : ∀ a g, value coeff (mul a g) = value coeff a * value coeff g) :
    Multiplies coeff mul where
  product a g := poly_eq_modByMonic modulus_monic degree_modulus
    ((hmul a g).trans (map_mul _ _ _).symm)
  comm a g := h.value_injective (by rw [hmul, hmul, mul_comm])
  assoc a b g := h.value_injective (by rw [hmul, hmul, hmul, hmul, mul_assoc])
  xor_mul a b g := h.value_injective (by rw [hmul, h.value_xor, h.value_xor, hmul, hmul, add_mul])
  mul_xor a b g := h.value_injective (by rw [hmul, h.value_xor, h.value_xor, hmul, hmul, mul_add])

/-- The slow product and the two products with tables in an order of the coefficients. -/
structure Variants (coeff : Be128 → ℕ → Bool) (mul : Be128 → Be128 → Be128)
    (init4k : Bool → Be128 → Option Entries) (mul4k : Be128 → Entries → Be128)
    (init64k : Bool → (ℕ → Bool) → Be128 → Option (ℕ → Entries))
    (mul64k : Be128 → (ℕ → Entries) → Be128) : Prop where
  multiplies : Multiplies coeff mul
  init4k_isSome : ∀ g, (init4k true g).isSome
  mul4k_eq : ∀ a g kzalloc t, init4k kzalloc g = some t → mul4k a t = mul a g
  multiplies4k : ∀ kzalloc (t : Be128 → Entries), (∀ g, init4k kzalloc g = some (t g)) →
    Multiplies coeff fun a g => mul4k a (t g)
  init64k_isSome : ∀ g, (init64k true (fun _ => true) g).isSome
  mul64k_eq : ∀ a g kzalloc kzallocTable t, init64k kzalloc kzallocTable g = some t →
    mul64k a t = mul a g
  multiplies64k : ∀ kzalloc kzallocTable (t : Be128 → ℕ → Entries),
    (∀ g, init64k kzalloc kzallocTable g = some (t g)) → Multiplies coeff fun a g => mul64k a (t g)

/-- The three products of each order are one product. -/
theorem gf128mul_variants :
    Variants coeffLle gf128mulLle gf128mulInit4kLle gf128mul4kLle gf128mulInit64kLle
      gf128mul64kLle ∧
    Variants coeffBbe gf128mulBbe gf128mulInit4kBbe gf128mul4kBbe gf128mulInit64kBbe
      gf128mul64kBbe := by
  have hlle : ∀ a g, value coeffLle (gf128mulLle a g) = value coeffLle a * value coeffLle g :=
    fun a g => (value_gf128mulLle a g).trans (mul_comm _ _)
  have hbbe : ∀ a g, value coeffBbe (gf128mulBbe a g) = value coeffBbe a * value coeffBbe g :=
    fun a g => (value_gf128mulBbe a g).trans (mul_comm _ _)
  constructor
  · exact
      { multiplies := orderLle.multiplies hlle
        init4k_isSome _ := rfl
        mul4k_eq a g _ t ht := orderLle.value_injective (by rw [value_gf128mul4kLle a g ht, hlle])
        multiplies4k _ t ht := orderLle.multiplies fun a g => value_gf128mul4kLle a g (ht g)
        init64k_isSome _ := rfl
        mul64k_eq a g _ _ t ht :=
          orderLle.value_injective (by rw [value_gf128mul64kLle a g ht, hlle])
        multiplies64k _ _ t ht := orderLle.multiplies fun a g => value_gf128mul64kLle a g (ht g) }
  · exact
      { multiplies := orderBbe.multiplies hbbe
        init4k_isSome _ := rfl
        mul4k_eq a g _ t ht := orderBbe.value_injective (by rw [value_gf128mul4kBbe a g ht, hbbe])
        multiplies4k _ t ht := orderBbe.multiplies fun a g => value_gf128mul4kBbe a g (ht g)
        init64k_isSome _ := rfl
        mul64k_eq a g _ _ t ht :=
          orderBbe.value_injective (by rw [value_gf128mul64kBbe a g ht, hbbe])
        multiplies64k _ _ t ht := orderBbe.multiplies fun a g => value_gf128mul64kBbe a g (ht g) }

end Variants

end LinuxKernel.Gf128
