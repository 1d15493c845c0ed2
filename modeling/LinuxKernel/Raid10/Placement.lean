import Mathlib.Data.List.Nodup
import Mathlib.Data.Nat.ModEq
import LinuxKernel.Raid10.Geometry

/-! # Where the copies are

The chunks of the array take their places one after the other, `near_copies` for each, and the rows
of places lie on the devices one after the other. In an offset layout a row is followed by its far
copies, but when the near copies of a chunk go on in the next row, `raid10_find_phys` puts them only
one chunk further, which is where the first far copies of the row are. So the places of the copies
are right if that never happens.
-/

namespace LinuxKernel.Raid10

open List Nat

variable {mddev : Mddev} {conf : R10conf} {a s n f v c q : ℕ}

section Places

variable (conf) in
def rowChunks : ℕ := if conf.farOffset then conf.farCopies else 1

/-- The far copy `f` of the place `q`, at an offset in the chunk. -/
def place (conf : R10conf) (a s offset q f : ℕ) : ℕ × ℕ :=
  ((q + f * conf.nearCopies) % conf.raidDisks,
    (q / conf.raidDisks * rowChunks conf + f * if conf.farOffset then 1 else s) * 2 ^ a + offset)

def firstPlace (conf : R10conf) (a v : ℕ) : ℕ := v / 2 ^ a * conf.nearCopies

/-- A copy of a sector as the loops of `raid10_find_phys` find it. -/
def copyOf (conf : R10conf) (a v n f : ℕ) : ℕ × ℕ :=
  copyAt conf (firstPlace conf a v % conf.raidDisks)
    (firstPlace conf a v / conf.raidDisks * rowChunks conf * 2 ^ a + v % 2 ^ a) n f

def copiesOf (conf : R10conf) (a v : ℕ) : List (ℕ × ℕ) :=
  (List.range conf.nearCopies).flatMap fun n => (List.range conf.farCopies).map (copyOf conf a v n)

theorem mem_copiesOf {x : ℕ × ℕ} : x ∈ copiesOf conf a v ↔
    ∃ n < conf.nearCopies, ∃ f < conf.farCopies, copyOf conf a v n f = x := by
  simp [copiesOf]

theorem address_lt {row : ℕ} (hrow : row < s) (hf : f < conf.farCopies) :
    row * rowChunks conf + f * (if conf.farOffset then 1 else s) < conf.farCopies * s := by
  rw [rowChunks]
  split_ifs
  · calc row * conf.farCopies + f * 1 < (row + 1) * conf.farCopies := by rw [succ_mul]; omega
      _ ≤ s * conf.farCopies := mul_le_mul_right _ hrow
      _ = conf.farCopies * s := mul_comm ..
  · calc row * 1 + f * s < (f + 1) * s := by rw [succ_mul]; omega
      _ ≤ conf.farCopies * s := mul_le_mul_right _ hf

namespace Geometry

variable (g : Geometry conf a s)
include g

theorem disks_pos : 0 < conf.raidDisks := by
  have := g.two_le
  have := g.copies_le
  omega

theorem near_le : conf.nearCopies ≤ conf.raidDisks :=
  (Nat.le_mul_of_pos_right _ g.far_pos).trans g.copies_le

theorem mask_succ : conf.chunkMask + 1 = 2 ^ a := by
  rw [g.mask, Nat.sub_add_cancel (Nat.two_pow_pos a)]

theorem dev_lt : conf.farCopies * s * 2 ^ a < 2 ^ 64 :=
  (Nat.le_mul_of_pos_left _ g.disks_pos).trans_lt g.fits

theorem rows_lt : s * conf.raidDisks < 2 ^ 64 := by
  refine lt_of_le_of_lt ?_ g.fits
  rw [mul_comm]
  refine mul_le_mul_left _ ?_
  exact (Nat.le_mul_of_pos_left s g.far_pos).trans (Nat.le_mul_of_pos_right _ (Nat.two_pow_pos a))

theorem size_eq : raid10Size conf = s * conf.raidDisks / conf.nearCopies * 2 ^ a := by
  have hrows : conf.farCopies * s * 2 ^ a / 2 ^ a / conf.farCopies = s := by
    rw [Nat.mul_div_cancel _ (Nat.two_pow_pos a), Nat.mul_div_cancel_left _ g.far_pos]
  have hlt : s * conf.raidDisks / conf.nearCopies * 2 ^ a < 2 ^ 64 := by
    refine lt_of_le_of_lt ?_ g.fits
    calc s * conf.raidDisks / conf.nearCopies * 2 ^ a ≤ s * conf.raidDisks * 2 ^ a :=
          mul_le_mul_right _ (div_le_self ..)
      _ = conf.raidDisks * (s * 2 ^ a) := by ring
      _ ≤ conf.raidDisks * (conf.farCopies * s * 2 ^ a) :=
          mul_le_mul_left _ (mul_le_mul_right _ (Nat.le_mul_of_pos_left s g.far_pos))
  rw [raid10Size, g.shift, g.devSectors, shiftRight_eq_div_pow, hrows, sector, sector,
    mod_eq_of_lt g.rows_lt, shiftLeft_eq, mod_eq_of_lt hlt]

theorem place_row (hv : v < raid10Size conf) (hn : n < conf.nearCopies) :
    (firstPlace conf a v + n) / conf.raidDisks < s := by
  rw [g.size_eq] at hv
  have hc : v / 2 ^ a < s * conf.raidDisks / conf.nearCopies :=
    Nat.div_lt_of_lt_mul (by rwa [mul_comm])
  rw [div_lt_iff_lt_mul g.disks_pos]
  calc v / 2 ^ a * conf.nearCopies + n < (v / 2 ^ a + 1) * conf.nearCopies := by
        rw [succ_mul]; omega
    _ ≤ s * conf.raidDisks / conf.nearCopies * conf.nearCopies := mul_le_mul_right _ hc
    _ ≤ s * conf.raidDisks := div_mul_le_self ..

/-- The copies of a sector, as `raid10_find_phys` lists them. -/
theorem findPhys_eq (hv : v < raid10Size conf)
    (ht : ∀ n < conf.nearCopies, ∀ f < conf.farCopies, (copyOf conf a v n f).2 < 2 ^ 64) :
    raid10FindPhys conf v = some (copiesOf conf a v) := by
  have hrow : firstPlace conf a v / conf.raidDisks < s := g.place_row hv g.near_pos
  have hchunk : sector (v / 2 ^ a * conf.nearCopies) = firstPlace conf a v := by
    refine mod_eq_of_lt (lt_trans ?_ g.rows_lt)
    exact (div_lt_iff_lt_mul g.disks_pos).mp hrow
  have haddr := address_lt hrow g.far_pos
  rw [zero_mul] at haddr
  have hchunks : conf.farCopies * s < 2 ^ 64 :=
    (Nat.le_mul_of_pos_right _ (Nat.two_pow_pos a)).trans_lt g.dev_lt
  have hstripe : (if conf.farOffset then
      sector (firstPlace conf a v / conf.raidDisks * conf.farCopies)
      else firstPlace conf a v / conf.raidDisks) =
      firstPlace conf a v / conf.raidDisks * rowChunks conf := by
    rw [rowChunks] at haddr ⊢
    split_ifs with hfo
    · rw [if_pos hfo] at haddr
      exact mod_eq_of_lt (haddr.trans hchunks)
    · rw [mul_one]
  have hsector :
    sector (v % 2 ^ a + firstPlace conf a v / conf.raidDisks * rowChunks conf * 2 ^ a) =
      firstPlace conf a v / conf.raidDisks * rowChunks conf * 2 ^ a + v % 2 ^ a := by
    rw [add_comm]
    refine mod_eq_of_lt (lt_of_lt_of_le ?_ ((mul_le_mul_right (2 ^ a) haddr).trans g.dev_lt.le))
    rw [succ_mul]
    exact Nat.add_lt_add_left (mod_lt _ (Nat.two_pow_pos a)) _
  rw [raid10FindPhys, g.shift, g.mask, and_mask, shiftRight_eq_div_pow, hchunk, hstripe,
    shiftLeft_eq, hsector, nearLoop_eq (mod_lt _ g.disks_pos) g.near_le g.far_pos ht]
  rw [if_neg (by simp [g.copies])]
  rfl

end Geometry

end Places

section Good

/-- The near copies of no chunk go on in a row that is not the next one on the devices. -/
def NoWrap (conf : R10conf) (s : ℕ) : Prop :=
  rowChunks conf = 1 ∨ conf.raidDisks % conf.nearCopies = 0 ∨ s ≤ 1

namespace Geometry

variable (g : Geometry conf a s)
include g

/-- Where there is a row break, the next row is one chunk further. -/
theorem row_eq (hw : NoWrap conf s) (hv : v < raid10Size conf) (hn : n < conf.nearCopies) :
    firstPlace conf a v / conf.raidDisks * rowChunks conf +
        (firstPlace conf a v % conf.raidDisks + n) / conf.raidDisks =
      (firstPlace conf a v + n) / conf.raidDisks * rowChunks conf := by
  have hsplit : (firstPlace conf a v + n) / conf.raidDisks = firstPlace conf a v / conf.raidDisks +
      (firstPlace conf a v % conf.raidDisks + n) / conf.raidDisks := by
    conv_lhs => rw [← div_add_mod (firstPlace conf a v) conf.raidDisks, add_assoc,
      mul_add_div g.disks_pos]
  rcases hw with hone | hstay
  · rw [hsplit, hone, mul_one, mul_one]
  · have hlt : firstPlace conf a v % conf.raidDisks + n < conf.raidDisks := by
      rcases hstay with hmod | hs
      · obtain ⟨m, hm⟩ := dvd_of_mod_eq_zero hmod
        have hpos : 0 < m := pos_of_ne_zero fun h0 => by
          have := g.disks_pos
          rw [hm, h0] at this
          simp at this
        rw [firstPlace, mul_comm, hm, mul_mod_mul_left]
        have := mul_le_mul_left conf.nearCopies (succ_le_of_lt (mod_lt (v / 2 ^ a) hpos))
        rw [mul_succ] at this
        omega
      · have := g.place_row hv hn
        have hzero : (firstPlace conf a v + n) / conf.raidDisks = 0 :=
          lt_one_iff.mp (this.trans_le hs)
        have := (div_eq_zero_iff_lt g.disks_pos).mp hzero
        rw [mod_eq_of_lt (by omega)]
        exact this
    rw [hsplit, div_eq_of_lt hlt, add_zero, add_zero]

theorem copyOf_eq (hw : NoWrap conf s) (hv : v < raid10Size conf) (hn : n < conf.nearCopies) :
    copyOf conf a v n f = place conf a s (v % 2 ^ a) (firstPlace conf a v + n) f := by
  rw [copyOf, copyAt, place, ← g.row_eq hw hv hn, g.mask_succ, g.stride]
  refine Prod.ext ?_ ?_
  · dsimp only
    rw [add_assoc, mod_add_mod, add_assoc]
  · ring

theorem place_lt {offset : ℕ} (hq : q / conf.raidDisks < s) (hf : f < conf.farCopies)
    (ho : offset < 2 ^ a) : (place conf a s offset q f).2 < conf.devSectors := by
  have := mul_le_mul_right (2 ^ a) (succ_le_of_lt (address_lt hq hf))
  rw [succ_mul] at this
  rw [g.devSectors, place]
  omega

omit g in
/-- A place is back from its row and its device. -/
theorem place_back {q d : ℕ} (h : q < 2 ^ 64) :
    ((((q / d : ℕ) : ℤ) * d + ((q % d : ℕ) : ℤ)) % 2 ^ 64).toNat = q := by
  rw [← Int.natCast_mul, ← Int.natCast_add, div_add_mod' q d]
  omega

theorem virtSector_eq (hv : v < raid10Size conf) (hn : n < conf.nearCopies) :
    virtSector conf (v % 2 ^ a) ((firstPlace conf a v + n) / conf.raidDisks)
      (((firstPlace conf a v + n) % conf.raidDisks : ℕ) : ℤ) = v := by
  have hplace : firstPlace conf a v + n < 2 ^ 64 :=
    ((div_lt_iff_lt_mul g.disks_pos).mp (g.place_row hv hn)).trans g.rows_lt
  have hchunk : (firstPlace conf a v + n) / conf.nearCopies = v / 2 ^ a := by
    rw [firstPlace, mul_comm, mul_add_div g.near_pos, div_eq_of_lt hn, add_zero]
  have hlt : v < 2 ^ 64 := by
    exact hv.trans (mod_lt _ (Nat.two_pow_pos 64))
  rw [virtSector, place_back hplace, hchunk, g.shift, shiftLeft_eq, div_add_mod', sector,
    mod_eq_of_lt hlt]

theorem number_lt (hn : n < conf.nearCopies) (hf : f < conf.farCopies) :
    n + f * conf.nearCopies < conf.raidDisks := by
  calc n + f * conf.nearCopies < (f + 1) * conf.nearCopies := by rw [succ_mul]; omega
    _ ≤ conf.farCopies * conf.nearCopies := mul_le_mul_right _ hf
    _ = conf.nearCopies * conf.farCopies := mul_comm ..
    _ ≤ conf.raidDisks := g.copies_le

omit g in
/-- A device number goes around at most once. -/
theorem add_mod_cases {x y d : ℕ} (hx : x < d) (hy : y ≤ d) :
    x + y < d ∧ (x + y) % d = x + y ∨ d ≤ x + y ∧ (x + y) % d = x + y - d := by
  rcases lt_or_ge (x + y) d with h | h
  · exact .inl ⟨h, mod_eq_of_lt h⟩
  · exact .inr ⟨h, by rw [mod_eq_sub_mod h, mod_eq_of_lt (by omega)]⟩

theorem device_back (q : ℕ) :
    (if (((q + conf.nearCopies) % conf.raidDisks : ℕ) : ℤ) < conf.nearCopies then
      (((q + conf.nearCopies) % conf.raidDisks : ℕ) : ℤ) + (conf.raidDisks - conf.nearCopies)
    else (((q + conf.nearCopies) % conf.raidDisks : ℕ) : ℤ) - conf.nearCopies) =
      ((q % conf.raidDisks : ℕ) : ℤ) := by
  have hlt := mod_lt q g.disks_pos
  have hmod := add_mod_cases hlt g.near_le
  rw [← mod_add_mod]
  split_ifs <;> omega

theorem virtLoop_eq {fuel x : ℕ} (hx : x < conf.stride) (hf : f < fuel) :
    virtLoop conf fuel (x + f * conf.stride)
      (((q + f * conf.nearCopies) % conf.raidDisks : ℕ) : ℤ) =
      some (x, ((q % conf.raidDisks : ℕ) : ℤ)) := by
  induction f generalizing fuel with
  | zero =>
    obtain ⟨fuel, rfl⟩ : ∃ n, fuel = n + 1 := ⟨fuel - 1, by omega⟩
    rw [virtLoop, zero_mul, zero_mul, add_zero, add_zero, if_neg (by omega)]
  | succ f ih =>
    obtain ⟨fuel, rfl⟩ : ∃ n, fuel = n + 1 := ⟨fuel - 1, by omega⟩
    have hsub : x + (f + 1) * conf.stride - conf.stride = x + f * conf.stride := by
      rw [succ_mul, ← add_assoc, Nat.add_sub_cancel]
    have hge : x + (f + 1) * conf.stride ≥ conf.stride := by
      rw [succ_mul]
      omega
    rw [virtLoop, if_pos hge, hsub, succ_mul, ← add_assoc, g.device_back]
    exact ih (by omega)

theorem offset_back (hf : f < conf.farCopies) :
    (if (((q + f * conf.nearCopies) % conf.raidDisks : ℕ) : ℤ) - (f : ℤ) * conf.nearCopies < 0 then
      (((q + f * conf.nearCopies) % conf.raidDisks : ℕ) : ℤ) - (f : ℤ) * conf.nearCopies +
        conf.raidDisks
    else (((q + f * conf.nearCopies) % conf.raidDisks : ℕ) : ℤ) - (f : ℤ) * conf.nearCopies) =
      ((q % conf.raidDisks : ℕ) : ℤ) := by
  have hlt := mod_lt q g.disks_pos
  have hle := g.number_lt g.near_pos hf
  rw [zero_add] at hle
  have hmod := add_mod_cases hlt hle.le
  rw [← mod_add_mod]
  split_ifs <;> omega

theorem findVirt_place (hv : v < raid10Size conf) (hn : n < conf.nearCopies)
    (hf : f < conf.farCopies) :
    raid10FindVirt conf (place conf a s (v % 2 ^ a) (firstPlace conf a v + n) f).2
      ((place conf a s (v % 2 ^ a) (firstPlace conf a v + n) f).1 : ℤ) = some v := by
  have ho := mod_lt v (Nat.two_pow_pos a)
  have hvirt := g.virtSector_eq hv hn
  have hrow := g.place_row hv hn
  rw [place]
  generalize firstPlace conf a v + n = q at hvirt hrow ⊢
  rw [raid10FindVirt, g.mask, and_mask, mul_comm _ (2 ^ a), mul_add_mod, mod_eq_of_lt ho,
    g.shift, shiftRight_eq_div_pow, mul_add_div (Nat.two_pow_pos a), div_eq_of_lt ho,
    add_zero, rowChunks]
  by_cases hfo : conf.farOffset = true
  · have hchunk : (q / conf.raidDisks * conf.farCopies + f) % conf.farCopies = f := by
      rw [mul_comm, mul_add_mod, mod_eq_of_lt hf]
    have hdiv : (q / conf.raidDisks * conf.farCopies + f) / conf.farCopies =
      q / conf.raidDisks := by
      rw [mul_comm, mul_add_div g.far_pos, div_eq_of_lt hf, add_zero]
    simp only [hfo, if_true, mul_one]
    rw [hchunk, hdiv, g.offset_back hf, hvirt]
  · have hstride : conf.stride = s * 2 ^ a := by rw [g.stride, if_neg hfo]
    have hx : q / conf.raidDisks * 2 ^ a + v % 2 ^ a < conf.stride := by
      have := mul_le_mul_right (2 ^ a) (succ_le_of_lt hrow)
      rw [succ_mul] at this
      omega
    have haddr : 2 ^ a * (q / conf.raidDisks + f * s) + v % 2 ^ a =
        q / conf.raidDisks * 2 ^ a + v % 2 ^ a + f * conf.stride := by
      rw [hstride]
      ring
    have hfuel : f ≤ f * conf.stride := Nat.le_mul_of_pos_right f (by omega)
    simp only [hfo, if_false, mul_one, Bool.false_eq_true]
    rw [haddr, g.virtLoop_eq hx (by omega), Option.map_some, shiftRight_eq_div_pow,
      mul_comm _ (2 ^ a), mul_add_div (Nat.two_pow_pos a), div_eq_of_lt ho, add_zero,
      hvirt]

theorem device_inj {n' f' : ℕ} (hn : n < conf.nearCopies) (hf : f < conf.farCopies)
    (hn' : n' < conf.nearCopies) (hf' : f' < conf.farCopies)
    (h : (copyOf conf a v n f).1 = (copyOf conf a v n' f').1) : n = n' ∧ f = f' := by
  have hmod : n + f * conf.nearCopies ≡ n' + f' * conf.nearCopies [MOD conf.raidDisks] := by
    refine Nat.ModEq.add_left_cancel' (firstPlace conf a v % conf.raidDisks) ?_
    rw [← add_assoc, ← add_assoc]
    exact h
  have heq := hmod.eq_of_lt_of_lt (g.number_lt hn hf) (g.number_lt hn' hf')
  have hnn : n = n' := by
    have := congrArg (· % conf.nearCopies) heq
    simpa [mod_eq_of_lt hn, mod_eq_of_lt hn'] using this
  subst hnn
  exact ⟨rfl, eq_of_mul_eq_mul_right g.near_pos (add_left_cancel heq)⟩

theorem devices_nodup : ((copiesOf conf a v).map Prod.fst).Nodup := by
  have hlist : (copiesOf conf a v).map Prod.fst =
      ((range conf.nearCopies).product (range conf.farCopies)).map
        fun x => (copyOf conf a v x.1 x.2).1 := by
    rw [copiesOf, product, map_flatMap, map_flatMap]
    simp only [map_map, Function.comp_def]
  rw [hlist]
  refine (List.Nodup.product nodup_range nodup_range).map_on ?_
  rintro ⟨n, f⟩ hx ⟨n', f'⟩ hy heq
  have hx := mem_product.mp hx
  have hy := mem_product.mp hy
  rw [mem_range, mem_range] at hx hy
  obtain ⟨rfl, rfl⟩ := g.device_inj hx.1 hx.2 hy.1 hy.2 heq
  rfl

end Geometry

end Good

section Bad

namespace Geometry

variable (g : Geometry conf a s)
include g

theorem copyOf_first_row (hfo : conf.farOffset = true) (hc : c * conf.nearCopies < conf.raidDisks) :
    copyOf conf a (c * 2 ^ a) n f =
      ((c * conf.nearCopies + n + f * conf.nearCopies) % conf.raidDisks,
        ((c * conf.nearCopies + n) / conf.raidDisks + f) * 2 ^ a) := by
  rw [copyOf, copyAt, firstPlace, Nat.mul_div_cancel _ (Nat.two_pow_pos a), mod_eq_of_lt hc,
    div_eq_of_lt hc, g.mask_succ, g.stride, if_pos hfo, mul_mod_left]
  refine Prod.ext rfl ?_
  ring

theorem findPhys_first_row (hfo : conf.farOffset = true) (hs : 2 ≤ s)
    (hc : c * conf.nearCopies < conf.raidDisks) :
    c * 2 ^ a < raid10Size conf ∧
      raid10FindPhys conf (c * 2 ^ a) = some (copiesOf conf a (c * 2 ^ a)) := by
  have hlt : c * 2 ^ a < raid10Size conf := by
    rw [g.size_eq]
    refine mul_lt_mul_of_pos_right ?_ (Nat.two_pow_pos a)
    rw [lt_iff_add_one_le, le_div_iff_mul_le g.near_pos, succ_mul]
    have := g.near_le
    have := mul_le_mul_right conf.raidDisks hs
    omega
  refine ⟨hlt, g.findPhys_eq hlt fun n hn f hf => ?_⟩
  rw [g.copyOf_first_row hfo hc]
  refine lt_of_le_of_lt (mul_le_mul_right (2 ^ a) (?_ : _ ≤ conf.farCopies * s)) g.dev_lt
  have hone : (c * conf.nearCopies + n) / conf.raidDisks ≤ 1 := by
    rw [← Nat.lt_succ_iff, div_lt_iff_lt_mul g.disks_pos]
    have := g.near_le
    omega
  have := mul_le_mul_left conf.farCopies hs
  omega

/-- Two chunks of the first row share a place, if one of them goes on in the next row. -/
theorem shared_place (hw : ¬ NoWrap conf s) : ∃ v v' devs devs' x, v < raid10Size conf ∧
    v' < raid10Size conf ∧ v ≠ v' ∧ raid10FindPhys conf v = some devs ∧
    raid10FindPhys conf v' = some devs' ∧ x ∈ devs ∧ x ∈ devs' := by
  obtain ⟨hrow, hmod, hs⟩ : rowChunks conf ≠ 1 ∧ conf.raidDisks % conf.nearCopies ≠ 0 ∧ 1 < s := by
    simpa [NoWrap] using hw
  obtain ⟨hfo, hF⟩ : conf.farOffset = true ∧ 1 < conf.farCopies := by
    rw [rowChunks] at hrow
    split at hrow
    · have := g.far_pos
      exact ⟨‹_›, by omega⟩
    · exact absurd rfl hrow
  have hdiv := div_add_mod' conf.raidDisks conf.nearCopies
  have hn := mod_lt conf.raidDisks g.near_pos
  obtain ⟨c, hc⟩ : ∃ c, conf.raidDisks / conf.nearCopies = c + 1 :=
    ⟨_, (Nat.sub_add_cancel (div_pos g.near_le g.near_pos)).symm⟩
  rw [hc] at hdiv
  have hdiv' := hdiv
  rw [succ_mul] at hdiv'
  have hlast : (c + 1) * conf.nearCopies < conf.raidDisks := by omega
  have hbefore : c * conf.nearCopies < conf.raidDisks := by omega
  obtain ⟨hlt, hphys⟩ := g.findPhys_first_row hfo hs hlast
  obtain ⟨hlt', hphys'⟩ := g.findPhys_first_row hfo hs hbefore
  refine ⟨_, _, _, _, (0, 2 ^ a), hlt, hlt', ?_, hphys, hphys', ?_, ?_⟩
  · exact (mul_lt_mul_of_pos_right (lt_succ_self c) (Nat.two_pow_pos a)).ne'
  · refine mem_copiesOf.mpr ⟨_, hn, 0, g.far_pos, ?_⟩
    rw [g.copyOf_first_row hfo hlast, hdiv, zero_mul, add_zero, mod_self,
      Nat.div_self g.disks_pos, Nat.add_zero, Nat.one_mul]
  · refine mem_copiesOf.mpr ⟨_, hn, 1, hF, ?_⟩
    have hplace : c * conf.nearCopies + conf.raidDisks % conf.nearCopies + 1 * conf.nearCopies =
        conf.raidDisks := by omega
    rw [g.copyOf_first_row hfo hbefore, hplace, mod_self, div_eq_of_lt (by omega),
      zero_add, one_mul]

end Geometry

end Bad

section Placement

/-- What the layout is for: the copies of a sector are on different devices and within them, no two
sectors share a place, and the way back leads from each copy to its sector. -/
structure Placement (conf : R10conf) : Prop where
  phys {v : ℕ} : v < raid10Size conf → ∃ devs, raid10FindPhys conf v = some devs ∧
    (devs.map Prod.fst).Nodup ∧ ∀ x ∈ devs, x.1 < conf.raidDisks ∧ x.2 < conf.devSectors ∧
      raid10FindVirt conf x.2 x.1 = some v
  inj {v v' : ℕ} {devs devs' : List (ℕ × ℕ)} {x : ℕ × ℕ} : v < raid10Size conf →
    v' < raid10Size conf → raid10FindPhys conf v = some devs → raid10FindPhys conf v' = some devs' →
    x ∈ devs → x ∈ devs' → v = v'

theorem Geometry.back (g : Geometry conf a s) (hw : NoWrap conf s)
    (hv : v < raid10Size conf) {x : ℕ × ℕ} (hx : x ∈ copiesOf conf a v) : x.1 < conf.raidDisks ∧
      x.2 < conf.devSectors ∧ raid10FindVirt conf x.2 x.1 = some v := by
  obtain ⟨n, hn, f, hf, rfl⟩ := mem_copiesOf.mp hx
  refine ⟨mod_lt _ g.disks_pos, ?_⟩
  rw [g.copyOf_eq hw hv hn]
  exact ⟨g.place_lt (g.place_row hv hn) hf (mod_lt _ (Nat.two_pow_pos a)),
    g.findVirt_place hv hn hf⟩

theorem Geometry.placement (g : Geometry conf a s) (hw : NoWrap conf s) : Placement conf := by
  have hphys {v} (hv : v < raid10Size conf) : raid10FindPhys conf v = some (copiesOf conf a v) :=
    g.findPhys_eq hv fun n hn f hf =>
      (g.back hw hv (mem_copiesOf.mpr ⟨n, hn, f, hf, rfl⟩)).2.1.trans (g.devSectors ▸ g.dev_lt)
  refine ⟨fun hv => ⟨_, hphys hv, g.devices_nodup, fun _ => g.back hw hv⟩,
    fun hv hv' hdevs hdevs' hx hx' => ?_⟩
  obtain rfl := Option.some.inj ((hphys hv).symm.trans hdevs)
  obtain rfl := Option.some.inj ((hphys hv').symm.trans hdevs')
  exact Option.some.inj ((g.back hw hv hx).2.2.symm.trans (g.back hw hv' hx').2.2)

/-- The near copies of a chunk go on in the next row of an offset layout with far copies. -/
def WrapsInOffset (conf : R10conf) : Prop :=
  conf.farOffset = true ∧ 1 < conf.farCopies ∧ conf.raidDisks % conf.nearCopies ≠ 0 ∧
    2 * (conf.farCopies * (conf.chunkMask + 1)) ≤ conf.devSectors

theorem Geometry.noWrap_iff (g : Geometry conf a s) : NoWrap conf s ↔ ¬ WrapsInOffset conf := by
  have hrow : rowChunks conf = 1 ↔ ¬ (conf.farOffset = true ∧ 1 < conf.farCopies) := by
    have := g.far_pos
    rw [rowChunks]
    split_ifs with hfo
    · rw [not_and]
      exact ⟨fun h _ => by omega, fun h => by have := h hfo; omega⟩
    · simp [hfo]
  have hsize : 2 * (conf.farCopies * (conf.chunkMask + 1)) ≤ conf.devSectors ↔ 2 ≤ s := by
    rw [g.mask_succ, g.devSectors, show conf.farCopies * s * 2 ^ a =
      s * (conf.farCopies * 2 ^ a) by ring]
    exact Nat.mul_le_mul_right_iff (mul_pos g.far_pos (Nat.two_pow_pos a))
  rw [NoWrap, WrapsInOffset]
  grind

end Placement

/-- An accepted layout puts the copies at their places if and only if no near copies wrap in an
offset layout. -/
theorem raid10_placement_iff (mddev : Mddev) (conf : R10conf) (h : setupConf mddev = some conf)
    (hfits : Fits mddev) : Placement conf ↔ ¬ WrapsInOffset conf := by
  obtain ⟨a, s, g⟩ := setupConf_geometry h hfits
  rw [← g.noWrap_iff]
  refine ⟨fun hp => ?_, g.placement⟩
  by_contra hw
  obtain ⟨v, v', devs, devs', x, hv, hv', hne, hdevs, hdevs', hx, hx'⟩ := g.shared_place hw
  exact hne (hp.inj hv hv' hdevs hdevs' hx hx')

theorem raid10_placement_iff_four_disks :
    setupConf ⟨8, 0x10202, 4, 80⟩ = some ⟨4, 2, 2, 4, true, 7, 3, 80, 8⟩ ∧
      Placement ⟨4, 2, 2, 4, true, 7, 3, 80, 8⟩ :=
  ⟨by decide, (raid10_placement_iff ⟨8, 0x10202, 4, 80⟩ _ (by decide) ⟨by decide, by decide⟩).mpr
    (by simp [WrapsInOffset])⟩

/-- Two near and two offset copies on five disks: the second and the third chunk share a place. -/
theorem offset_copies_collide :
    setupConf ⟨8, 0x10202, 5, 80⟩ = some ⟨5, 2, 2, 4, true, 7, 3, 80, 8⟩ ∧
      raid10Size ⟨5, 2, 2, 4, true, 7, 3, 80, 8⟩ = 96 ∧
      raid10FindPhys ⟨5, 2, 2, 4, true, 7, 3, 80, 8⟩ 8 = some [(2, 0), (4, 8), (3, 0), (0, 8)] ∧
      raid10FindPhys ⟨5, 2, 2, 4, true, 7, 3, 80, 8⟩ 16 =
        some [(4, 0), (1, 8), (0, 8), (2, 16)] := by
  decide

end LinuxKernel.Raid10
