import LinuxKernel.Base.Erasure
import LinuxKernel.Raid6.Syndrome

/-! # Recovery of lost blocks

The blocks that were lost are first used for the syndromes of the others, with a page of zeros in
their place, and then filled again byte by byte.
-/

namespace LinuxKernel.Raid6

open Function Nat

section Source

def pageSize : ℕ := 4096

def twoDataLoop (pbmul qmul : BitVec 8 → BitVec 8) : ℕ → ℕ → ℕ → ℕ → ℕ → Mem → Mem
  | 0, _, _, _, _, mem => mem
  | bytes + 1, p, q, dp, dq, mem =>
    let px := mem p ^^^ mem dp
    let qx := qmul (mem q ^^^ mem dq)
    let db := pbmul px ^^^ qx
    let mem := update mem dq db
    let mem := update mem dp (db ^^^ px)
    twoDataLoop pbmul qmul bytes (p + 1) (q + 1) (dp + 1) (dq + 1) mem

/-- The memory and the pointer table on return. -/
def raid62dataRecov (zeroPage n u disks bytes faila failb : ℕ) (ptrs : ℕ → ℕ) (mem : Mem) :
    Mem × (ℕ → ℕ) :=
  let p := ptrs (disks - 2)
  let q := ptrs (disks - 1)
  let dp := ptrs faila
  let ptrs := update ptrs faila zeroPage
  let ptrs := update ptrs (disks - 2) dp
  let dq := ptrs failb
  let ptrs := update ptrs failb zeroPage
  let ptrs := update ptrs (disks - 1) dq
  let mem := genSyndrome n u disks bytes ptrs mem
  let ptrs := update ptrs faila dp
  let ptrs := update ptrs failb dq
  let ptrs := update ptrs (disks - 2) p
  let ptrs := update ptrs (disks - 1) q
  let pbmul := gfmul (exitbl (failb - faila))
  let qmul := gfmul (invtbl (exptbl faila ^^^ exptbl failb))
  (twoDataLoop pbmul qmul bytes p q dp dq mem, ptrs)

def dataPLoop (qmul : BitVec 8 → BitVec 8) : ℕ → ℕ → ℕ → ℕ → Mem → Mem
  | 0, _, _, _, mem => mem
  | bytes + 1, p, q, dq, mem =>
    let mem := update mem dq (qmul (mem q ^^^ mem dq))
    let mem := update mem p (mem p ^^^ mem dq)
    dataPLoop qmul bytes (p + 1) (q + 1) (dq + 1) mem

def raid6DatapRecov (zeroPage n u disks bytes faila : ℕ) (ptrs : ℕ → ℕ) (mem : Mem) :
    Mem × (ℕ → ℕ) :=
  let p := ptrs (disks - 2)
  let q := ptrs (disks - 1)
  let dq := ptrs faila
  let ptrs := update ptrs faila zeroPage
  let ptrs := update ptrs (disks - 1) dq
  let mem := genSyndrome n u disks bytes ptrs mem
  let ptrs := update ptrs faila dq
  let ptrs := update ptrs (disks - 1) q
  let qmul := gfmul (invtbl (exptbl faila))
  (dataPLoop qmul bytes p q dq mem, ptrs)

end Source

section Loops

variable {p q dp dq a len x bytes : ℕ} {mem target : Mem} {f f' : ℕ → BitVec 8}

theorem overwrite_zero (mem : Mem) (a : ℕ) (f : ℕ → BitVec 8) : overwrite mem a 0 f = mem :=
  funext fun x => if_neg (by omega)

theorem overwrite_succ (mem : Mem) (a len : ℕ) (f : ℕ → BitVec 8) :
    overwrite mem a (len + 1) f =
      overwrite (update mem a (f 0)) (a + 1) len fun i => f (i + 1) := by
  funext x
  simp only [overwrite]
  rcases eq_or_ne x a with rfl | hne
  · rw [if_pos (by omega), if_neg (by omega), update_self, Nat.sub_self]
  rw [update_of_ne hne]
  split
  · rw [if_pos (by omega)]
    congr 1
    omega
  · rw [if_neg (by omega)]

theorem update_overwrite (hx : ¬InBlock a len x) (v : BitVec 8) :
    update (overwrite mem a len f) x v = overwrite (update mem x v) a len f := by
  unfold InBlock at hx
  funext y
  rcases eq_or_ne y x with rfl | hne
  · rw [update_self, overwrite, if_neg hx, update_self]
  · simp only [update_of_ne hne, overwrite]

theorem overwrite_congr (h : ∀ i < len, f i = f' i) :
    overwrite mem a len f = overwrite mem a len f' := by
  funext x
  simp only [overwrite]
  split
  · exact h _ (by omega)
  · rfl

/-- A range is brought back by its own bytes. -/
theorem overwrite_eq_of (hf : ∀ i < len, f i = target (a + i))
    (hout : ¬InBlock a len x → mem x = target x) : overwrite mem a len f x = target x := by
  rw [overwrite]
  split
  · next h =>
    rw [hf _ (by omega), Nat.add_sub_cancel' h.1]
  · next h => exact hout h

/-- The bytes of later rounds are those from before the first one. -/
theorem update_update_succ {b c i : ℕ} {u v : BitVec 8} (ha : c + 1 + i ≠ a) (hb : c + 1 + i ≠ b) :
    update (update mem a u) b v (c + 1 + i) = mem (c + (i + 1)) := by
  rw [update_of_ne hb, update_of_ne ha, add_assoc, add_comm 1]

theorem twoDataLoop_eq (pbmul qmul : BitVec 8 → BitVec 8)
    (hapart : [dp, dq, p, q].Pairwise (Apart · · bytes)) :
    twoDataLoop pbmul qmul bytes p q dp dq mem =
      overwrite (overwrite mem dq bytes fun i =>
        pbmul (mem (p + i) ^^^ mem (dp + i)) ^^^ qmul (mem (q + i) ^^^ mem (dq + i)))
        dp bytes fun i =>
        pbmul (mem (p + i) ^^^ mem (dp + i)) ^^^ qmul (mem (q + i) ^^^ mem (dq + i)) ^^^
          (mem (p + i) ^^^ mem (dp + i)) := by
  simp only [List.pairwise_cons, List.forall_mem_cons, Apart] at hapart
  induction bytes generalizing p q dp dq mem with
  | zero => rw [twoDataLoop, overwrite_zero, overwrite_zero]
  | succ bytes ih =>
    rw [twoDataLoop, ih (by simp; omega), overwrite_succ _ dp, overwrite_succ _ dq,
      update_overwrite (by unfold InBlock; omega)]
    rw [overwrite_congr fun i hi => by simp (disch := omega) only [update_update_succ]; rfl]
    congr 1
    exact overwrite_congr fun i hi => by simp (disch := omega) only [update_update_succ]

theorem dataPLoop_eq (qmul : BitVec 8 → BitVec 8) (hapart : [dq, p, q].Pairwise (Apart · · bytes)) :
    dataPLoop qmul bytes p q dq mem =
      overwrite
        (overwrite mem dq bytes fun i => qmul (mem (q + i) ^^^ mem (dq + i))) p bytes fun i =>
        mem (p + i) ^^^ qmul (mem (q + i) ^^^ mem (dq + i)) := by
  simp only [List.pairwise_cons, List.forall_mem_cons, Apart] at hapart
  induction bytes generalizing p q dq mem with
  | zero => rw [dataPLoop, overwrite_zero, overwrite_zero]
  | succ bytes ih =>
    rw [dataPLoop, ih (by simp; omega), overwrite_succ _ p, overwrite_succ _ dq,
      update_overwrite (by unfold InBlock; omega), update_of_ne (by omega), update_self]
    rw [overwrite_congr fun i hi => by simp (disch := omega) only [update_update_succ]; rfl]
    congr 1
    exact overwrite_congr fun i hi => by simp (disch := omega) only [update_update_succ]

end Loops

section Layout

open GF256 Finset

variable {zeroPage n u disks bytes faila failb : ℕ} {ptrs : ℕ → ℕ} {mem mem₀ : Mem}

structure Layout (zeroPage disks bytes : ℕ) (ptrs : ℕ → ℕ) : Prop where
  blocks : ∀ i < disks, ∀ j < disks, i ≠ j → Apart (ptrs i) (ptrs j) bytes
  page : ∀ i < disks, Apart zeroPage (ptrs i) bytes

theorem Layout.pairwise (h : Layout zeroPage disks bytes ptrs) {l : List ℕ} (hl : l.Nodup)
    (hlt : ∀ i ∈ l, i < disks) : (l.map ptrs).Pairwise (Apart · · bytes) :=
  List.pairwise_map.mpr (hl.imp_of_mem fun hi hj hij => h.blocks _ (hlt _ hi) _ (hlt _ hj) hij)

theorem Layout.separate (h : Layout zeroPage disks bytes ptrs) (hd : 4 ≤ disks) :
    Separate ptrs (disks - 3) bytes where
  parity z hz := h.blocks _ (by omega) _ (by omega) (by omega)
  syndrome z hz := h.blocks _ (by omega) _ (by omega) (by omega)
  both := h.blocks _ (by omega) _ (by omega) (by omega)

/-- The pointer table while two blocks hold the syndromes of the others. -/
def lendTwo (zeroPage disks faila failb : ℕ) (ptrs : ℕ → ℕ) : ℕ → ℕ :=
  update (update (update (update ptrs faila zeroPage) (disks - 2) (ptrs faila)) failb zeroPage)
    (disks - 1) (ptrs failb)

/-- The pointer table while one block holds the second syndrome. -/
def lendOne (zeroPage disks faila : ℕ) (ptrs : ℕ → ℕ) : ℕ → ℕ :=
  update (update ptrs faila zeroPage) (disks - 1) (ptrs faila)

/-- The table `ptrs'` has the page of zeros for the blocks `a` and `b`, which hold the syndromes. -/
structure Lent (zeroPage disks a b : ℕ) (ptrs ptrs' : ℕ → ℕ) : Prop where
  data : ∀ z ≤ disks - 3, ptrs' z = if z = a ∨ z = b then zeroPage else ptrs z
  parity : ptrs' (disks - 3 + 1) = ptrs a
  syndrome : ptrs' (disks - 3 + 2) = ptrs b

theorem lent_lendTwo (zeroPage faila : ℕ) (ptrs : ℕ → ℕ) (hb : failb < disks - 2) :
    Lent zeroPage disks faila failb ptrs (lendTwo zeroPage disks faila failb ptrs) where
  data z hz := by
    rw [lendTwo, update_of_ne (by omega)]
    rcases eq_or_ne z failb with rfl | hzb
    · simp
    rw [update_of_ne hzb, update_of_ne (by omega)]
    rcases eq_or_ne z faila with rfl | hza
    · simp
    · rw [update_of_ne hza, if_neg (by simp [hza, hzb])]
  parity := by
    rw [lendTwo, update_of_ne (by omega), update_of_ne (by omega),
      show disks - 3 + 1 = disks - 2 by omega, update_self]
  syndrome := by rw [lendTwo, show disks - 3 + 2 = disks - 1 by omega, update_self]

theorem lent_lendOne (zeroPage : ℕ) (ptrs : ℕ → ℕ) (ha : faila < disks - 2) :
    Lent zeroPage disks (disks - 2) faila ptrs (lendOne zeroPage disks faila ptrs) where
  data z hz := by
    rw [lendOne, update_of_ne (by omega), update_apply]
    exact if_congr (by omega) rfl rfl
  parity := by
    rw [lendOne, update_of_ne (by omega), update_of_ne (by omega),
      show disks - 3 + 1 = disks - 2 by omega]
  syndrome := by rw [lendOne, show disks - 3 + 2 = disks - 1 by omega, update_self]

/-- Some blocks of the memory with syndromes were lost. -/
def Lost (mem mem₀ : Mem) (disks bytes : ℕ) (ptrs : ℕ → ℕ) (a b : ℕ) : Prop :=
  ∀ x, ¬InBlock (ptrs a) bytes x → ¬InBlock (ptrs b) bytes x →
    mem x = withSyndromes mem₀ ptrs (disks - 3) bytes x

end Layout

section Lending

open GF256 Finset

variable {zeroPage disks bytes a b i z : ℕ} {ptrs ptrs' : ℕ → ℕ} {mem mem₀ mem' : Mem}
  (h : Layout zeroPage disks bytes ptrs) (hd : 4 ≤ disks) (hab : a ≠ b) (ha : a ≤ disks - 2)
  (hb : b < disks - 2) (hl : Lent zeroPage disks a b ptrs ptrs')
  (hm : Lost mem mem₀ disks bytes ptrs a b) (hi : i < bytes)

include hm hl in
/-- The memory once the right bytes have been written to both blocks. -/
theorem Lost.overwritten {f f' : ℕ → BitVec 8}
    (hf : ∀ i < bytes, f i = withSyndromes mem₀ ptrs (disks - 3) bytes (ptrs a + i))
    (hf' : ∀ i < bytes, f' i = withSyndromes mem₀ ptrs (disks - 3) bytes (ptrs b + i)) :
    overwrite (overwrite (withSyndromes mem ptrs' (disks - 3) bytes) (ptrs b) bytes f')
      (ptrs a) bytes f =
      withSyndromes mem₀ ptrs (disks - 3) bytes := by
  refine funext fun x => overwrite_eq_of hf fun hx => overwrite_eq_of hf' fun hx' => ?_
  rw [withSyndromes_of_not_in (by rwa [hl.parity]) (by rwa [hl.syndrome])]
  exact hm x hx hx'

include h hd hab ha hb hl in
theorem Layout.separate_lent : Separate ptrs' (disks - 3) bytes where
  parity z hz := by
    rw [hl.data z hz, hl.parity]
    split
    · exact h.page _ (by omega)
    · exact h.blocks _ (by omega) _ (by omega) (by omega)
  syndrome z hz := by
    rw [hl.data z hz, hl.syndrome]
    split
    · exact h.page _ (by omega)
    · exact h.blocks _ (by omega) _ (by omega) (by omega)
  both := by
    rw [hl.parity, hl.syndrome]
    exact h.blocks _ (by omega) _ (by omega) hab

include h hd ha hb hm hi

theorem Lost.block (hz : z < disks) (hza : z ≠ a) (hzb : z ≠ b) :
    mem (ptrs z + i) = withSyndromes mem₀ ptrs (disks - 3) bytes (ptrs z + i) :=
  hm _ ((h.blocks _ hz _ (by omega) hza).not_in hi) ((h.blocks _ hz _ (by omega) hzb).not_in hi)

theorem Lost.page (hzero : mem₀ (zeroPage + i) = 0#8) : mem (zeroPage + i) = 0#8 := by
  have hout : ∀ k < disks, ¬InBlock (ptrs k) bytes (zeroPage + i) := fun k hk =>
    (h.page k hk).not_in hi
  rw [hm _ (hout _ (by omega)) (hout _ (by omega)),
    withSyndromes_of_not_in (hout _ (by omega)) (hout _ (by omega)), hzero]

include hl

theorem Lost.cell_lent (hz : z ≤ disks - 3) (hzero : mem₀ (zeroPage + i) = 0#8) :
    cell mem ptrs' z i = Erasure.without (fun k => cell mem₀ ptrs k i) a b z := by
  rw [cell, hl.data z hz, Erasure.without]
  split
  · rw [hm.page h hd ha hb hi hzero]
    rfl
  · rw [hm.block h hd ha hb hi (by omega) (by omega) (by omega)]
    exact (h.separate hd).cell_eq hz hi le.refl

theorem Lost.keep_lent (hmem : mem' = withSyndromes mem ptrs' (disks - 3) bytes) (hz : z < disks)
    (hza : z ≠ a) (hzb : z ≠ b) :
    mem' (ptrs z + i) = withSyndromes mem₀ ptrs (disks - 3) bytes (ptrs z + i) := by
  rw [hmem, withSyndromes_of_not_in, hm.block h hd ha hb hi hz hza hzb]
  · rw [hl.parity]
    exact (h.blocks _ hz _ (by omega) hza).not_in hi
  · rw [hl.syndrome]
    exact (h.blocks _ hz _ (by omega) hzb).not_in hi

include hab

theorem Lost.lent_bytes (hmem : mem' = withSyndromes mem ptrs' (disks - 3) bytes) :
    mem' (ptrs (disks - 1) + i) = (syndrome mem₀ ptrs (disks - 3 + 1) i).byte ∧
      mem' (ptrs a + i) = (parity mem ptrs' (disks - 3 + 1) i).byte ∧
      mem' (ptrs b + i) = (syndrome mem ptrs' (disks - 3 + 1) i).byte := by
  refine ⟨?_, ?_, ?_⟩
  · rw [hm.keep_lent h hd ha hb hl hi hmem (by omega) (by omega) (by omega),
      ← withSyndromes_syndrome mem₀ ptrs (disks - 3) hi, show disks - 3 + 2 = disks - 1 by omega]
  · rw [← (h.separate_lent hd hab ha hb hl).withSyndromes_parity mem hi, hl.parity, hmem]
  · rw [← withSyndromes_syndrome mem ptrs' (disks - 3) hi, hl.syndrome, hmem]

end Lending

section TwoData

open GF256 Finset

variable {zeroPage n u disks bytes faila failb : ℕ} {ptrs : ℕ → ℕ} {mem mem₀ : Mem}
  (h : Layout zeroPage disks bytes ptrs) (hd : 4 ≤ disks) (hab : faila < failb)
  (hb : failb < disks - 2)

include h hd hab hb in
theorem raid62dataRecov_eq (hn : 0 < n * u) (hdvd : n * u ∣ bytes) :
    raid62dataRecov zeroPage n u disks bytes faila failb ptrs mem =
      (twoDataLoop (gfmul (exitbl (failb - faila))) (gfmul (invtbl (exptbl faila ^^^ exptbl failb)))
        bytes (ptrs (disks - 2)) (ptrs (disks - 1)) (ptrs faila) (ptrs failb)
        (withSyndromes mem (lendTwo zeroPage disks faila failb ptrs) (disks - 3) bytes), ptrs) := by
  have hread : update (update ptrs faila zeroPage) (disks - 2) (ptrs faila) failb = ptrs failb := by
    rw [update_of_ne (by omega), update_of_ne (by omega)]
  simp only [raid62dataRecov, hread]
  rw [← lendTwo, genSyndrome_eq hn hdvd
    (h.separate_lent hd hab.ne (by omega) hb (lent_lendTwo zeroPage faila ptrs hb))]
  refine Prod.ext rfl (funext fun z => ?_)
  simp only [lendTwo, update_apply]
  split_ifs <;> simp_all

theorem exitbl_eq {k : ℕ} (hk : k < 255) : exitbl k = (g ^ k + 1)⁻¹.byte := by
  rw [byte_inv, byte_add, byte_pow_g hk]
  rfl

theorem invtbl_exptbl {a b : ℕ} (ha : a < 255) (hb : b < 255) :
    invtbl (exptbl a ^^^ exptbl b) = (g ^ a + g ^ b)⁻¹.byte := by
  rw [byte_inv, byte_add, byte_pow_g ha, byte_pow_g hb]

theorem pow_g_add_one_ne_zero {k : ℕ} (hk : 0 < k) (hk' : k < 255) : g ^ k + 1 ≠ 0 := by
  intro h
  have h1 : g ^ k = g ^ 0 := by rw [pow_zero, CharTwo.add_eq_zero.mp h]
  have := pow_g_inj hk' (by omega) h1
  omega

variable (hm : Lost mem mem₀ disks bytes ptrs faila failb)

include h hd hab hb hm

theorem Lost.sum_lendTwo {i : ℕ} (hi : i < bytes) (hzero : mem₀ (zeroPage + i) = 0#8)
    (w : ℕ → GF256) :
    ∑ k ∈ range (disks - 3 + 1), w k * cell mem₀ ptrs k i =
      w faila * cell mem₀ ptrs faila i + w failb * cell mem₀ ptrs failb i +
        ∑ k ∈ range (disks - 3 + 1),
          w k * cell mem (lendTwo zeroPage disks faila failb ptrs) k i := by
  rw [Erasure.sum_without w (fun k => cell mem₀ ptrs k i) hab.ne (by omega) (by omega)]
  congr 1
  refine sum_congr rfl fun z hz => ?_
  have := mem_range.mp hz
  rw [hm.cell_lent h hd (by omega) hb (lent_lendTwo zeroPage faila ptrs hb) hi (by omega) hzero]

/-- The bytes that the loop computes are those that were lost. -/
theorem Lost.twoData_bytes (hd' : disks ≤ 255) {i : ℕ} (hi : i < bytes)
    (hzero : mem₀ (zeroPage + i) = 0#8) {mem' : Mem}
    (hmem : mem' = withSyndromes mem (lendTwo zeroPage disks faila failb ptrs) (disks - 3) bytes) :
    gfmul (exitbl (failb - faila)) (mem' (ptrs (disks - 2) + i) ^^^ mem' (ptrs faila + i)) ^^^
        gfmul (invtbl (exptbl faila ^^^ exptbl failb))
          (mem' (ptrs (disks - 1) + i) ^^^ mem' (ptrs failb + i)) = mem₀ (ptrs failb + i) ∧
      mem' (ptrs (disks - 2) + i) ^^^ mem' (ptrs faila + i) =
        mem₀ (ptrs faila + i) ^^^ mem₀ (ptrs failb + i) := by
  have hl := lent_lendTwo zeroPage faila ptrs hb
  obtain ⟨hq, hdp, hdq⟩ := hm.lent_bytes h hd hab.ne (by omega) hb hl hi hmem
  have hp : mem' (ptrs (disks - 2) + i) = (parity mem₀ ptrs (disks - 3 + 1) i).byte := by
    rw [hm.keep_lent h hd (by omega) hb hl hi hmem (by omega) (by omega) (by omega),
      ← (h.separate hd).withSyndromes_parity mem₀ hi, show disks - 3 + 1 = disks - 2 by omega]
  have hP := hm.sum_lendTwo h hd hab hb hi hzero fun _ => 1
  have hQ := hm.sum_lendTwo h hd hab hb hi hzero fun k => g ^ k
  simp only [one_mul] at hP
  rw [← parity, ← parity] at hP
  rw [← syndrome, ← syndrome] at hQ
  rw [hp, hq, hdp, hdq, exitbl_eq (by omega), invtbl_exptbl (by omega) (by omega), ← byte_add,
    ← byte_add, ← byte_mul, ← byte_mul, ← byte_add]
  have hpow : g ^ failb = g ^ faila * g ^ (failb - faila) := by
    rw [← pow_add, Nat.add_sub_cancel' hab.le]
  rw [hpow] at hQ ⊢
  constructor
  · rw [Erasure.recover_two (pow_g_ne_zero faila) (pow_g_add_one_ne_zero (by omega) (by omega))
      hP hQ]
    rfl
  · rw [hP, add_assoc, CharTwo.add_self_eq_zero, add_zero]
    rfl

theorem Lost.twoData_mem (hd' : disks ≤ 255) (hn : 0 < n * u) (hdvd : n * u ∣ bytes)
    (hzero : ∀ i < bytes, mem₀ (zeroPage + i) = 0#8) :
    raid62dataRecov zeroPage n u disks bytes faila failb ptrs mem =
      (withSyndromes mem₀ ptrs (disks - 3) bytes, ptrs) := by
  rw [raid62dataRecov_eq h hd hab hb hn hdvd, twoDataLoop_eq _ _
    (h.pairwise (l := [faila, failb, disks - 2, disks - 1]) (by simp; omega) (by simp; omega))]
  have hl := lent_lendTwo zeroPage faila ptrs hb
  have hbytes := fun i (hi : i < bytes) => hm.twoData_bytes h hd hab hb hd' hi (hzero i hi) rfl
  have hdata : ∀ z ≤ disks - 3, ∀ i < bytes,
      withSyndromes mem₀ ptrs (disks - 3) bytes (ptrs z + i) = mem₀ (ptrs z + i) :=
    fun z hz i hi => congrArg byte ((h.separate hd).cell_eq hz hi le.refl)
  refine congrArg (·, ptrs) (hm.overwritten hl (fun i hi => ?_) fun i hi => ?_)
  · rw [(hbytes i hi).1, (hbytes i hi).2, hdata _ (by omega) i hi,
      BitVec.xor_comm (mem₀ (ptrs faila + i)), ← BitVec.xor_assoc, BitVec.xor_self, BitVec.zero_xor]
  · rw [(hbytes i hi).1, hdata _ (by omega) i hi]

end TwoData

section DataP

open GF256 Finset

variable {zeroPage n u disks bytes faila : ℕ} {ptrs : ℕ → ℕ} {mem mem₀ : Mem}
  (h : Layout zeroPage disks bytes ptrs) (hd : 4 ≤ disks) (ha : faila < disks - 2)

include h hd ha

theorem raid6DatapRecov_eq (hn : 0 < n * u) (hdvd : n * u ∣ bytes) :
    raid6DatapRecov zeroPage n u disks bytes faila ptrs mem =
      (dataPLoop (gfmul (invtbl (exptbl faila))) bytes (ptrs (disks - 2)) (ptrs (disks - 1))
        (ptrs faila) (withSyndromes mem (lendOne zeroPage disks faila ptrs) (disks - 3) bytes),
        ptrs) := by
  simp only [raid6DatapRecov]
  rw [← lendOne, genSyndrome_eq hn hdvd
    (h.separate_lent hd ha.ne' le_rfl ha (lent_lendOne zeroPage ptrs ha))]
  refine Prod.ext rfl (funext fun z => ?_)
  simp only [lendOne, update_apply]
  split_ifs <;> simp_all

variable (hm : Lost mem mem₀ disks bytes ptrs (disks - 2) faila)

include hm

theorem Lost.sum_lendOne {i : ℕ} (hi : i < bytes) (hzero : mem₀ (zeroPage + i) = 0#8)
    (w : ℕ → GF256) :
    ∑ k ∈ range (disks - 3 + 1), w k * cell mem₀ ptrs k i = w faila * cell mem₀ ptrs faila i +
      ∑ k ∈ range (disks - 3 + 1), w k * cell mem (lendOne zeroPage disks faila ptrs) k i := by
  rw [Erasure.sum_without_one w (fun k => cell mem₀ ptrs k i) (show faila < _ by omega)]
  congr 1
  refine sum_congr rfl fun z hz => ?_
  have := mem_range.mp hz
  rw [hm.cell_lent h hd le_rfl ha (lent_lendOne zeroPage ptrs ha) hi (by omega) hzero]
  simp only [Erasure.without, or_self, show z ≠ disks - 2 by omega, false_or]

/-- The loop computes the lost byte and what is missing of the parity. -/
theorem Lost.dataP_bytes (hd' : disks ≤ 255) {i : ℕ} (hi : i < bytes)
    (hzero : mem₀ (zeroPage + i) = 0#8) {mem' : Mem}
    (hmem : mem' = withSyndromes mem (lendOne zeroPage disks faila ptrs) (disks - 3) bytes) :
    gfmul (invtbl (exptbl faila)) (mem' (ptrs (disks - 1) + i) ^^^ mem' (ptrs faila + i)) =
        mem₀ (ptrs faila + i) ∧
      mem' (ptrs (disks - 2) + i) ^^^ mem₀ (ptrs faila + i) =
        withSyndromes mem₀ ptrs (disks - 3) bytes (ptrs (disks - 2) + i) := by
  have hl := lent_lendOne zeroPage ptrs ha
  obtain ⟨hq, hp, hdq⟩ := hm.lent_bytes h hd ha.ne' le_rfl ha hl hi hmem
  have hcells := hm.sum_lendOne h hd ha hi hzero
  constructor
  · have hinv : invtbl (exptbl faila) = (g ^ faila)⁻¹.byte := by
      rw [byte_inv, byte_pow_g (by omega)]
    rw [hq, hdq, hinv, ← byte_add, ← byte_mul, syndrome, syndrome,
      Erasure.recover_one (pow_g_ne_zero faila) (hcells fun k => g ^ k)]
    rfl
  · have hP := hcells fun _ => 1
    simp only [one_mul] at hP
    have hpar := (h.separate hd).withSyndromes_parity mem₀ hi
    rw [show disks - 3 + 1 = disks - 2 by omega] at hpar hp hP
    rw [hpar, parity, hP, hp, BitVec.xor_comm]
    rfl

theorem Lost.dataP_mem (hd' : disks ≤ 255) (hn : 0 < n * u) (hdvd : n * u ∣ bytes)
    (hzero : ∀ i < bytes, mem₀ (zeroPage + i) = 0#8) :
    raid6DatapRecov zeroPage n u disks bytes faila ptrs mem =
      (withSyndromes mem₀ ptrs (disks - 3) bytes, ptrs) := by
  rw [raid6DatapRecov_eq h hd ha hn hdvd, dataPLoop_eq _
    (h.pairwise (l := [faila, disks - 2, disks - 1]) (by simp; omega) (by simp; omega))]
  have hl := lent_lendOne zeroPage ptrs ha
  have hbytes := fun i (hi : i < bytes) => hm.dataP_bytes h hd ha hd' hi (hzero i hi) rfl
  refine congrArg (·, ptrs) (hm.overwritten hl (fun i hi => ?_) fun i hi => ?_)
  · rw [(hbytes i hi).1, (hbytes i hi).2]
  · rw [(hbytes i hi).1]
    exact (congrArg byte ((h.separate hd).cell_eq (by omega) hi le.refl)).symm

end DataP

/-- Any two blocks of data, or one of them and the parity, come back as they were when the syndromes
were computed, and nothing else changes, as long as a block is no longer than the page of zeros. -/
theorem raid6_recovers (zeroPage n u disks bytes : ℕ) (ptrs : ℕ → ℕ) (mem₀ : Mem) (hd : 4 ≤ disks)
    (hd' : disks ≤ 255) (hn : 0 < n * u) (hdvd : n * u ∣ bytes) (hpage : bytes ≤ pageSize)
    (h : Layout zeroPage disks bytes ptrs) (hzero : ∀ i < pageSize, mem₀ (zeroPage + i) = 0#8) :
    (∀ z < disks - 2, ∀ i < bytes,
      genSyndrome n u disks bytes ptrs mem₀ (ptrs z + i) = mem₀ (ptrs z + i)) ∧
    (∀ faila failb mem, faila < failb → failb < disks - 2 →
      (∀ x, ¬InBlock (ptrs faila) bytes x → ¬InBlock (ptrs failb) bytes x →
        mem x = genSyndrome n u disks bytes ptrs mem₀ x) →
      raid62dataRecov zeroPage n u disks bytes faila failb ptrs mem =
        (genSyndrome n u disks bytes ptrs mem₀, ptrs)) ∧
    ∀ faila mem, faila < disks - 2 →
      (∀ x, ¬InBlock (ptrs faila) bytes x → ¬InBlock (ptrs (disks - 2)) bytes x →
        mem x = genSyndrome n u disks bytes ptrs mem₀ x) →
      raid6DatapRecov zeroPage n u disks bytes faila ptrs mem =
        (genSyndrome n u disks bytes ptrs mem₀, ptrs) := by
  have hpages : ∀ i < bytes, mem₀ (zeroPage + i) = 0#8 := fun i hi => hzero i (by omega)
  rw [genSyndrome_eq hn hdvd (h.separate hd)]
  refine ⟨fun z hz i hi => ?_, fun faila failb mem hab hb hm => ?_, fun faila mem ha hm => ?_⟩
  · exact congrArg GF256.byte ((h.separate hd).cell_eq (by omega) hi le.refl)
  · exact Lost.twoData_mem h hd hab hb hm hd' hn hdvd hpages
  · exact Lost.dataP_mem h hd ha (fun x hp hdata => hm x hdata hp) hd' hn hdvd hpages

def farBlocks (i : ℕ) : ℕ := 10000 * (i + 1)

/-- A memory whose page of zeros is followed by another byte. -/
def onePastPage : Mem := fun x => if x = pageSize then 1#8 else 0#8

theorem farBlocks_layout {disks bytes : ℕ} (h : bytes ≤ 10000) :
    Layout 0 disks bytes farBlocks where
  blocks i _ j _ hij := by
    unfold Apart farBlocks
    omega
  page i _ := by
    unfold Apart farBlocks
    omega

def numbered : Mem := fun x => if x < pageSize then 0#8 else BitVec.ofNat 8 x

/-- The blocks of the first two disks are overwritten. -/
def wiped (mem : Mem) : Mem := fun x =>
  if 10000 ≤ x ∧ x < 10032 ∨ 20000 ≤ x ∧ x < 20032 then 0xff#8 else mem x

theorem raid6_recovers_four_disks :
    let good := genSyndrome 8 2 4 32 farBlocks numbered
    good (farBlocks 0 + 1) = 0x11#8 ∧ wiped good (farBlocks 0 + 1) = 0xff#8 ∧
      raid62dataRecov 0 8 2 4 32 0 1 farBlocks (wiped good) = (good, farBlocks) := by
  intro good
  have h := raid6_recovers 0 8 2 4 32 farBlocks numbered (by decide) (by decide) (by decide)
    (by decide) (by decide) (farBlocks_layout (by decide)) fun i hi => if_pos (by omega)
  exact ⟨(h.1 0 (by decide) 1 (by decide)).trans (by decide), if_pos (.inl (by decide)),
    h.2.1 0 1 _ (by decide) (by decide) fun x h0 h1 =>
      if_neg fun hx => hx.elim h0 h1⟩

/-- In blocks that are longer than a page the byte behind the page of zeros is taken for one of the
lost block. -/
theorem long_block_not_recovered :
    Layout 0 4 4104 farBlocks ∧ (∀ i < pageSize, onePastPage (0 + i) = 0#8) ∧
      genSyndrome 8 1 4 4104 farBlocks onePastPage (farBlocks 1 + 4096) = 0#8 ∧
      (raid62dataRecov 0 8 1 4 4104 0 1 farBlocks
        (genSyndrome 8 1 4 4104 farBlocks onePastPage)).1 (farBlocks 1 + 4096) = 1#8 := by
  have hlay : Layout 0 4 4104 farBlocks := farBlocks_layout (by decide)
  refine ⟨hlay, fun i hi => if_neg (by unfold pageSize at *; omega), ?_, ?_⟩
  · decide +kernel
  · decide +kernel

end LinuxKernel.Raid6
