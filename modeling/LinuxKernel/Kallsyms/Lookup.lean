import Mathlib.Algebra.Group.Nat.Defs
import Mathlib.Order.Bounds.Basic
import Mathlib.Order.Fin.Basic

/-! # The symbol of an address

`get_symbol_pos` looks for the last symbol that does not start behind an address. Its position is
also taken for the answer whether there is one, so a lookup of the first symbol fails.
-/

namespace LinuxKernel.Kallsyms

open List

section Model

abbrev Addr := Fin (2 ^ 64)

/-- The table of addresses, the sections, and what other parts of the kernel say about an
address. -/
structure Kernel where
  addresses : ℕ → Addr
  numSyms : ℕ
  stext : Addr
  etext : Addr
  sinittext : Addr
  einittext : Addr
  last : Addr
  allVar : Bool
  archIsKernelText : Addr → Bool
  inGateAreaNoMm : Addr → Bool
  moduleAddressLookup : Addr → Option (Addr × Addr)

variable (k : Kernel) (addr : Addr)

def isKernelInittext : Bool := k.sinittext ≤ addr && addr ≤ k.einittext

def isKernelText : Bool :=
  k.stext ≤ addr && addr ≤ k.etext || k.archIsKernelText addr || k.inGateAreaNoMm addr

def isKernel : Bool := k.stext ≤ addr && addr ≤ k.last || k.inGateAreaNoMm addr

def isKsymAddr : Bool :=
  if k.allVar then isKernel k addr else isKernelText k addr || isKernelInittext k addr

def search (low high : ℕ) : ℕ :=
  if 1 < high - low then
    let mid := low + (high - low) / 2
    if k.addresses mid ≤ addr then search mid high else search low mid
  else low
termination_by high - low

def firstAlias : ℕ → ℕ
  | 0 => 0
  | low + 1 => if k.addresses low = k.addresses (low + 1) then firstAlias low else low + 1

def sectionEnd : Addr :=
  if isKernelInittext k addr then k.einittext else if k.allVar then k.last else k.etext

/-- The position, the size of the symbol and the offset of the address. -/
def getSymbolPos : ℕ × Addr × Addr :=
  let low := firstAlias k (search k addr 0 k.numSyms)
  let symbolStart := k.addresses low
  let next := (range' (low + 1) (k.numSyms - (low + 1))).find? fun i => symbolStart < k.addresses i
  let symbolEnd := next.elim 0 k.addresses
  let symbolEnd := if symbolEnd = 0 then sectionEnd k addr else symbolEnd
  (low, symbolEnd - symbolStart, addr - symbolStart)

/-- The answer, and what was stored for the size and the offset. -/
def kallsymsLookupSizeOffset : Bool × Option (Addr × Addr) :=
  if isKsymAddr k addr then
    let (pos, res) := getSymbolPos k addr
    (pos ≠ 0, some res)
  else ((k.moduleAddressLookup addr).isSome, k.moduleAddressLookup addr)

end Model

variable {k : Kernel} {addr : Addr} {low high : ℕ}

section Search

def Kernel.Sorted (k : Kernel) : Prop :=
  ∀ i j, i ≤ j → j < k.numSyms → k.addresses i ≤ k.addresses j

/-- The last symbol that does not start behind the address is at `low`. -/
structure Last (k : Kernel) (addr : Addr) (low : ℕ) : Prop where
  lt : low < k.numSyms
  le : k.addresses low ≤ addr
  gt : ∀ i, low < i → i < k.numSyms → addr < k.addresses i

theorem search_last (hs : k.Sorted) (hlow : k.addresses low ≤ addr) (hlt : low < high)
    (hhigh : high ≤ k.numSyms) (hgt : ∀ i, high ≤ i → i < k.numSyms → addr < k.addresses i) :
    Last k addr (search k addr low high) := by
  fun_induction search with
  | case1 low high h mid hle ih => exact ih hle (by omega) hhigh hgt
  | case2 low high h mid hle ih =>
    refine ih hlow (by omega) (by omega) fun i hi hi' => ?_
    exact (not_le.mp hle).trans_le (hs mid i hi hi')
  | case3 low high h => exact ⟨by omega, hlow, fun i hi hi' => hgt i (by omega) hi'⟩

theorem firstAlias_spec (hs : k.Sorted) (hlow : low < k.numSyms) :
    firstAlias k low ≤ low ∧ k.addresses (firstAlias k low) = k.addresses low ∧
      ∀ i < firstAlias k low, k.addresses i < k.addresses low := by
  induction low with
  | zero => exact ⟨le_rfl, rfl, fun i hi => absurd hi (Nat.not_lt_zero i)⟩
  | succ low ih =>
    rw [firstAlias]
    split
    · next heq =>
      obtain ⟨hle, hsame, hbefore⟩ := ih (by omega)
      exact ⟨by omega, hsame.trans heq, heq ▸ hbefore⟩
    · next hne =>
      refine ⟨le_rfl, rfl, fun i hi => ?_⟩
      exact (hs i low (by omega) (by omega)).trans_lt ((hs low _ (by omega) hlow).lt_of_ne hne)

end Search

section Lookup

/-- The symbol is the first one at the greatest address that is not behind `addr`, and it ends at
the next address, or with the section. -/
structure Found (k : Kernel) (addr : Addr) (low : ℕ) (size offset : Addr) : Prop where
  lt : low < k.numSyms
  first : ∀ i < low, k.addresses i ≠ k.addresses low
  greatest : IsGreatest {a | a ≤ addr ∧ ∃ i < k.numSyms, k.addresses i = a} (k.addresses low)
  offset_eq : offset = addr - k.addresses low
  size_eq : ∃ e, size = e - k.addresses low ∧
    (IsLeast {a | k.addresses low < a ∧ ∃ i < k.numSyms, k.addresses i = a} e ∨
      e = sectionEnd k addr ∧ ∀ i < k.numSyms, k.addresses i ≤ k.addresses low)

theorem symbolEnd_spec (hs : k.Sorted) (hlow : low < k.numSyms) {e : Addr}
    (he : e = ((range' (low + 1) (k.numSyms - (low + 1))).find? fun i =>
      k.addresses low < k.addresses i).elim 0 k.addresses) :
    IsLeast {a | k.addresses low < a ∧ ∃ i < k.numSyms, k.addresses i = a} e ∨
      e = 0 ∧ ∀ i < k.numSyms, k.addresses i ≤ k.addresses low := by
  have hbehind i (hi : k.addresses low < k.addresses i) (hlt : i < k.numSyms) : low < i := by
    by_contra hle
    exact hi.not_ge (hs i low (by omega) hlow)
  cases h : (range' (low + 1) (k.numSyms - (low + 1))).find? fun i =>
    k.addresses low < k.addresses i with
  | none =>
    refine .inr ⟨by rw [he, h]; rfl, fun i hi => not_lt.mp fun hlt => ?_⟩
    have hlow := hbehind i hlt hi
    simpa [hlt] using find?_eq_none.mp h i (by rw [mem_range'_1]; omega)
  | some j =>
    obtain ⟨hj, hmem, hmin⟩ := find?_range'_eq_some.mp h
    rw [mem_range'_1] at hmem
    rw [h] at he
    refine .inl ⟨he ▸ ⟨by simpa using hj, j, by omega, rfl⟩, ?_⟩
    rintro _ ⟨hlt, i, hi, rfl⟩
    have hlow := hbehind i hlt hi
    rw [he]
    refine hs j i (not_lt.mp fun hij => ?_) hi
    simpa [hlt] using hmin i hlow hij

theorem getSymbolPos_found (hs : k.Sorted) (hnum : 0 < k.numSyms) (hle : k.addresses 0 ≤ addr) :
    ∃ low size offset, getSymbolPos k addr = (low, size, offset) ∧
      Found k addr low size offset := by
  obtain ⟨hlt, hstart, hgt⟩ :=
    search_last hs hle hnum le_rfl fun i hi hi' => by omega
  obtain ⟨halias, hsame, hfirst⟩ := firstAlias_spec hs hlt
  refine ⟨_, _, _, rfl, by omega, ?_, ?_, rfl, ?_⟩
  · exact fun i hi => hsame ▸ (hfirst i hi).ne
  · refine ⟨⟨hsame ▸ hstart, _, by omega, rfl⟩, ?_⟩
    rintro _ ⟨ha, i, hi, rfl⟩
    rw [hsame]
    refine hs i _ (not_lt.mp fun hlast => ?_) hlt
    exact (hgt i hlast hi).not_ge ha
  · refine ⟨_, rfl, ?_⟩
    rcases symbolEnd_spec hs (halias.trans_lt hlt) rfl with hleast | ⟨hzero, hlast⟩
    · rw [if_neg (Fin.pos_iff_ne_zero.mp ((Fin.zero_le _).trans_lt hleast.1.1))]
      exact .inl hleast
    · rw [if_pos hzero]
      exact .inr ⟨rfl, hlast⟩

/-- Success is reported exactly for the addresses that are not those of the first symbol. -/
theorem kallsyms_lookup_iff (hs : k.Sorted) (hnum : 0 < k.numSyms) (hle : k.addresses 0 ≤ addr)
    (hk : isKsymAddr k addr = true) :
    (∃ low size offset, getSymbolPos k addr = (low, size, offset) ∧ Found k addr low size offset ∧
      kallsymsLookupSizeOffset k addr = (true, some (size, offset))) ↔
      ∃ i < k.numSyms, k.addresses 0 < k.addresses i ∧ k.addresses i ≤ addr := by
  obtain ⟨low, size, offset, hpos, hfound⟩ := getSymbolPos_found hs hnum hle
  simp only [kallsymsLookupSizeOffset, hk, hpos]
  constructor
  · rintro ⟨_, _, _, ⟨⟩, -, hok⟩
    have hlow : low ≠ 0 := by simpa using hok
    refine ⟨low, hfound.lt, ?_, hfound.greatest.1.1⟩
    exact (hs 0 low (by omega) hfound.lt).lt_of_ne (hfound.first 0 (by omega))
  · rintro ⟨i, hi, hlt, hi'⟩
    refine ⟨_, _, _, rfl, hfound, ?_⟩
    have hlow : low ≠ 0 := by
      rintro rfl
      exact hlt.not_ge (hfound.greatest.2 ⟨hi', i, hi, rfl⟩)
    simp [hlow]

/-- A kernel with symbols at 0 and at 16. -/
def twoSymbols : Kernel :=
  ⟨fun i => if i = 0 then 0 else 16, 2, 0, 32, 0, 0, 32, false, fun _ => false, fun _ => false,
    fun _ => none⟩

theorem kallsyms_lookup_second :
    ∃ low size offset, getSymbolPos twoSymbols 20 = (low, size, offset) ∧
      Found twoSymbols 20 low size offset ∧
      kallsymsLookupSizeOffset twoSymbols 20 = (true, some (size, offset)) := by
  have hs : twoSymbols.Sorted := fun i j hij hj => by
    have hj : j < 2 := hj
    obtain rfl | ⟨rfl, rfl⟩ : i = j ∨ i = 0 ∧ j = 1 := by omega
    · exact le_rfl
    · decide
  exact (kallsyms_lookup_iff hs (by decide) (by decide) (by decide)).mpr
    ⟨1, by decide, by decide, by decide⟩

theorem first_symbol_not_found :
    isKsymAddr twoSymbols 4 = true ∧ twoSymbols.addresses 0 ≤ 4 ∧
      kallsymsLookupSizeOffset twoSymbols 4 = (false, some (16, 4)) := by
  have hsearch : search twoSymbols 4 0 2 = 0 := by
    rw [search, if_pos (by decide), if_neg (by decide), search, if_neg (by decide)]
  refine ⟨by decide, by decide, ?_⟩
  rw [kallsymsLookupSizeOffset, getSymbolPos,
    show search twoSymbols 4 0 twoSymbols.numSyms = 0 from hsearch]
  decide

end Lookup

end LinuxKernel.Kallsyms
