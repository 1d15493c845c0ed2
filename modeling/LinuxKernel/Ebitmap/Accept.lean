import LinuxKernel.Ebitmap.RoundTrip

/-! # What the reader of a bitmap accepts

The nodes that `ebitmap_read` builds from any file are in order. It does not ask that a word of the
file has a bit or that the bitmap ends with its last word, so that two files with the same bits can
be told apart.
-/

namespace LinuxKernel.Selinux

open List Bitmap LittleEndian

variable {a : Arch} {alloc : ℕ → Bool} {ns ns' : List (Node a)} {cur : Option (Node a)}
  {n n' : Node a} {e : Ebitmap a} {file rest : List UInt8} {rs : List (ℕ × ℕ)}

section File

/-- The words of a file behind its header, each one with the number of its first bit. -/
def records : ℕ → List UInt8 → List (ℕ × ℕ)
  | 0, _ => []
  | count + 1, fp =>
      (leValue (fp.take 4), leValue ((fp.drop 4).take 8)) :: records count (fp.drop 12)

variable (a)

/-- The first bit of the node that a bit belongs to. -/
def nodeStart (bit : ℕ) : ℕ := bit - bit % a.size

/-- The end of a bitmap by the header of its file, rounded up to the end of a node. -/
def headerEnd (fp : List UInt8) : ℕ :=
  nodeStart a ((leValue ((fp.drop 4).take 4) + (a.size - 1)) % 2 ^ 32)

/-- Of the words of the file that belong to one node some word has a bit, and the bitmap ends with
the node of the last word. A file that ends at bit 0 is read no further than its header. -/
def FileTight (fp : List UInt8) : Prop :=
  let rs := records (leValue ((fp.drop 8).take 4)) (fp.drop 12)
  headerEnd a fp = 0 ∨
    (∀ r ∈ rs, ∃ r' ∈ rs, nodeStart a r'.1 = nodeStart a r.1 ∧ r'.2 ≠ 0) ∧
      rs.getLast?.elim 0 (fun r => nodeStart a r.1 + a.size) = headerEnd a fp

end File

/-- The nodes start at increasing multiples of their size. -/
def InOrder (ns : List (Node a)) : Prop :=
  ns.Pairwise (fun n n' => n.startbit < n'.startbit) ∧ ∀ n ∈ ns, a.size ∣ n.startbit

theorem inOrder_concat : InOrder (ns ++ [n]) ↔
    InOrder ns ∧ a.size ∣ n.startbit ∧ ∀ m ∈ ns, m.startbit < n.startbit := by
  simp only [InOrder, pairwise_append, forall_mem_append, forall_mem_singleton, pairwise_singleton,
    true_and]
  tauto

theorem storeMap_startbit {fuel index map : ℕ} (h : storeMap fuel n index map = some n') :
    n'.startbit = n.startbit := by
  induction fuel generalizing n index map with
  | zero => cases h
  | succ fuel ih =>
    rw [storeMap] at h
    split_ifs at h
    · cases h
      rfl
    · exact (ih h).trans rfl

theorem Node.exists_has_iff : (∃ b, n.Has b) ↔ ∃ i < a.size, testBit n.maps i = true := by
  constructor
  · rintro ⟨b, hle, hlt, hb⟩
    exact ⟨b - n.startbit, by omega, hb⟩
  · rintro ⟨i, hi, hb⟩
    exact ⟨n.startbit + i, by omega, by omega, by simpa using hb⟩

/-- A word of the file that has a bit leaves a bit in the node, even where it replaces another
word: the last part of it that is stored is not zero. -/
theorem storeMap_has {fuel index map : ℕ} (h : storeMap fuel n index map = some n') :
    (∃ b, n'.Has b) ↔ (∃ b, n.Has b) ∨ map ≠ 0 := by
  induction fuel generalizing n index map with
  | zero => cases h
  | succ fuel ih =>
    rw [storeMap] at h
    split_ifs at h with hmap hindex
    · cases h
      simp [hmap]
    · obtain ⟨hw, -, -, hhalf, -⟩ := arch_spec a
      rw [← Nat.shiftRight_add, hhalf] at h
      refine iff_of_true ((ih h).mpr ?_) (.inr hmap)
      by_cases hshift : map >>> a.unitSize = 0
      · left
        have hlt : map < 2 ^ a.unitSize := by
          rwa [Nat.shiftRight_eq_div_pow, Nat.div_eq_zero_iff_lt (Nat.two_pow_pos _)] at hshift
        obtain ⟨i, hi⟩ := Nat.exists_testBit_of_ne_zero hmap
        have hiw : i < a.unitSize :=
          (Nat.pow_lt_pow_iff_right (by decide)).mp ((Nat.ge_two_pow_of_testBit hi).trans_lt hlt)
        have hroom : a.unitSize * index + a.unitSize ≤ a.size := by
          rw [size_eq, ← Nat.mul_succ]
          exact Nat.mul_le_mul_left _ (by omega)
        refine Node.exists_has_iff.mpr ⟨a.unitSize * index + i, by omega, ?_⟩
        have hdiv : (a.unitSize * index + i) / a.unitSize = index := by
          rw [Nat.mul_add_div hw, Nat.div_eq_of_lt hiw, add_zero]
        rw [testBit_setMap (by omega), if_pos hdiv, Nat.mul_add_mod, Nat.mod_eq_of_lt hiw,
          BitVec.getLsbD_ofNat]
        simp [hiw, hi]
      · exact .inr hshift

/-- A new node comes behind the current one, and otherwise the current one is taken. -/
theorem readNode_inOrder {alloc : Bool} {s : ℕ} (h : InOrder (ns ++ cur.toList))
    (hcur : cur = none → ns = []) (hread : readNode alloc s ns cur = .ok (ns', n)) :
    InOrder (ns' ++ [n]) ∧ n.startbit = nodeStart a s ∧
      (ns ++ cur.toList = ns' ∧ ¬ (∃ b, n.Has b) ∨ ns ++ cur.toList = ns' ++ [n]) := by
  rw [readNode] at hread
  split at hread
  · rename_i hnone
    split_ifs at hread
    cases hread
    refine ⟨inOrder_concat.mpr ⟨h, Nat.dvd_sub_mod s, fun m hm => ?_⟩, rfl,
      .inl ⟨rfl, not_exists.mpr fun _ => not_has_zero _⟩⟩
    cases cur with
    | none => simp [hcur rfl] at hm
    | some c =>
      have hend : c.startbit + a.size ≤ s := by simpa using hnone
      have hmod := Nat.mod_lt s (size_pos a)
      have hle : m.startbit ≤ c.startbit := by
        rcases List.mem_append.mp hm with hm | hm
        · exact ((inOrder_concat.mp h).2.2 m hm).le
        · rw [mem_singleton.mp hm]
      simp only [Node.zero]
      omega
  · rename_i m hsome
    split_ifs at hread with hlt
    cases hread
    obtain ⟨rfl, hend⟩ := Option.filter_eq_some_iff.mp hsome
    have hdvd := (inOrder_concat.mp h).2.1
    exact ⟨h, eq_sub_mod hdvd (by omega) (by simpa using hend), .inr rfl⟩

/-- The nodes that were built from some words of a file. -/
structure Built (rs : List (ℕ × ℕ)) (ns : List (Node a)) : Prop where
  inOrder : InOrder ns
  starts : ∀ s, (∃ n ∈ ns, n.startbit = s) ↔ ∃ r ∈ rs, nodeStart a r.1 = s
  has : ∀ n ∈ ns, (∃ b, n.Has b) ↔ ∃ r ∈ rs, nodeStart a r.1 = n.startbit ∧ r.2 ≠ 0
  last : endOf ns = rs.getLast?.elim 0 fun r => nodeStart a r.1 + a.size

theorem Built.nil : Built (a := a) [] [] := ⟨⟨.nil, by simp⟩, by simp, by simp, rfl⟩

theorem Built.concat {s map : ℕ} (h : Built rs (ns ++ cur.toList)) (hord : InOrder (ns' ++ [n]))
    (hstart : n.startbit = nodeStart a s)
    (hns : ns ++ cur.toList = ns' ∧ ¬ (∃ b, n.Has b) ∨ ns ++ cur.toList = ns' ++ [n])
    (hstart' : n'.startbit = n.startbit) (hhas : (∃ b, n'.Has b) ↔ (∃ b, n.Has b) ∨ map ≠ 0) :
    Built (rs ++ [(s, map)]) (ns' ++ [n']) := by
  obtain ⟨hord', hdvd, hlt⟩ := inOrder_concat.mp hord
  -- the words of the node so far
  have hn : (∃ b, n.Has b) ↔ ∃ r ∈ rs, nodeStart a r.1 = n.startbit ∧ r.2 ≠ 0 := by
    rcases hns with ⟨hns, hempty⟩ | hns
    · refine iff_of_false hempty fun ⟨r, hr, hrn, _⟩ => ?_
      obtain ⟨m, hm, hmr⟩ := (h.starts _).mpr ⟨r, hr, hrn⟩
      exact (hlt m (hns ▸ hm)).ne hmr
    · exact h.has n (by simp [hns])
  have hold : ∀ m ∈ ns', m ∈ ns ++ cur.toList := by
    rcases hns with ⟨hns, -⟩ | hns <;> simp +contextual [hns]
  refine ⟨inOrder_concat.mpr ⟨hord', hstart' ▸ hdvd, hstart' ▸ hlt⟩,
    fun t => ?_, fun m hm => ?_, ?_⟩
  · have hmem : (∃ m ∈ ns' ++ [n'], m.startbit = t) ↔
        (∃ m ∈ ns ++ cur.toList, m.startbit = t) ∨ n.startbit = t := by
      rcases hns with ⟨hns, -⟩ | hns <;> simp [hns, or_and_right, exists_or, hstart']
    rw [hmem, h.starts]
    simp [or_and_right, exists_or, hstart]
  · rcases List.mem_append.mp hm with hm' | hm'
    · rw [h.has m (hold m hm')]
      have hne : nodeStart a s ≠ m.startbit := hstart ▸ (hlt m hm').ne'
      simp [or_and_right, exists_or, hne]
    · rw [mem_singleton.mp hm', hhas, hn, hstart']
      simp [or_and_right, exists_or, hstart]
  · simp [endOf, hstart', hstart]

theorem nextEntry_eq_some {k x : ℕ} (h : nextEntry file k = some (x, rest)) :
    x = leValue (file.take k) ∧ rest = file.drop k := by
  rw [nextEntry] at h
  split_ifs at h
  cases h
  exact ⟨rfl, rfl⟩

theorem readLoop_built {highbit count i : ℕ} (h : Built rs (ns ++ cur.toList))
    (hcur : cur = none → ns = [])
    (hread : readLoop highbit alloc count i ns cur file = some (.ok e rest)) :
    Built (rs ++ records count file) e.nodes ∧ e.highbit = highbit := by
  induction count generalizing i ns cur file rs with
  | zero =>
    cases hread
    exact ⟨by simpa [records] using h, rfl⟩
  | succ count ih =>
    rw [readLoop] at hread
    split at hread
    · cases hread
    · rename_i s fp hs
      split_ifs at hread <;> try cases hread
      split at hread
      · cases hread
      · rename_i ns' n hnode
        split at hread
        · cases hread
        · rename_i map fp' hmap
          obtain ⟨n', hstore, hloop⟩ := Option.bind_eq_some_iff.mp hread
          obtain ⟨hord, hstart, hns⟩ := readNode_inOrder h.inOrder hcur hnode
          have hnext : Built (rs ++ [(s, map)]) (ns' ++ (some n').toList) :=
            h.concat hord hstart hns (storeMap_startbit hstore) (storeMap_has hstore)
          obtain ⟨rfl, rfl⟩ := nextEntry_eq_some hs
          obtain ⟨rfl, rfl⟩ := nextEntry_eq_some hmap
          simpa [records] using ih hnext (by simp) hloop

theorem Built.canonical_iff (h : Built rs e.nodes) : Canonical e ↔
    (∀ r ∈ rs, ∃ r' ∈ rs, nodeStart a r'.1 = nodeStart a r.1 ∧ r'.2 ≠ 0) ∧
      rs.getLast?.elim 0 (fun r => nodeStart a r.1 + a.size) = e.highbit := by
  constructor
  · intro hc
    refine ⟨fun r hr => ?_, h.last.symm.trans hc.highbit.symm⟩
    obtain ⟨n, hn, hstart⟩ := (h.starts _).mpr ⟨r, hr, rfl⟩
    rw [← hstart]
    exact (h.has n hn).mp (hc.chain.nonempty n hn)
  · rintro ⟨hne, hend⟩
    refine ⟨⟨h.inOrder.1, h.inOrder.2, fun n hn => ?_⟩, (h.last.trans hend).symm⟩
    obtain ⟨r, hr, hstart⟩ := (h.starts _).mp ⟨n, hn, rfl⟩
    rw [h.has n hn, ← hstart]
    exact hne r hr

theorem ebitmapRead_canonical_iff (h : ebitmapRead a alloc file = some (.ok e rest)) :
    Canonical e ↔ FileTight a file := by
  rw [ebitmapRead] at h
  simp only at h
  split_ifs at h with _ _ hend <;> try cases h
  · exact iff_of_true canonical_init (.inl hend)
  · obtain ⟨hb, hhigh⟩ := readLoop_built (show Built [] ([] ++ none.toList) from .nil)
      (fun _ => rfl) h
    rw [hb.canonical_iff, hhigh]
    exact ⟨.inr, fun h => h.resolve_left hend⟩

/-- Bitmaps that were read are canonical, and the tests are those of the sets of bits, exactly if no
node of the two files is without a bit and each file ends with its last node. -/
theorem ebitmap_read_canonical_iff {alloc₁ alloc₂ : ℕ → Bool} {file₁ file₂ rest₁ rest₂ : List UInt8}
    {e₁ e₂ : Ebitmap a} (h₁ : ebitmapRead a alloc₁ file₁ = some (.ok e₁ rest₁))
    (h₂ : ebitmapRead a alloc₂ file₂ = some (.ok e₂ rest₂)) :
    (Canonical e₁ ∧ Canonical e₂ ∧
      (ebitmapCmp e₁ e₂ = true ↔ ∀ b, Mem e₁.nodes b ↔ Mem e₂.nodes b) ∧
      (ebitmapContains e₁ e₂ = true ↔ ∀ b, Mem e₂.nodes b → Mem e₁.nodes b)) ↔
    FileTight a file₁ ∧ FileTight a file₂ := by
  rw [← ebitmapRead_canonical_iff h₁, ← ebitmapRead_canonical_iff h₂]
  exact ⟨fun h => ⟨h.1, h.2.1⟩,
    fun ⟨hc₁, hc₂⟩ => ⟨hc₁, hc₂, ebitmapCmp_iff hc₁ hc₂, ebitmapContains_iff hc₁ hc₂⟩⟩

/-- The file of `threeBits`, whose words belong to two nodes. -/
def threeWords : List UInt8 := header 192 3 ++ putWord 0 1 ++ putWord 64 2 ++ putWord 128 4

theorem ebitmap_read_canonical_three :
    ebitmapRead .bits64 (fun _ => true) threeWords = some (.ok threeBits []) ∧
      Canonical threeBits ∧ ebitmapContains threeBits threeBits = true := by
  have hread : ebitmapRead .bits64 (fun _ => true) threeWords = some (.ok threeBits []) := by rfl
  have htight : FileTight .bits64 threeWords := by
    unfold FileTight
    decide
  have h := (ebitmap_read_canonical_iff hread hread).mpr ⟨htight, htight⟩
  exact ⟨hread, h.1, h.2.2.2.mpr fun _ => id⟩

/-- Two files without any bit: one ends at bit 0, the other one at bit 64. -/
theorem empty_bitmaps_told_apart :
    ∃ e₁ e₂ : Ebitmap .bits64,
      ebitmapRead .bits64 (fun _ => true) (header 0 0) = some (.ok e₁ []) ∧
      ebitmapRead .bits64 (fun _ => true) (header 64 0) = some (.ok e₂ []) ∧
      (∀ b, Mem e₁.nodes b ↔ Mem e₂.nodes b) ∧ ebitmapCmp e₁ e₂ = false ∧
      ebitmapContains e₁ e₂ = false :=
  ⟨⟨[], 0⟩, ⟨[], 128⟩, rfl, rfl, fun _ => Iff.rfl, rfl, rfl⟩

end LinuxKernel.Selinux
