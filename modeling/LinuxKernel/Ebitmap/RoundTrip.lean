import LinuxKernel.Ebitmap.Words

/-! # A written bitmap is read back

The words of the file fall into the nodes of the bitmap that `ebitmap_read` builds, and these are
the nodes of a canonical bitmap with the same bits.
-/

namespace LinuxKernel.Selinux

open Bitmap LittleEndian List

section Store

variable {a : Arch} {n : Node a}

theorem arch_spec (a : Arch) : 0 < a.unitSize ∧ a.unitSize * (64 / a.unitSize) = 64 ∧
    64 / a.unitSize < 64 ∧ a.unitSize / 2 + a.unitSize / 2 = a.unitSize ∧ a.size % 64 = 0 := by
  cases a <;> decide

theorem size_cases (a : Arch) : a.size = 192 ∨ a.size = 128 := by
  cases a
  · exact .inl rfl
  · exact .inr rfl

theorem testBit_setMap {k i : ℕ} (hk : k < a.unitNums) (x : BitVec a.unitSize) :
    testBit (n.setMap k x).maps i =
      if i / a.unitSize = k then x.getLsbD (i % a.unitSize) else testBit n.maps i := by
  rw [testBit, testBit, Node.setMap, getD_eq_getElem?_getD, getElem?_set, n.length_maps]
  by_cases h : i / a.unitSize = k
  · rw [if_pos h, if_pos h.symm, if_pos hk, Option.getD_some]
  · rw [if_neg h, if_neg (Ne.symm h), ← getD_eq_getElem?_getD]

theorem div_ne_of_le {w k i : ℕ} (hw : 0 < w) (h : w * (k + 1) ≤ i) : i / w ≠ k := by
  intro heq
  have := Nat.lt_mul_of_div_lt (show i / w < k + 1 by omega) hw
  rw [mul_comm] at this
  omega

/-- The word `k` gets the lowest bits of the map, and the words behind it the others. -/
theorem testBit_setMap_or {k m : ℕ} (hk : k < a.unitNums)
    (hzero : ∀ i, a.unitSize * k ≤ i → i < a.unitSize * (k + 1) → testBit n.maps i = false)
    (i : ℕ) :
    (testBit (n.setMap k (BitVec.ofNat a.unitSize m)).maps i ||
      (decide (a.unitSize * (k + 1) ≤ i) &&
        (m >>> a.unitSize).testBit (i - a.unitSize * (k + 1)))) =
      (testBit n.maps i || (decide (a.unitSize * k ≤ i) && m.testBit (i - a.unitSize * k))) := by
  obtain ⟨hw, -⟩ := arch_spec a
  have hmul : a.unitSize * (k + 1) = a.unitSize * k + a.unitSize := Nat.mul_succ ..
  rw [testBit_setMap hk]
  rcases lt_or_ge i (a.unitSize * k) with hi | hi
  · rw [if_neg (ne_of_lt (Nat.div_lt_of_lt_mul hi)), decide_eq_false (by omega),
      decide_eq_false (by omega), Bool.false_and, Bool.false_and]
  rcases lt_or_ge i (a.unitSize * (k + 1)) with hi' | hi'
  · have hdiv : i / a.unitSize = k :=
      Nat.div_eq_of_lt_le (by rwa [mul_comm]) (by rwa [mul_comm])
    have hmod : i % a.unitSize = i - a.unitSize * k := by
      have := Nat.div_add_mod i a.unitSize
      rw [hdiv] at this
      omega
    rw [if_pos hdiv, hmod, BitVec.getLsbD_ofNat, decide_eq_true (by omega),
      decide_eq_false (by omega), Bool.false_and, Bool.or_false, hzero i hi hi', Bool.false_or,
      decide_eq_true hi, Bool.true_and]
  · rw [if_neg (div_ne_of_le hw hi'), decide_eq_true hi', decide_eq_true hi, Nat.testBit_shiftRight,
      show a.unitSize + (i - a.unitSize * (k + 1)) = i - a.unitSize * k by omega]

theorem storeMap_spec : ∀ {j fuel k m : ℕ} {n : Node a}, j < fuel → m < 2 ^ (a.unitSize * j) →
    k + j ≤ a.unitNums →
    (∀ i, a.unitSize * k ≤ i → i < a.unitSize * (k + j) → testBit n.maps i = false) →
    ∃ n', storeMap fuel n k m = some n' ∧ n'.startbit = n.startbit ∧
      ∀ i, testBit n'.maps i =
        (testBit n.maps i || (decide (a.unitSize * k ≤ i) && m.testBit (i - a.unitSize * k)))
  | 0, fuel + 1, k, m, n, _, hm, _, _ => by
    obtain rfl : m = 0 := by simpa using hm
    exact ⟨n, if_pos rfl, rfl, fun i => by simp⟩
  | j + 1, fuel + 1, k, m, n, hfuel, hm, hk, hzero => by
    obtain ⟨hw, -, -, hhalf, -⟩ := arch_spec a
    rw [storeMap]
    split
    · rename_i hm0
      exact ⟨n, rfl, rfl, fun i => by simp [hm0]⟩
    · have hle : a.unitSize * k ≤ a.unitSize * (k + 1) := Nat.mul_le_mul_left _ (by omega)
      have hle' : a.unitSize * (k + 1) ≤ a.unitSize * (k + (j + 1)) :=
        Nat.mul_le_mul_left _ (by omega)
      have hshift : m >>> a.unitSize < 2 ^ (a.unitSize * j) := by
        rw [Nat.shiftRight_eq_div_pow, Nat.div_lt_iff_lt_mul (Nat.two_pow_pos _), ← pow_add]
        rwa [Nat.mul_succ] at hm
      obtain ⟨n', hn', hstart, hbits⟩ := storeMap_spec (k := k + 1)
        (n := n.setMap k (BitVec.ofNat a.unitSize m)) (Nat.lt_of_succ_lt_succ hfuel) hshift
        (by omega) fun i hi hi' => by
          rw [testBit_setMap (by omega), if_neg (div_ne_of_le hw hi)]
          exact hzero i (hle.trans hi) (by rwa [← add_assoc, add_right_comm])
      rw [if_neg (by omega), ← Nat.shiftRight_add, hhalf]
      refine ⟨n', hn', hstart, fun i => ?_⟩
      rw [hbits, testBit_setMap_or (by omega) fun i hi hi' => hzero i hi (hi'.trans_le hle')]

theorem storeMap_word {s m : ℕ} (hs : s % 64 = 0) (hstart : n.startbit % 64 = 0)
    (hm : m < 2 ^ 64) (hle : n.startbit ≤ s) (hlt : s < n.startbit + a.size)
    (hbits : ∀ b, n.Has b → b < s) :
    ∃ n', storeMap 64 n ((s - n.startbit) / a.unitSize) m = some n' ∧ n'.startbit = n.startbit ∧
      ∀ b, n'.Has b ↔ n.Has b ∨ WordHas (s, m) b := by
  obtain ⟨hw, hwords, hfuel, -, hsize⟩ := arch_spec a
  obtain ⟨q, hq⟩ : a.unitSize ∣ s - n.startbit := by
    refine Dvd.dvd.trans ⟨_, hwords.symm⟩ (Nat.dvd_of_mod_eq_zero (by omega))
  have hdiv : (s - n.startbit) / a.unitSize = q := by
    rw [hq, Nat.mul_div_cancel_left _ hw]
  have hend : a.unitSize * (q + 64 / a.unitSize) = s - n.startbit + 64 := by
    rw [mul_add, hwords, hq]
  have hroom : q + 64 / a.unitSize ≤ a.unitNums := by
    refine Nat.le_of_mul_le_mul_left ?_ hw
    rw [← size_eq]
    omega
  obtain ⟨n', hn', hstart', hbits'⟩ := storeMap_spec hfuel
    (by rwa [hwords]) hroom fun i hi hi' => by
      by_contra hbit
      have := hbits (n.startbit + i) ⟨by omega, by omega, by
        simpa using hbit⟩
      omega
  rw [hdiv]
  refine ⟨n', hn', hstart', fun b => ?_⟩
  simp only [Node.Has, hstart', hbits', ← hq, Bool.or_eq_true, Bool.and_eq_true,
    decide_eq_true_eq]
  have hsub : b - n.startbit - (s - n.startbit) = b - s := by omega
  rw [hsub]
  constructor
  · rintro ⟨h1, h2, h3 | ⟨h3, h4⟩⟩
    · exact .inl ⟨h1, h2, h3⟩
    · refine .inr ⟨by omega, ?_, h4⟩
      by_contra hge
      have hfalse := Nat.testBit_lt_two_pow (i := b - s)
        (hm.trans_le (Nat.pow_le_pow_right (by decide) (by omega)))
      rw [h4] at hfalse
      exact absurd hfalse (by decide)
  · rintro (⟨h1, h2, h3⟩ | ⟨h1, h2, h3⟩)
    · exact ⟨h1, h2, .inl h3⟩
    · exact ⟨by omega, by omega, .inr ⟨by omega, h3⟩⟩

end Store

section Read

variable {a : Arch} {ws : List (ℕ × ℕ)} {nodes ns : List (Node a)} {cur : Option (Node a)}
  {s m : ℕ} {alloc : ℕ → Bool}

/-- The nodes have the bits of the words that were read. -/
structure Loaded (ws : List (ℕ × ℕ)) (nodes : List (Node a)) : Prop where
  chain : Chain nodes
  mem : ∀ b, Mem nodes b ↔ ∃ x ∈ ws, WordHas x b
  last : ∀ n ∈ nodes.getLast?, ∃ x ∈ ws.getLast?, n.startbit = x.1 - x.1 % a.size

theorem Chain.startbit_le_of_getLast? {n n' : Node a} (h : Chain nodes)
    (hlast : n ∈ nodes.getLast?) (hn' : n' ∈ nodes) : n'.startbit ≤ n.startbit := by
  obtain ⟨nodes', rfl⟩ := getLast?_eq_some_iff.mp hlast
  rcases List.mem_append.mp hn' with hn' | hn'
  · exact ((pairwise_append.mp h.sorted).2.2 n' hn' n (by simp)).le
  · rw [mem_singleton.mp hn']

theorem eq_sub_mod {t s k : ℕ} (ht : k ∣ t) (hle : t ≤ s) (hlt : s < t + k) : t = s - s % k := by
  obtain ⟨q, rfl⟩ := ht
  obtain ⟨r, rfl⟩ := Nat.exists_eq_add_of_le hle
  rw [Nat.mul_add_mod, Nat.mod_eq_of_lt (by omega), Nat.add_sub_cancel]

/-- What `ebitmap_read` takes for the node of a word that follows the others. -/
theorem readNode_spec (h : Loaded ws (ns ++ cur.toList)) (hcur : cur = none → ns = [])
    (hnext : ∀ x ∈ ws, x.1 + 64 ≤ s) :
    ∃ ns' n, readNode true s ns cur = .ok (ns', n) ∧ n.startbit = s - s % a.size ∧
      (∀ b, n.Has b → b < s) ∧ (∀ b, Mem ns' b ∨ n.Has b ↔ Mem (ns ++ cur.toList) b) ∧
      ∀ n', n'.startbit = n.startbit → (∃ b, n'.Has b) → Chain (ns' ++ [n']) := by
  have hpos := size_pos a
  have hmod := Nat.mod_lt s hpos
  have hbits : ∀ b, Mem (ns ++ cur.toList) b → b < s := fun b hb => by
    obtain ⟨x, hx, -, hlt, -⟩ := (h.mem b).mp hb
    have := hnext x hx
    omega
  -- a new node, if the word is behind the end of the last one
  have hnew : (∀ n ∈ cur, n.startbit + a.size ≤ s) →
      (∀ n' : Node a, n'.startbit = s - s % a.size → (∃ b, n'.Has b) →
        Chain (ns ++ cur.toList ++ [n'])) := by
    intro hend n' hn' hne
    have hchain : Chain (ns ++ cur.toList ++ []) := by rw [append_nil]; exact h.chain
    refine hchain.insert ?_ hne (fun m hm => ?_) nofun
    · rw [hn']
      exact Nat.dvd_sub_mod s
    · cases cur with
      | none =>
        rw [hcur rfl] at hm
        exact absurd hm (by simp)
      | some n =>
        have hle := h.chain.startbit_le_of_getLast? (n := n) (by simp) hm
        have := hend n rfl
        omega
  rw [readNode]
  by_cases hin : ∃ n ∈ cur, s < n.startbit + a.size
  · obtain ⟨n, hn, hlt⟩ := hin
    obtain rfl : cur = some n := hn
    obtain ⟨x, hx, hstart⟩ := h.last n (by simp)
    have hxs := hnext x (mem_of_getLast? hx)
    have hfilter : ((some n).filter fun n => s < n.startbit + a.size) = some n := by simpa using hlt
    have halign : a.size ∣ n.startbit := h.chain.aligned n (by simp)
    rw [hfilter]
    refine ⟨ns, n, if_neg (by omega), ?_, fun b hb => hbits b (by simp [hb]), fun b => by simp, ?_⟩
    · exact eq_sub_mod halign (by omega) hlt
    · exact fun n' hn' hne => Chain.replace h.chain hn' hne
  · have hend : ∀ n ∈ cur, n.startbit + a.size ≤ s := fun n hn => by
      by_contra hlt
      exact hin ⟨n, hn, by omega⟩
    have hfilter : (cur.filter fun n => s < n.startbit + a.size) = none := by
      cases cur with
      | none => rfl
      | some n => simpa using hend n rfl
    rw [hfilter]
    refine ⟨_, _, rfl, rfl, fun b hb => absurd hb (not_has_zero _),
      fun b => or_iff_left (not_has_zero _), hnew hend⟩

theorem nextEntry_leBytes {k x : ℕ} (h : x < 256 ^ k) (rest : List UInt8) :
    nextEntry (leBytes k x ++ rest) k = some (x, rest) := by
  have hlen := length_leBytes k x
  rw [nextEntry, if_neg (by rw [length_append]; omega),
    take_append_of_le_length (by omega), drop_append_of_le_length (by omega),
    take_of_length_le (by omega), drop_eq_nil_of_le (by omega),
    leValue_leBytes_of_lt h, nil_append]

theorem readLoop_spec {highbit : ℕ} (halloc : ∀ i, alloc i = true) (rest : List UInt8) :
    ∀ {ws₂ ws₁ : List (ℕ × ℕ)} {i : ℕ} {ns : List (Node a)}
    {cur : Option (Node a)}, Loaded ws₁ (ns ++ cur.toList) → (cur = none → ns = []) →
    (ws₁ ++ ws₂).Pairwise (fun x y => x.1 + 64 ≤ y.1) →
    (∀ x ∈ ws₂, x.1 % 64 = 0 ∧ x.2 ≠ 0 ∧ x.2 < 2 ^ 64 ∧ x.1 + 64 ≤ highbit ∧ x.1 < 2 ^ 32) →
    ∃ nodes, readLoop highbit alloc ws₂.length i ns cur (putWords ws₂ ++ rest) =
      some (.ok ⟨nodes, highbit⟩ rest) ∧ Loaded (ws₁ ++ ws₂) nodes
  | [], ws₁, i, ns, cur, h, _, _, _ => ⟨_, rfl, by rwa [append_nil]⟩
  | (s, m) :: ws₂, ws₁, i, ns, cur, h, hcur, hsorted, hwords => by
    obtain ⟨⟨hs, hm0, hm, hend, hs32⟩, hwords⟩ := forall_mem_cons.mp hwords
    have hnext : ∀ x ∈ ws₁, x.1 + 64 ≤ s := fun x hx =>
      (pairwise_append.mp hsorted).2.2 x hx (s, m) mem_cons_self
    obtain ⟨ns', n, hnode, hstart, hbits, hmem, hchain⟩ := readNode_spec h hcur hnext
    have hmod := Nat.mod_lt s (size_pos a)
    have hstart64 : n.startbit % 64 = 0 := by
      rw [hstart]
      rcases size_cases a with hsize | hsize <;> rw [hsize] <;> omega
    obtain ⟨n', hstore, hstart', hhas⟩ := storeMap_word hs hstart64 hm (by omega) (by omega) hbits
    have hloaded : Loaded (ws₁ ++ [(s, m)]) (ns' ++ (some n').toList) := by
      refine ⟨hchain n' hstart' ?_, fun b => ?_, fun n₀ hn₀ => ⟨(s, m), by simp, ?_⟩⟩
      · obtain ⟨b, hb⟩ := exists_wordHas hm0 hm
        exact ⟨b, (hhas b).mpr (.inr hb)⟩
      · simp only [Option.toList_some, mem_append, mem_cons, mem_nil, or_false, hhas]
        rw [← or_assoc, hmem, h.mem]
        simp only [List.mem_append, mem_singleton, or_and_right, exists_or, exists_eq_left]
      · obtain rfl : n' = n₀ := by simpa using hn₀
        exact hstart'.trans hstart
    obtain ⟨nodes, hread, hnodes⟩ := readLoop_spec halloc rest hloaded (by simp)
      (by simpa using hsorted) hwords
    refine ⟨nodes, ?_, by simpa using hnodes⟩
    have hand : s &&& (64 - 1) = 0 := (Nat.and_two_pow_sub_one_eq_mod s 6).trans hs
    have hfile : putWords ((s, m) :: ws₂) ++ rest =
        leBytes 4 s ++ (leBytes 8 m ++ (putWords ws₂ ++ rest)) := by
      simp [putWords, putWord]
    rw [hfile, length_cons, readLoop, nextEntry_leBytes hs32]
    simp only [hand, show ¬ highbit - 64 < s by omega, halloc,
      hnode, nextEntry_leBytes (show m < 256 ^ 8 from hm), hstore]
    exact hread

theorem header_spec (lastBit count : ℕ) (hlast : lastBit < 2 ^ 32) (hcount : count < 2 ^ 32)
    (file : List UInt8) :
    ¬ (header lastBit count ++ file).length < 12 ∧
      leValue ((header lastBit count ++ file).take 4) = 64 ∧
      leValue (((header lastBit count ++ file).drop 4).take 4) = lastBit ∧
      leValue (((header lastBit count ++ file).drop 8).take 4) = count ∧
      (header lastBit count ++ file).drop 12 = file := by
  have hunit : leValue (leBytes 4 64) = 64 := by decide
  have hlast' := leValue_leBytes_of_lt (k := 4) hlast
  have hcount' := leValue_leBytes_of_lt (k := 4) hcount
  have hdrop : ∀ x l k, (leBytes 4 x ++ l).drop (k + 4) = l.drop k := fun x l k => by
    simp [drop_append]
  have htake : ∀ x l, (leBytes 4 x ++ l).take 4 = leBytes 4 x := fun x l => by
    simp
  refine ⟨?_, ?_, ?_, ?_, ?_⟩ <;> rw [header, append_assoc, append_assoc]
  · simp only [length_append, length_leBytes]
    omega
  · rw [htake, hunit]
  · rw [hdrop _ _ 0, drop_zero, htake, hlast']
  · rw [hdrop _ _ 4, hdrop _ _ 0, drop_zero, htake, hcount']
  · rw [hdrop _ _ 8, hdrop _ _ 4, hdrop _ _ 0, drop_zero]

theorem roundup_size {t : ℕ} (ht : t % 64 = 0) (hlt : t + 64 ≤ 2 ^ 31) :
    (t + 64 + (a.size - 1)) % 2 ^ 32 - (t + 64 + (a.size - 1)) % 2 ^ 32 % a.size =
      t - t % a.size + a.size := by
  rcases size_cases a with hsize | hsize <;> rw [hsize] <;> omega

/-- Words below bit `2 ^ 31` give a bitmap with their bits. -/
theorem ebitmapRead_spec {bits : List ℕ} (h : Groups ws bits) (hbits : ∀ b ∈ bits, b < 2 ^ 31)
    (halloc : ∀ i, alloc i = true) (rest : List UInt8) :
    ∃ e : Ebitmap a, ebitmapRead a alloc
        (header (endOfWords ws) ws.length ++ putWords ws ++ rest) = some (.ok e rest) ∧
      Canonical e ∧ ∀ b, Mem e.nodes b ↔ b ∈ bits := by
  have hlen := length_le_endOfWords h.sorted
  have hend : endOfWords ws ≤ 2 ^ 31 := by
    cases hlast : ws.getLast? with
    | none => simp [endOfWords, hlast]
    | some x =>
      rw [endOfWords, hlast]
      exact h.end_le hbits x (mem_of_getLast? hlast)
  obtain ⟨h12, hunit, hhigh, hcount, hdrop⟩ := header_spec (endOfWords ws) ws.length
    (by omega) (by omega) (putWords ws ++ rest)
  rw [append_assoc, ebitmapRead, if_neg h12]
  simp only [hunit, ne_eq, not_true_eq_false, if_false, hhigh, hcount]
  cases hlast : ws.getLast? with
  | none =>
    obtain rfl := getLast?_eq_none_iff.mp hlast
    refine ⟨⟨[], 0⟩, ?_, ⟨⟨.nil, by simp, by simp⟩, rfl⟩, fun b => ?_⟩
    · rcases size_cases a with hsize | hsize <;> rw [hsize] <;> rfl
    · rw [h.mem]
      simp
  | some x =>
    have hx := mem_of_getLast? hlast
    have hround := roundup_size (a := a) (h.aligned x hx) (h.end_le hbits x hx)
    have hwords : endOfWords ws = x.1 + 64 := by rw [endOfWords, hlast]; rfl
    rw [← hwords] at hround
    rw [hround]
    have hhighbit : endOfWords ws ≤ x.1 - x.1 % a.size + a.size := by
      have := h.aligned x hx
      rcases size_cases a with hsize | hsize <;> rw [hsize] <;> omega
    rw [if_neg (by omega)]
    have hempty : Loaded [] ([] ++ (none : Option (Node a)).toList) :=
      ⟨⟨.nil, by simp, by simp⟩, by simp, by simp⟩
    obtain ⟨nodes, hread, hloaded⟩ := readLoop_spec halloc rest hempty (fun _ => rfl)
      h.sorted fun y hy => by
        have hle := le_endOfWords h.sorted y hy
        exact ⟨h.aligned y hy, (h.map y hy).1, (h.map y hy).2, hle.trans hhighbit, by omega⟩
    have hmem : ∀ b, Mem nodes b ↔ b ∈ bits := fun b => (hloaded.mem b).trans (h.mem b).symm
    refine ⟨_, hread, ⟨hloaded.chain, ?_⟩, hmem⟩
    obtain ⟨b, hb⟩ := exists_wordHas (h.map x hx).1 (h.map x hx).2
    obtain ⟨n, hn, -⟩ := (hmem b).mpr ((h.mem b).mpr ⟨x, hx, hb⟩)
    have hnodes := getLast?_eq_some_getLast (ne_nil_of_mem hn)
    obtain ⟨y, hy, hstart⟩ := hloaded.last _ hnodes
    obtain rfl : x = y := Option.some.inj (hlast.symm.trans hy)
    rw [endOf, hnodes]
    exact congrArg (· + a.size) hstart.symm

end Read

section RoundTrip

variable {a : Arch} {e : Ebitmap a}

/-- A bitmap below bit `2 ^ 31` is written and read back, by a reader of either word size. -/
theorem ebitmap_write_read (h : Canonical e) (hbits : ∀ n ∈ e.nodes, n.startbit + a.size ≤ 2 ^ 31) :
    ∃ file, Fuel.Ends (ebitmapWrite e) file ∧
      ∀ (alloc : ℕ → Bool) (rest : List UInt8), (∀ i, alloc i = true) →
        (∃ e' : Ebitmap a, ebitmapRead a alloc (file ++ rest) = some (.ok e' rest) ∧
          ebitmapCmp e' e = true) ∧
        ∀ a', ∃ e' : Ebitmap a', ebitmapRead a' alloc (file ++ rest) = some (.ok e' rest) ∧
          Canonical e' ∧ ∀ b, Mem e'.nodes b ↔ Mem e.nodes b := by
  obtain ⟨ws, hg, hwrite⟩ := ebitmapWrite_spec h
  refine ⟨_, hwrite, fun alloc rest halloc => ?_⟩
  have hread : ∀ a', ∃ e' : Ebitmap a', ebitmapRead a' alloc
      (header (endOfWords ws) ws.length ++ putWords ws ++ rest) = some (.ok e' rest) ∧
      Canonical e' ∧ ∀ b, Mem e'.nodes b ↔ Mem e.nodes b := fun a' => by
    have hlt : ∀ b ∈ allBits e.nodes, b < 2 ^ 31 := fun b hb => by
      obtain ⟨n, hn, -, hlt, -⟩ := mem_allBits.mp hb
      exact hlt.trans_le (hbits n hn)
    obtain ⟨e', he', hcan, hmem⟩ := ebitmapRead_spec hg hlt halloc rest
    exact ⟨e', he', hcan, fun b => (hmem b).trans mem_allBits⟩
  refine ⟨?_, hread⟩
  obtain ⟨e', he', hcan, hmem⟩ := hread a
  exact ⟨e', he', (ebitmapCmp_iff hcan h).mpr hmem⟩

/-- The bits 0, 65 and 130. -/
def threeBits : Ebitmap .bits64 := ⟨[⟨0, [1, 2], rfl⟩, ⟨128, [4, 0], rfl⟩], 256⟩

/-- Three words, written from two nodes with words of 64 bits and read into one node with words of
32 bits. -/
theorem ebitmap_write_read_three : ∃ file, Fuel.Ends (ebitmapWrite threeBits) file ∧
    ∃ e : Ebitmap .bits32, ebitmapRead .bits32 (fun _ => true) (file ++ [7]) = some (.ok e [7]) ∧
      ∀ b ∈ [0, 65, 130], Mem e.nodes b := by
  have hhas : Node.Has (a := .bits64) ⟨0, [1, 2], rfl⟩ 0 ∧
      Node.Has (a := .bits64) ⟨0, [1, 2], rfl⟩ 65 ∧
      Node.Has (a := .bits64) ⟨128, [4, 0], rfl⟩ 130 := by
    unfold Node.Has
    decide
  have hcan : Canonical threeBits := by
    refine ⟨⟨?_, ?_, ?_⟩, rfl⟩
    · simp [threeBits]
    · simp [threeBits, Arch.size, Arch.unitSize, Arch.unitNums]
    · simpa [threeBits] using ⟨⟨0, hhas.1⟩, 130, hhas.2.2⟩
  obtain ⟨file, hwrite, hread⟩ := ebitmap_write_read hcan (by decide)
  obtain ⟨e, he, -, hmem⟩ := (hread (fun _ => true) [7] fun _ => rfl).2 .bits32
  refine ⟨file, hwrite, e, he, fun b hb => (hmem b).mpr ?_⟩
  simp only [List.mem_cons, not_mem_nil, or_false] at hb
  simp only [threeBits, mem_cons, mem_nil, or_false]
  rcases hb with rfl | rfl | rfl
  · exact .inl hhas.1
  · exact .inl hhas.2.1
  · exact .inr hhas.2.2

end RoundTrip

end LinuxKernel.Selinux
