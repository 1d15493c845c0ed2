import LinuxKernel.Base.Run
import LinuxKernel.Percpu.Alloc

/-! # Areas do not overlap

A chunk is used by allocating areas, freeing areas that are outstanding and extending the map. Its
map then describes the areas that are outstanding, and the sums that are kept beside it are exact.
-/

namespace LinuxKernel.Percpu

open List Option

variable {chunk chunk' : Chunk} {m l r pre rest : List ℤ} {e x q : ℤ} {off o size al k unitSize : ℕ}

/-- An area as it was asked for, with the offset that was returned. -/
structure Area where
  off : ℕ
  size : ℕ
  al : ℕ
  deriving DecidableEq, Repr

structure Valid (unitSize : ℕ) (chunk : Chunk) : Prop where
  ne_zero : ∀ e ∈ chunk.map, e ≠ 0
  total_eq : total chunk.map = unitSize
  freeSize_eq : chunk.freeSize = freeBytes chunk.map
  coalesced : Coalesced chunk.map
  le_hint : ∀ e ∈ chunk.map, 0 < e → e ≤ chunk.contigHint

structure Holds (m : List ℤ) (areas : List Area) : Prop where
  aligned : ∀ a ∈ areas, a.al ∣ a.off
  allocated : ∀ a ∈ areas, ∃ e < 0, (a.off, e) ∈ entries 0 m ∧ a.size ≤ e.natAbs
  nodup : (areas.map Area.off).Nodup

theorem Valid.fresh (hunit : 0 < unitSize) : Valid unitSize (pcpuAllocChunk unitSize) where
  ne_zero := by simp [pcpuAllocChunk, hunit.ne']
  total_eq := by simp [pcpuAllocChunk]
  freeSize_eq := by simp [pcpuAllocChunk]
  coalesced := by simp [pcpuAllocChunk]
  le_hint := by simp [pcpuAllocChunk]

section Alloc

def granted (size al : ℕ) (areas : List Area) : Option ℕ → List Area
  | none => areas
  | some off => ⟨off, size, al⟩ :: areas

theorem mem_entries_middle {l₁ l₂ : List ℤ} : (o, x) ∈ entries 0 (l₁ ++ e :: l₂) ↔
    (o, x) ∈ entries 0 l₁ ∨ (o = total l₁ ∧ x = e) ∨ (o, x) ∈ entries (total l₁ + e.natAbs) l₂ := by
  rw [entries_append, mem_append, entries, mem_cons, Prod.mk.injEq, zero_add]

theorem Alloc.valid (h : Valid unitSize chunk) (hsize : 0 < size) {ret : Option ℕ}
    (ha : Alloc chunk size al ret chunk') : Valid unitSize chunk' := by
  cases ha with
  | fail hint hhint _ => exact ⟨h.ne_zero, h.total_eq, h.freeSize_eq, h.coalesced, hhint⟩
  | @take pre pre' rest e len tail freeSize hint hd hm hh hlead ht hlen hsum hfree hhint =>
    obtain ⟨hne, htotal, hfree', hchain, -⟩ := h
    rw [hm] at hne htotal hfree' hchain
    obtain ⟨hpre, he, hsep⟩ := isChain_append.mp hchain
    obtain ⟨hnext, hrest⟩ := isChain_cons.mp he
    have htail := total_part ht
    refine ⟨?_, ?_, ?_, ?_, ?_⟩
    · intro x hx
      simp only [mem_append, mem_cons, mem_part] at hx
      rcases hx with hx | rfl | ⟨hx, rfl⟩ | hx
      · exact hlead.ne_zero (fun y hy => hne y (mem_append_left _ hy)) x hx
      · omega
      · exact hx
      · exact hne x (mem_append_right _ (mem_cons_of_mem _ hx))
    · simp only [total_append, total_cons, hlead.total_eq] at htotal ⊢
      omega
    · simp only [freeBytes_append, freeBytes_cons, freeBytes_part ht] at hfree' ⊢
      omega
    · have hlast : ∀ p ∈ pre.getLast?, p < 0 := by
        intro p hp
        have := hsep p hp e rfl
        have := hne p (mem_append_left _ (mem_of_getLast? hp))
        omega
      refine isChain_append.mpr ⟨hlead.coalesced hpre hlast, ?_, ?_⟩
      · refine isChain_cons.mpr ⟨by omega, isChain_append.mpr ⟨?_, hrest, ?_⟩⟩
        · unfold part
          split_ifs <;> simp
        · intro a ha b hb
          have := hnext b hb
          omega
      · intro a ha b hb
        obtain rfl : -len = b := by simpa using hb
        omega
    · intro x hx hpos
      rcases mem_append.mp hx with hx | hx
      · exact hhint x (mem_append_left _ hx) hpos
      · rcases mem_cons.mp hx with rfl | hx
        · omega
        · exact hhint x (mem_append_right _ hx) hpos

theorem Alloc.holds {areas : List Area} (h : Holds chunk.map areas) (hv : Valid unitSize chunk)
    (hunit : unitSize < 2 ^ 31) (hsize : 0 < size) (hk : k < 31) {ret : Option ℕ}
    (ha : Alloc chunk size (2 ^ k) ret chunk') :
    Holds chunk'.map (granted size (2 ^ k) areas ret) := by
  cases ha with
  | fail hint hhint _ => exact h
  | @take pre pre' rest e len tail freeSize hint hd hm hh hlead ht hlen hsum hfree hhint =>
    have htotal := hv.total_eq
    rw [hm, total_append] at htotal
    obtain ⟨hd', hh', -, hdvd, -⟩ := headSize_spec (total pre) hk (by omega)
    obtain rfl : hd = hd' := by omega
    have htail := total_part ht
    -- every area of before is still there, and not where the new one is
    have hold : ∀ a ∈ areas, a.off ≠ total pre + hd ∧ ∃ x < 0,
        (a.off, x) ∈ entries 0 (pre' ++ -len :: (part tail ++ rest)) ∧ a.size ≤ x.natAbs := by
      intro a ha
      obtain ⟨x, hx, hmem, hle⟩ := h.allocated a ha
      rw [hm, mem_entries_middle] at hmem
      rcases hmem with hmem | ⟨-, rfl⟩ | hmem
      · have hb := entries_bounds hmem
        obtain ⟨x', hx', hmem'⟩ := hlead.allocated hmem
        exact ⟨by omega, x', by omega, mem_entries_middle.mpr (.inl hmem'), by omega⟩
      · omega
      · have hb := entries_bounds hmem
        refine ⟨by omega, x, hx, mem_entries_middle.mpr (.inr (.inr ?_)), hle⟩
        rw [entries_append, hlead.total_eq]
        refine mem_append_right _ ?_
        rwa [show total pre + hd + (-len).natAbs + total (part tail) =
          total pre + e.natAbs by omega]
    refine ⟨forall_mem_cons.mpr ⟨hdvd, h.aligned⟩, forall_mem_cons.mpr ⟨?_, ?_⟩, ?_⟩
    · refine ⟨-len, by omega, mem_entries_middle.mpr (.inr (.inl ⟨?_, rfl⟩)), by dsimp only; omega⟩
      rw [hlead.total_eq]
    · exact fun a ha => (hold a ha).2
    · refine nodup_cons.mpr ⟨fun hmem => ?_, h.nodup⟩
      obtain ⟨a, ha, hoff⟩ := mem_map.mp hmem
      exact (hold a ha).1 hoff

theorem pcpuAllocArea_spec (h : Valid unitSize chunk) (hunit : unitSize < 2 ^ 31) (hk : k < 31)
    (hsize : 0 < size) (hsum : size + 2 ^ k ≤ 2 ^ 31)
    (hroom : chunk.mapUsed + 2 ≤ chunk.mapAlloc) :
    ∃ ret chunk', pcpuAllocArea chunk size (2 ^ k) = some (ret, chunk') ∧
      Alloc chunk size (2 ^ k) ret chunk' :=
  scan_spec rfl hk hsize hsum (by rw [h.total_eq]; exact hunit) h.coalesced h.ne_zero
    hroom h.le_hint (by simp) (by simp [entries])

end Alloc

section Free

theorem locate_spec {l₁ : List ℤ} (pre : List ℤ) (off : ℕ) (e : ℤ) (l₂ : List ℤ)
    (hne : ∀ x ∈ l₁, x ≠ 0) :
    locate (off + total l₁) pre off (l₁ ++ e :: l₂) = some ⟨pre ++ l₁, e, l₂⟩ := by
  induction l₁ generalizing pre off with
  | nil => simp [locate]
  | cons x l ih =>
    have hx := hne x (mem_cons_self ..)
    rw [cons_append, locate, if_neg (by rw [total_cons]; omega), total_cons, ← add_assoc,
      ih _ _ fun y hy => hne y (mem_cons_of_mem _ hy), append_assoc, singleton_append]

theorem mergePrev_spec (x : ℤ) (rest : List ℤ) (hne : ∀ x ∈ pre, x ≠ 0) (hpre : Coalesced pre) :
    ∃ l q, 0 ≤ q ∧ pre = l ++ part q ∧ mergePrev ⟨pre, x, rest⟩ = ⟨l, q + x, rest⟩ ∧
      ∀ p ∈ l.getLast?, p < 0 := by
  rw [mergePrev]
  cases hp : pre.getLast? with
  | none => exact ⟨pre, 0, le_rfl, by simp [part], by simp, by simp [hp]⟩
  | some p =>
    have hsplit := dropLast_append_getLast? p hp
    have hmem := hne p (mem_of_getLast? hp)
    dsimp only
    split_ifs with hpos
    · refine ⟨pre.dropLast, p, hpos, by rw [part, if_pos hmem, hsplit], rfl, fun p' hp' => ?_⟩
      rw [← hsplit] at hpre
      have := (isChain_append.mp hpre).2.2 p' hp' p rfl
      have := hne p' (mem_of_mem_dropLast (mem_of_getLast? hp'))
      omega
    · refine ⟨pre, 0, le_rfl, by simp [part], by simp, fun p' hp' => ?_⟩
      obtain rfl : p = p' := by simpa [hp] using hp'
      omega

theorem mergeNext_spec (pre : List ℤ) (x : ℤ) (hne : ∀ x ∈ rest, x ≠ 0) (hrest : Coalesced rest) :
    ∃ q r, 0 ≤ q ∧ rest = part q ++ r ∧ mergeNext ⟨pre, x, rest⟩ = ⟨pre, x + q, r⟩ ∧
      ∀ n ∈ r.head?, n < 0 := by
  rw [mergeNext]
  cases rest with
  | nil => exact ⟨0, [], le_rfl, by simp [part], by simp, by simp⟩
  | cons n rest =>
    obtain ⟨hn, hne⟩ := forall_mem_cons.mp hne
    dsimp only
    split_ifs with hpos
    · refine ⟨n, rest, hpos, by rw [part, if_pos hn, singleton_append], rfl, fun n' hn' => ?_⟩
      have := (isChain_cons.mp hrest).1 n' hn'
      have := hne n' (mem_of_mem_head? hn')
      omega
    · refine ⟨0, n :: rest, le_rfl, by simp [part], by simp, fun n' hn' => ?_⟩
      obtain rfl : n = n' := by simpa using hn'
      omega

theorem pcpuFreeArea_spec {l₁ l₂ : List ℤ} (h : Valid unitSize chunk)
    (hm : chunk.map = l₁ ++ e :: l₂) (he : e < 0) :
    ∃ l q q' r, 0 ≤ q ∧ 0 ≤ q' ∧ l₁ = l ++ part q ∧ l₂ = part q' ++ r ∧
      (∀ p ∈ l.getLast?, p < 0) ∧ (∀ n ∈ r.head?, n < 0) ∧
      pcpuFreeArea chunk (total l₁) = some { chunk with
        map := l ++ (q - e + q') :: r
        freeSize := chunk.freeSize - e
        contigHint := max (q - e + q') chunk.contigHint } := by
  have hne := h.ne_zero
  have hchain := h.coalesced
  rw [hm] at hne hchain
  obtain ⟨h₁, h₂, -⟩ := isChain_append.mp hchain
  have hne₁ : ∀ x ∈ l₁, x ≠ 0 := fun x hx => hne x (mem_append_left _ hx)
  have hne₂ : ∀ x ∈ l₂, x ≠ 0 := fun x hx => hne x (mem_append_right _ (mem_cons_of_mem _ hx))
  obtain ⟨l, q, hq, hl, hprev, hlast⟩ := mergePrev_spec (-e) l₂ hne₁ h₁
  obtain ⟨q', r, hq', hr, hnext, hhead⟩ := mergeNext_spec l (q + -e) hne₂ (isChain_cons.mp h₂).2
  refine ⟨l, q, q', r, hq, hq', hl, hr, hlast, hhead, ?_⟩
  have hloc := locate_spec [] 0 e l₂ hne₁
  rw [zero_add, nil_append, ← hm] at hloc
  rw [pcpuFreeArea, hloc]
  simp only [bind_eq_bind, bind_some]
  rw [if_neg (by omega), hprev, hnext, Cursor.map]
  simp only [← sub_eq_add_neg]

theorem free_valid {areas : List Area} {a : Area} (h : Valid unitSize chunk)
    (hh : Holds chunk.map areas) (ha : a ∈ areas) :
    ∃ chunk', pcpuFreeArea chunk a.off = some chunk' ∧ Valid unitSize chunk' ∧
      Holds chunk'.map (areas.filter (·.off ≠ a.off)) := by
  obtain ⟨e, he, hmem, -⟩ := hh.allocated a ha
  obtain ⟨l₁, l₂, hm, hoff⟩ := entries_split hmem
  rw [zero_add] at hoff
  obtain ⟨l, q, q', r, hq, hq', rfl, rfl, hlast, hhead, hfree⟩ := pcpuFreeArea_spec h hm he
  rw [← hoff] at hfree
  have hq₁ := total_part hq
  have hq₂ := total_part hq'
  obtain ⟨hne, htotal, hfree', hchain, hhint⟩ := h
  rw [hm] at hne htotal hfree' hchain hhint
  obtain ⟨h₁, h₂, -⟩ := isChain_append.mp hchain
  have h₂ := (isChain_append.mp (isChain_cons.mp h₂).2).2.1
  refine ⟨_, hfree, ⟨?_, ?_, ?_, ?_, ?_⟩, ⟨?_, ?_, ?_⟩⟩
  · intro x hx
    rcases mem_append.mp hx with hx | hx
    · exact hne x (by simp [hx])
    · rcases mem_cons.mp hx with rfl | hx
      · omega
      · exact hne x (by simp [hx])
  · simp only [total_append, total_cons] at htotal ⊢
    omega
  · simp only [freeBytes_append, freeBytes_cons, freeBytes_part hq, freeBytes_part hq'] at hfree' ⊢
    omega
  · refine isChain_append.mpr ⟨(isChain_append.mp h₁).1,
      isChain_cons.mpr ⟨fun n hn => ?_, h₂⟩, fun p hp n hn => ?_⟩
    · have := hhead n hn
      omega
    · have := hlast p hp
      omega
  · intro x hx hpos
    rcases mem_append.mp hx with hx | hx
    · exact (hhint x (by simp [hx]) hpos).trans (le_max_right _ _)
    · rcases mem_cons.mp hx with rfl | hx
      · exact le_max_left _ _
      · exact (hhint x (by simp [hx]) hpos).trans (le_max_right _ _)
  · exact fun b hb => hh.aligned b (mem_of_mem_filter hb)
  · intro b hb
    obtain ⟨hb, hne'⟩ := mem_filter.mp hb
    obtain ⟨x, hx, hmem', hle⟩ := hh.allocated b hb
    refine ⟨x, hx, ?_, hle⟩
    rw [hm, mem_entries_middle, entries_append, entries_append, mem_append, mem_append] at hmem'
    rw [mem_entries_middle]
    rcases hmem' with (hmem' | hmem') | ⟨hoff', -⟩ | hmem' | hmem'
    · exact .inl hmem'
    · have := (mem_part.mp (mem_of_entries hmem')).2
      omega
    · rw [hoff', hoff] at hne'
      simp at hne'
    · have := (mem_part.mp (mem_of_entries hmem')).2
      omega
    · refine .inr (.inr ?_)
      rw [total_append] at hmem'
      rwa [show total l + (q - e + q').natAbs =
        total l + total (part q) + e.natAbs + total (part q') by omega]
  · exact hh.nodup.sublist (filter_sublist.map _)

end Free

section Runs

structure State where
  chunk : Chunk
  areas : List Area

inductive Op where
  | alloc (size al : ℕ)
  | free (off : ℕ)
  | extend (newAlloc : ℕ)

/-- What is done to a chunk. Sizes and alignments are such that their sum does not exceed an
`int`: `pcpu_alloc` refuses much smaller ones. -/
inductive Step : State → Op → State → Prop
  | alloc {s : State} {size k : ℕ} {ret : Option ℕ} {chunk' : Chunk} : 0 < size →
      size + 2 ^ k ≤ 2 ^ 31 → s.chunk.mapUsed + 2 ≤ s.chunk.mapAlloc →
      pcpuAllocArea s.chunk size (2 ^ k) = some (ret, chunk') →
      Step s (.alloc size (2 ^ k)) ⟨chunk', granted size (2 ^ k) s.areas ret⟩
  | free {s : State} {a : Area} {chunk' : Chunk} : a ∈ s.areas →
      pcpuFreeArea s.chunk a.off = some chunk' →
      Step s (.free a.off) ⟨chunk', s.areas.filter (·.off ≠ a.off)⟩
  | extend {s : State} {newAlloc : ℕ} :
      Step s (.extend newAlloc) ⟨pcpuExtendAreaMap s.chunk newAlloc, s.areas⟩

theorem lt_of_size (hsize : 0 < size) (hsum : size + 2 ^ k ≤ 2 ^ 31) : k < 31 :=
  (Nat.pow_lt_pow_iff_right (by norm_num)).mp (show 2 ^ k < 2 ^ 31 by omega)

theorem Step.invariant {s t : State} {op : Op} (hunit : unitSize < 2 ^ 31)
    (h : Valid unitSize s.chunk ∧ Holds s.chunk.map s.areas) (hstep : Step s op t) :
    Valid unitSize t.chunk ∧ Holds t.chunk.map t.areas := by
  obtain ⟨hv, hh⟩ := h
  cases hstep with
  | alloc hsize hsum hroom halloc =>
    have hk := lt_of_size hsize hsum
    obtain ⟨ret, chunk', heq, ha⟩ := pcpuAllocArea_spec hv hunit hk hsize hsum hroom
    obtain ⟨rfl, rfl⟩ := Prod.mk.inj (some.inj (heq.symm.trans halloc))
    exact ⟨ha.valid hv hsize, ha.holds hh hv hunit hsize hk⟩
  | free hmem hfree =>
    obtain ⟨chunk', heq, hv', hh'⟩ := free_valid hv hh hmem
    obtain rfl := some.inj (heq.symm.trans hfree)
    exact ⟨hv', hh'⟩
  | extend =>
    rw [pcpuExtendAreaMap]
    split_ifs
    · exact ⟨hv, hh⟩
    · exact ⟨⟨hv.ne_zero, hv.total_eq, hv.freeSize_eq, hv.coalesced, hv.le_hint⟩, hh⟩

theorem Alloc.none_fits (h : Valid unitSize chunk) (hunit : unitSize < 2 ^ 31) (hk : k < 31)
    (ha : Alloc chunk size (2 ^ k) none chunk') (hmem : (o, e) ∈ entries 0 chunk.map)
    (hpos : 0 < e) : ¬ ∃ a, 2 ^ k ∣ a ∧ o ≤ a ∧ (a + size : ℤ) ≤ o + e := by
  rintro ⟨a, hdvd, hle, hfit⟩
  cases ha with
  | fail hint _ hnone =>
    have hlt := hnone o e hmem hpos
    have hb := entries_bounds hmem
    rw [h.total_eq] at hb
    obtain ⟨d, hd, -, -, hmin⟩ := headSize_spec o hk (by omega)
    have := hmin a hle hdvd
    omega

/-- The map of a chunk after any sequence of allocations and frees: it describes disjoint areas
that fill the chunk, neither of the two operations hits a `BUG_ON`, and an allocation only fails if
there is no room for it. -/
theorem pcpu_area_map_sound {s : State} {ops : List Op} (hpos : 0 < unitSize)
    (hunit : unitSize < 2 ^ 31) (hrun : Run Step ⟨pcpuAllocChunk unitSize, []⟩ ops s) :
    total s.chunk.map = unitSize ∧ s.chunk.freeSize = freeBytes s.chunk.map ∧
    Coalesced s.chunk.map ∧ (∀ e ∈ s.chunk.map, 0 < e → e ≤ s.chunk.contigHint) ∧
    (s.areas.map Area.off).Nodup ∧
    (∀ a ∈ s.areas, a.al ∣ a.off ∧ ∃ e < 0, (a.off, e) ∈ entries 0 s.chunk.map ∧
      a.size ≤ e.natAbs ∧ ∀ b ∈ s.areas, a.off < b.off → a.off + e.natAbs ≤ b.off) ∧
    (∀ size k, 0 < size → size + 2 ^ k ≤ 2 ^ 31 → s.chunk.mapUsed + 2 ≤ s.chunk.mapAlloc →
      ∃ ret chunk', pcpuAllocArea s.chunk size (2 ^ k) = some (ret, chunk') ∧
        (ret = none → ∀ o e, (o, e) ∈ entries 0 s.chunk.map → 0 < e →
          ¬ ∃ a, 2 ^ k ∣ a ∧ o ≤ a ∧ (a + size : ℤ) ≤ o + e)) ∧
    ∀ a ∈ s.areas, (pcpuFreeArea s.chunk a.off).isSome := by
  obtain ⟨hv, hh⟩ := hrun.invariant
    (I := fun s : State => Valid unitSize s.chunk ∧ Holds s.chunk.map s.areas)
    (Step.invariant hunit)
    ⟨.fresh hpos, ⟨by simp, by simp, nodup_nil⟩⟩
  refine ⟨hv.total_eq, hv.freeSize_eq, hv.coalesced, hv.le_hint, hh.nodup, ?_, ?_, ?_⟩
  · intro a ha
    obtain ⟨e, he, hmem, hle⟩ := hh.allocated a ha
    refine ⟨hh.aligned a ha, e, he, hmem, hle, fun b hb hlt => ?_⟩
    obtain ⟨e', -, hmem', -⟩ := hh.allocated b hb
    exact entries_disjoint hmem hmem' hlt
  · intro size k hsize hsum hroom
    have hk := lt_of_size hsize hsum
    obtain ⟨ret, chunk', heq, ha⟩ := pcpuAllocArea_spec hv hunit hk hsize hsum hroom
    refine ⟨ret, chunk', heq, ?_⟩
    rintro rfl o e hmem he
    exact ha.none_fits hv hunit hk hmem he
  · intro a ha
    obtain ⟨chunk', heq, -⟩ := free_valid hv hh ha
    rw [heq]
    rfl

/-- An area of which a tail is kept, one that is aligned away from it, and a free between them. -/
theorem pcpu_area_map_sound_small : ∃ s : State,
    Run Step ⟨pcpuAllocChunk 64, []⟩ [.alloc 5 (2 ^ 0), .alloc 8 (2 ^ 3), .free 0] s ∧
    total s.chunk.map = 64 := by
  have h₁ : pcpuAllocArea (pcpuAllocChunk 64) 5 (2 ^ 0) =
      some (some 0, ⟨[-5, 59], 16, 59, 59⟩) := by decide
  have h₂ : pcpuAllocArea ⟨[-5, 59], 16, 59, 59⟩ 8 (2 ^ 3) =
      some (some 8, ⟨[-8, -8, 48], 16, 48, 48⟩) := by decide
  have h₃ : pcpuFreeArea ⟨[-8, -8, 48], 16, 48, 48⟩ 0 = some ⟨[8, -8, 48], 16, 56, 48⟩ := by decide
  have hrun : Run Step ⟨pcpuAllocChunk 64, []⟩ [.alloc 5 (2 ^ 0), .alloc 8 (2 ^ 3), .free 0]
      ⟨⟨[8, -8, 48], 16, 56, 48⟩, [⟨8, 8, 8⟩]⟩ :=
    .cons (.alloc (by decide) (by decide) (by decide) h₁)
      (.cons (.alloc (by decide) (by decide) (by decide) h₂)
        (.cons (.free (a := ⟨0, 5, 1⟩) (by decide) h₃) (.nil _)))
  exact ⟨_, hrun, (pcpu_area_map_sound (by decide) (by decide) hrun).1⟩

/-- A size that wraps when the head is added to it: the block is taken although it is too small. -/
theorem oversized_area_allocated :
    pcpuAllocArea (pcpuAllocChunk 32768) 4 4 = some (some 0, ⟨[-4, 32764], 16, 32764, 32764⟩) ∧
    ∃ chunk', pcpuAllocArea ⟨[-4, 32764], 16, 32764, 32764⟩ (2 ^ 31 - 1) 8 =
        some (some 8, chunk') ∧ total chunk'.map ≠ 32768 := by
  refine ⟨by decide, ⟨[-4, 4, -2147483647, -2147450887], 16, -2147450883, 4⟩, by decide, by decide⟩

end Runs

end LinuxKernel.Percpu
