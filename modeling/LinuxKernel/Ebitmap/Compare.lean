import LinuxKernel.Base.Fuel
import LinuxKernel.Ebitmap.Chain

/-! # Comparison and iteration

Nodes in canonical form are determined by their set, so equality and inclusion can be decided on the
nodes. The bits of the set are visited in their order.
-/

namespace LinuxKernel.Selinux

open Bitmap List Nat

variable {a : Arch}

section Compare

variable {n n₁ n₂ : Node a} {ns ns₁ ns₂ : List (Node a)} {e₁ e₂ : Ebitmap a} {b : ℕ}

theorem Node.Has.startbit_eq (h₁ : n₁.Has b) (h₂ : n₂.Has b) (ha₁ : a.size ∣ n₁.startbit)
    (ha₂ : a.size ∣ n₂.startbit) : n₁.startbit = n₂.startbit := by
  obtain ⟨hle₁, hlt₁, -⟩ := h₁
  obtain ⟨hle₂, hlt₂, -⟩ := h₂
  rcases lt_trichotomy n₁.startbit n₂.startbit with hlt | heq | hgt
  · have := add_size_le ha₁ ha₂ hlt
    omega
  · exact heq
  · have := add_size_le ha₂ ha₁ hgt
    omega

theorem Chain.head_le (h : Chain (n :: ns)) (hb : Mem (n :: ns) b) : n.startbit ≤ b := by
  rcases mem_cons.mp hb with hhas | hmem
  · exact hhas.1
  · exact le_of_add_right_le (h.le_of_mem hmem)

theorem Chain.head_startbit_le (h₁ : Chain (n₁ :: ns₁)) (h₂ : Chain (n₂ :: ns₂))
    (h : ∀ b, Mem (n₂ :: ns₂) b → Mem (n₁ :: ns₁) b) : n₁.startbit ≤ n₂.startbit := by
  obtain ⟨b, hb⟩ := h₂.nonempty n₂ mem_cons_self
  obtain ⟨n, hn, hnb⟩ := h b (mem_cons.mpr (.inl hb))
  rw [hb.startbit_eq hnb (h₂.aligned n₂ mem_cons_self) (h₁.aligned n hn)]
  rcases List.mem_cons.mp hn with rfl | hn
  · exact le_refl _
  · exact le_of_add_right_le (h₁.add_size_le hn)

theorem Node.ext_has (hstart : n₁.startbit = n₂.startbit) (h : ∀ b, n₁.Has b ↔ n₂.Has b) :
    n₁ = n₂ := by
  have hmaps : n₁.maps = n₂.maps := by
    refine ext_testBit (n₁.length_maps.trans n₂.length_maps.symm) fun i hi => ?_
    rw [n₁.length_maps, ← size_eq] at hi
    have := h (n₁.startbit + i)
    simp only [Node.Has, hstart, le_add_right, Nat.add_lt_add_iff_left, hi, true_and,
      Nat.add_sub_cancel_left] at this
    exact Bool.eq_iff_iff.mpr this
  cases n₁
  cases n₂
  simp_all

/-- The nodes are determined by the set. -/
theorem Chain.ext (h₁ : Chain ns₁) (h₂ : Chain ns₂) (h : ∀ b, Mem ns₁ b ↔ Mem ns₂ b) :
    ns₁ = ns₂ := by
  induction ns₁ generalizing ns₂ with
  | nil =>
    cases ns₂ with
    | nil => rfl
    | cons n₂ ns₂ =>
      obtain ⟨b, hb⟩ := h₂.nonempty n₂ mem_cons_self
      exact absurd ((h b).mpr (mem_cons.mpr (.inl hb))) mem_nil
  | cons n₁ ns₁ ih =>
    cases ns₂ with
    | nil =>
      obtain ⟨b, hb⟩ := h₁.nonempty n₁ mem_cons_self
      exact absurd ((h b).mp (mem_cons.mpr (.inl hb))) mem_nil
    | cons n₂ ns₂ =>
      have hstart : n₁.startbit = n₂.startbit :=
        le_antisymm (h₁.head_startbit_le h₂ fun b => (h b).mpr)
          (h₂.head_startbit_le h₁ fun b => (h b).mp)
      -- the bits of the first nodes are those before their end
      have hhas : ∀ {n : Node a} {ns : List (Node a)}, Chain (n :: ns) → ∀ b,
          n.Has b ↔ Mem (n :: ns) b ∧ b < n.startbit + a.size := fun {n ns} hc b => by
        rw [mem_cons]
        refine ⟨fun hb => ⟨.inl hb, hb.2.1⟩, fun ⟨hb, hlt⟩ => hb.resolve_right fun hmem => ?_⟩
        exact absurd (hc.le_of_mem hmem) (not_le.mpr hlt)
      have hmem : ∀ {n : Node a} {ns : List (Node a)}, Chain (n :: ns) → ∀ b,
          Mem ns b ↔ Mem (n :: ns) b ∧ n.startbit + a.size ≤ b := fun {n ns} hc b => by
        rw [mem_cons]
        refine ⟨fun hb => ⟨.inr hb, hc.le_of_mem hb⟩,
          fun ⟨hb, hle⟩ => hb.resolve_left fun hhas => ?_⟩
        exact absurd hhas.2.1 (not_lt.mpr hle)
      have hnode : n₁ = n₂ := Node.ext_has hstart fun b => by
        rw [hhas h₁, hhas h₂, h, hstart]
      have htail : ns₁ = ns₂ := ih h₁.tail h₂.tail fun b => by
        rw [hmem h₁, hmem h₂, h, hstart]
      rw [hnode, htail]

theorem ebitmapCmp_loop_eq_true : ebitmapCmp.loop ns₁ ns₂ = true ↔ ns₁ = ns₂ := by
  induction ns₁ generalizing ns₂ with
  | nil => cases ns₂ <;> simp [ebitmapCmp.loop]
  | cons n₁ ns₁ ih =>
    cases ns₂ with
    | nil => simp [ebitmapCmp.loop]
    | cons n₂ ns₂ =>
      rw [ebitmapCmp.loop, cons.injEq, ← ih]
      have hnode : n₁ = n₂ ↔ n₁.startbit = n₂.startbit ∧ n₁.maps = n₂.maps := by
        cases n₁
        cases n₂
        simp
      by_cases h : n₁.startbit = n₂.startbit ∧ n₁.maps = n₂.maps
      · rw [hnode]
        simp [h]
      · rw [hnode]
        simp [h]

/-- `ebitmap_cmp` tells whether the sets are equal. -/
theorem ebitmapCmp_iff (h₁ : Canonical e₁) (h₂ : Canonical e₂) :
    ebitmapCmp e₁ e₂ = true ↔ ∀ b, Mem e₁.nodes b ↔ Mem e₂.nodes b := by
  rw [ebitmapCmp, h₁.highbit, h₂.highbit]
  constructor
  · intro h
    split at h
    · exact absurd h (by simp)
    · rw [ebitmapCmp_loop_eq_true.mp h]
      exact fun b => Iff.rfl
  · intro h
    rw [h₁.chain.ext h₂.chain h, if_neg (by simp)]
    exact ebitmapCmp_loop_eq_true.mpr rfl

/-- The words of one node have the bits of another one at the same place. -/
theorem maps_and_eq_iff (hstart : n₁.startbit = n₂.startbit) :
    ((List.range a.unitNums).all fun i =>
      n₁.maps.getD i 0 &&& n₂.maps.getD i 0 == n₂.maps.getD i 0) = true ↔
      ∀ b, n₂.Has b → n₁.Has b := by
  simp only [all_eq_true, mem_range, beq_iff_eq]
  rw [forall_and_eq_iff, ← size_eq]
  constructor
  · rintro h b ⟨hle, hlt, hbit⟩
    rw [← hstart] at hle hlt hbit
    exact ⟨hle, hlt, h _ (by omega) hbit⟩
  · intro h i hi hbit
    have hhas : n₂.Has (n₂.startbit + i) := by
      refine ⟨by omega, by omega, ?_⟩
      rwa [Nat.add_sub_cancel_left]
    have := (h _ hhas).2.2
    rwa [hstart, Nat.add_sub_cancel_left] at this

theorem ebitmapContains_loop_iff (h₁ : Chain ns₁) (h₂ : Chain ns₂) :
    ebitmapContains.loop ns₁ ns₂ = true ↔ ∀ b, Mem ns₂ b → Mem ns₁ b := by
  induction ns₁ generalizing ns₂ with
  | nil =>
    cases ns₂ with
    | nil => simp [ebitmapContains.loop]
    | cons n₂ ns₂ =>
      obtain ⟨b, hb⟩ := h₂.nonempty n₂ mem_cons_self
      refine ⟨nofun, fun h => absurd (h b (mem_cons.mpr (.inl hb))) mem_nil⟩
  | cons n₁ ns₁ ih =>
    cases ns₂ with
    | nil => simp [ebitmapContains.loop]
    | cons n₂ ns₂ =>
      have ha₁ := h₁.aligned n₁ mem_cons_self
      have ha₂ := h₂.aligned n₂ mem_cons_self
      rw [ebitmapContains.loop]
      rcases lt_trichotomy n₁.startbit n₂.startbit with hlt | heq | hgt
      · rw [if_pos hlt, ih h₁.tail h₂]
        refine forall_congr' fun b => imp_congr_right fun hb => ?_
        have hle := h₂.head_le hb
        have := add_size_le ha₁ ha₂ hlt
        rw [mem_cons, or_iff_right fun hhas => absurd hhas.2.1 (by omega)]
      · rw [if_neg (by omega), if_pos heq]
        have htails : (∀ b, Mem (n₂ :: ns₂) b → Mem (n₁ :: ns₁) b) ↔
            (∀ b, n₂.Has b → n₁.Has b) ∧ ∀ b, Mem ns₂ b → Mem ns₁ b := by
          constructor
          · refine fun h => ⟨fun b hb => ?_, fun b hb => ?_⟩
            · refine (mem_cons.mp (h b (mem_cons.mpr (.inl hb)))).resolve_right fun hmem => ?_
              have := h₁.le_of_mem hmem
              have := hb.2.1
              omega
            · refine (mem_cons.mp (h b (mem_cons.mpr (.inr hb)))).resolve_left fun hhas => ?_
              have := h₂.le_of_mem hb
              have := hhas.2.1
              omega
          · rintro ⟨hhas, hmem⟩ b hb
            rw [mem_cons] at hb ⊢
            exact hb.imp (hhas b) (hmem b)
        rw [htails, ← maps_and_eq_iff heq, ← ih h₁.tail h₂.tail]
        split
        · rename_i hall
          exact ⟨fun h => ⟨hall, h⟩, And.right⟩
        · rename_i hall
          exact ⟨nofun, fun h => absurd h.1 hall⟩
      · rw [if_neg (by omega), if_neg (by omega)]
        refine ⟨nofun, fun h => ?_⟩
        obtain ⟨b, hb⟩ := h₂.nonempty n₂ mem_cons_self
        have := h₁.head_le (h b (mem_cons.mpr (.inl hb)))
        have := add_size_le ha₂ ha₁ hgt
        have := hb.2.1
        omega

theorem Chain.exists_mem_endOf (h : Chain ns) (hne : ns ≠ []) :
    ∃ b, Mem ns b ∧ endOf ns ≤ b + a.size ∧ a.size ∣ endOf ns := by
  obtain ⟨n, hn⟩ : ∃ n, ns.getLast? = some n := ⟨_, getLast?_eq_some_getLast hne⟩
  have hmem : n ∈ ns := mem_of_getLast? hn
  obtain ⟨b, hb⟩ := h.nonempty n hmem
  have hend : endOf ns = n.startbit + a.size := by rw [endOf, hn]; rfl
  rw [hend]
  exact ⟨b, ⟨n, hmem, hb⟩, Nat.add_le_add_right hb.1 _,
    Nat.dvd_add (h.aligned n hmem) (dvd_refl _)⟩

theorem Chain.size_dvd_endOf (h : Chain ns) : a.size ∣ endOf ns := by
  by_cases hne : ns = []
  · rw [hne]
    exact Nat.dvd_zero _
  · exact (h.exists_mem_endOf hne).choose_spec.2.2

/-- `ebitmap_contains` tells whether the second set is a subset of the first. -/
theorem ebitmapContains_iff (h₁ : Canonical e₁) (h₂ : Canonical e₂) :
    ebitmapContains e₁ e₂ = true ↔ ∀ b, Mem e₂.nodes b → Mem e₁.nodes b := by
  rw [ebitmapContains, h₁.highbit, h₂.highbit]
  split
  · rename_i hlt
    refine ⟨nofun, fun h => ?_⟩
    have hne : e₂.nodes ≠ [] := fun hnil => by
      rw [hnil] at hlt
      exact absurd hlt (not_lt_zero _)
    obtain ⟨b, hb, hle, hdvd⟩ := h₂.chain.exists_mem_endOf hne
    have := h₁.chain.lt_endOf (h b hb)
    have := add_size_le h₁.chain.size_dvd_endOf hdvd hlt
    omega
  · exact ebitmapContains_loop_iff h₁.chain h₂.chain

end Compare

section Visit

variable {n : Node a} {ns : List (Node a)} {e : Ebitmap a}

def Node.bitsFrom (n : Node a) (k : ℕ) : List ℕ :=
  (Bitmap.bitsFrom n.maps a.size k).map (n.startbit + ·)

def allBits (ns : List (Node a)) : List ℕ := ns.flatMap fun n => n.bitsFrom 0

theorem Node.mem_bitsFrom_zero {b : ℕ} : b ∈ n.bitsFrom 0 ↔ n.Has b := by
  simp only [Node.bitsFrom, mem_map, mem_bitsFrom]
  constructor
  · rintro ⟨i, ⟨-, hi, hbit⟩, rfl⟩
    exact ⟨by omega, by omega, by rwa [Nat.add_sub_cancel_left]⟩
  · rintro ⟨hle, hlt, hbit⟩
    exact ⟨b - n.startbit, ⟨zero_le _, by omega, hbit⟩, by omega⟩

theorem mem_allBits {b : ℕ} : b ∈ allBits ns ↔ Mem ns b := by
  simp only [allBits, mem_flatMap, Node.mem_bitsFrom_zero, Mem]

theorem Chain.pairwise_allBits (h : Chain ns) : (allBits ns).Pairwise (· < ·) := by
  induction ns with
  | nil => exact .nil
  | cons n ns ih =>
    rw [allBits, flatMap_cons, pairwise_append]
    refine ⟨?_, ih h.tail, fun b hb b' hb' => ?_⟩
    · exact pairwise_map.mpr (pairwise_bitsFrom.imp fun hlt => Nat.add_lt_add_left hlt _)
    · have hlt := (Node.mem_bitsFrom_zero.mp hb).2.1
      have hle := h.le_of_mem (mem_allBits.mp hb')
      omega

theorem Node.bitsFrom_cases (n : Node a) (k : ℕ) :
    (findNextBit n.maps a.size k = a.size ∧ n.bitsFrom k = []) ∨
      ∃ i, findNextBit n.maps a.size k = i ∧ i < a.size ∧
        n.bitsFrom k = (n.startbit + i) :: n.bitsFrom (i + 1) := by
  rcases findNextBit_cases n.maps a.size k with ⟨h, hnil⟩ | ⟨i, h, hi, hcons⟩
  · exact .inl ⟨h, by rw [Node.bitsFrom, hnil]; rfl⟩
  · exact .inr ⟨i, h, hi, by rw [Node.bitsFrom, hcons]; rfl⟩

inductive At (length : ℕ) : ℕ × List (Node a) → List ℕ → Prop
  | last : At length (length, []) []
  | bit {n : Node a} {ns : List (Node a)} {i : ℕ} :
      At length (n.startbit + i, n :: ns) ((n.startbit + i) :: (n.bitsFrom (i + 1) ++ allBits ns))

theorem scan_at (length : ℕ) (ns : List (Node a)) : At length (scan length ns) (allBits ns) := by
  induction ns with
  | nil => exact .last
  | cons n ns ih =>
    rw [scan, allBits, flatMap_cons]
    rcases n.bitsFrom_cases 0 with ⟨h, hnil⟩ | ⟨i, h, hi, hcons⟩
    · rw [h, hnil]
      simpa [allBits] using ih
    · rw [h, hcons]
      simp only [hi]
      exact .bit

theorem ebitmapNextPositive_at {pos : ℕ × List (Node a)} {bit : ℕ} {bits : List ℕ}
    (h : At e.highbit pos (bit :: bits)) :
    ∃ pos', ebitmapNextPositive e pos.1 pos.2 = some pos' ∧ At e.highbit pos' bits := by
  cases h with
  | @bit n ns i =>
    refine ⟨_, rfl, ?_⟩
    rw [Nat.add_sub_cancel_left]
    rcases n.bitsFrom_cases (i + 1) with ⟨h, hnil⟩ | ⟨j, h, hj, hcons⟩
    · rw [h, hnil]
      simpa using scan_at e.highbit ns
    · rw [h, hcons]
      simp only [hj]
      rw [add_comm j]
      exact .bit

theorem visit_eq {bits : List ℕ} : ∀ {fuel : ℕ} {pos : ℕ × List (Node a)},
    At e.highbit pos bits → (∀ b ∈ bits, b < e.highbit) → bits.length < fuel →
    visit e fuel pos = some bits := by
  induction bits with
  | nil =>
    intro fuel pos h hlt hfuel
    obtain ⟨fuel, rfl⟩ := exists_eq_succ_of_ne_zero (ne_of_gt hfuel)
    cases h with
    | last => exact if_neg (lt_irrefl _)
  | cons b bits ih =>
    intro fuel pos h hlt hfuel
    obtain ⟨fuel, rfl⟩ := exists_eq_succ_of_ne_zero (ne_of_gt (zero_lt_of_lt hfuel))
    obtain ⟨hb, hlt⟩ := forall_mem_cons.mp hlt
    obtain ⟨pos', hnext, hpos'⟩ := ebitmapNextPositive_at h
    have hrest := ih hpos' hlt (lt_of_succ_lt_succ hfuel)
    cases h with
    | bit =>
      rw [visit, if_pos hb, hnext]
      simp only [Option.bind_eq_bind, Option.bind_some, hrest]
      rfl

/-- `ebitmap_for_each_positive_bit` visits the bits of the nodes in their order. -/
theorem ebitmapForEachPositiveBit_ends (h : Canonical e) :
    Fuel.Ends (ebitmapForEachPositiveBit e) (allBits e.nodes) := by
  refine ⟨(allBits e.nodes).length + 1, fun fuel hfuel => ?_⟩
  refine visit_eq (scan_at e.highbit e.nodes) (fun b hb => ?_) hfuel
  rw [h.highbit]
  exact h.chain.lt_endOf (mem_allBits.mp hb)

end Visit

end LinuxKernel.Selinux
