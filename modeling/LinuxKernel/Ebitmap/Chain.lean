import Mathlib.Algebra.Ring.Divisibility.Basic
import LinuxKernel.Ebitmap.Model

/-! # The nodes of a bitmap

The nodes of a bitmap are sorted, aligned and not empty, and the bitmap ends with its last node.
`ebitmap_set_bit` keeps this form.
-/

namespace LinuxKernel.Selinux

open Bitmap List Nat Bool

variable {a : Arch}

section Nodes

variable {n n' : Node a} {ns ns' p r : List (Node a)} {b bit : ℕ}

theorem size_eq (a : Arch) : a.size = a.unitSize * a.unitNums := mul_comm ..

theorem size_pos (a : Arch) : 0 < a.size := by cases a <;> decide

theorem Node.lt_of_lt_size (n : Node a) {i : ℕ} (h : i < a.size) :
    i < a.unitSize * n.maps.length := by
  rwa [n.length_maps, ← size_eq]

def Node.Has (n : Node a) (b : ℕ) : Prop :=
  n.startbit ≤ b ∧ b < n.startbit + a.size ∧ testBit n.maps (b - n.startbit)

def Mem (ns : List (Node a)) (b : ℕ) : Prop := ∃ n ∈ ns, n.Has b

@[simp] theorem mem_nil : ¬ Mem (a := a) [] b := by
  rintro ⟨n, hn, -⟩
  exact absurd hn not_mem_nil

@[simp] theorem mem_cons : Mem (n :: ns) b ↔ n.Has b ∨ Mem ns b := by simp [Mem]

@[simp] theorem mem_append : Mem (ns ++ ns') b ↔ Mem ns b ∨ Mem ns' b := by
  simp [Mem, or_and_right, exists_or]

section

variable (h : n.startbit ≤ bit) (h' : bit < n.startbit + a.size)
include h h'

theorem index_lt : ¬ a.unitNums ≤ (bit - n.startbit) / a.unitSize := by
  refine not_le.mpr (Nat.div_lt_of_lt_mul ?_)
  rw [← size_eq]
  omega

theorem ebitmapNodeGetBit_eq : ebitmapNodeGetBit n bit = some (testBit n.maps (bit - n.startbit)) :=
  if_neg (index_lt h h')

theorem ebitmapNodeSetBit_eq : ebitmapNodeSetBit n bit = some (n.set (bit - n.startbit)) :=
  if_neg (index_lt h h')

theorem ebitmapNodeClrBit_eq : ebitmapNodeClrBit n bit = some (n.clear (bit - n.startbit)) :=
  if_neg (index_lt h h')

theorem has_set : (n.set (bit - n.startbit)).Has b ↔ b = bit ∨ n.Has b := by
  have hbit := testBit_setBit (b - n.startbit) (n.lt_of_lt_size (i := bit - n.startbit) (by omega))
  simp only [Node.Has, Node.set, hbit, or_eq_true, decide_eq_true_eq]
  constructor
  · rintro ⟨h1, h2, h3 | h3⟩
    · exact .inl (by omega)
    · exact .inr ⟨h1, h2, h3⟩
  · rintro (rfl | ⟨h1, h2, h3⟩)
    · exact ⟨h, h', .inl rfl⟩
    · exact ⟨h1, h2, .inr h3⟩

theorem has_clear : (n.clear (bit - n.startbit)).Has b ↔ n.Has b ∧ b ≠ bit := by
  have hbit := testBit_clearBit (b - n.startbit)
    (n.lt_of_lt_size (i := bit - n.startbit) (by omega))
  simp only [Node.Has, Node.clear, hbit, and_eq_true, not_eq_true', decide_eq_false_iff_not]
  constructor
  · rintro ⟨h1, h2, h3, h4⟩
    exact ⟨⟨h1, h2, h4⟩, by omega⟩
  · rintro ⟨⟨h1, h2, h3⟩, hne⟩
    exact ⟨h1, h2, by omega, h3⟩

end

theorem not_has_zero (startbit : ℕ) : ¬ (Node.zero startbit a).Has b := by
  rintro ⟨-, -, hbit⟩
  rw [testBit_eq_false] at hbit
  · exact absurd hbit (by simp)
  · exact fun x hx => eq_of_mem_replicate hx

/-- `find_first_bit` finds a bit in a node that is not empty. -/
theorem findNextBit_lt_iff : findNextBit n.maps a.size 0 < a.size ↔ ∃ b, n.Has b := by
  rcases findNextBit_cases n.maps a.size 0 with ⟨h, hnil⟩ | ⟨i, h, hi, hcons⟩
  · rw [h]
    refine ⟨fun hlt => absurd hlt (lt_irrefl _), fun ⟨b, h1, h2, h3⟩ => ?_⟩
    have hmem : b - n.startbit ∈ bitsFrom n.maps a.size 0 :=
      mem_bitsFrom.mpr ⟨zero_le _, by omega, h3⟩
    rw [hnil] at hmem
    exact absurd hmem not_mem_nil
  · rw [h]
    have hmem : i ∈ bitsFrom n.maps a.size 0 := hcons ▸ mem_cons_self
    refine ⟨fun _ => ⟨n.startbit + i, by omega, by omega, ?_⟩, fun _ => hi⟩
    rw [Nat.add_sub_cancel_left]
    exact (mem_bitsFrom.mp hmem).2.2

end Nodes

section Chain

variable {n n' : Node a} {ns ns' p r : List (Node a)} {b bit : ℕ}

structure Chain (ns : List (Node a)) : Prop where
  sorted : ns.Pairwise fun n n' => n.startbit < n'.startbit
  aligned : ∀ n ∈ ns, a.size ∣ n.startbit
  nonempty : ∀ n ∈ ns, ∃ b, n.Has b

def endOf (ns : List (Node a)) : ℕ := ns.getLast?.elim 0 fun n => n.startbit + a.size

structure Canonical (e : Ebitmap a) : Prop where
  chain : Chain e.nodes
  highbit : e.highbit = endOf e.nodes

theorem canonical_init : Canonical (ebitmapInit (a := a)) := ⟨⟨.nil, nofun, nofun⟩, rfl⟩

theorem add_size_le {s t : ℕ} (hs : a.size ∣ s) (ht : a.size ∣ t) (h : s < t) : s + a.size ≤ t := by
  obtain ⟨k, rfl⟩ := hs
  obtain ⟨m, rfl⟩ := ht
  have hkm : k < m := Nat.lt_of_mul_lt_mul_left h
  calc a.size * k + a.size = a.size * (k + 1) := (mul_succ ..).symm
    _ ≤ a.size * m := mul_le_mul_left _ hkm

theorem Chain.tail (h : Chain (n :: ns)) : Chain ns :=
  ⟨(pairwise_cons.mp h.sorted).2, fun n' hn' => h.aligned n' (mem_cons_of_mem _ hn'),
    fun n' hn' => h.nonempty n' (mem_cons_of_mem _ hn')⟩

theorem Chain.add_size_le (h : Chain (n :: ns)) (hn' : n' ∈ ns) :
    n.startbit + a.size ≤ n'.startbit :=
  Selinux.add_size_le (h.aligned n mem_cons_self) (h.aligned n' (mem_cons_of_mem _ hn'))
    ((pairwise_cons.mp h.sorted).1 n' hn')

theorem Chain.le_of_mem (h : Chain (n :: ns)) (hb : Mem ns b) : n.startbit + a.size ≤ b := by
  obtain ⟨n', hn', hle, -⟩ := hb
  exact (h.add_size_le hn').trans hle

theorem endOf_append (h : r ≠ []) : endOf (p ++ r) = endOf r := by
  rw [endOf, endOf, getLast?_append, getLast?_eq_some_getLast h]
  rfl

theorem endOf_cons (h : ns ≠ []) : endOf (n :: ns) = endOf ns := endOf_append (p := [n]) h

theorem Chain.lt_endOf (h : Chain ns) (hb : Mem ns b) : b < endOf ns := by
  induction ns generalizing b with
  | nil => exact absurd hb mem_nil
  | cons n ns ih =>
    rcases mem_cons.mp hb with ⟨-, hlt, -⟩ | hb
    · cases ns with
      | nil => exact hlt
      | cons n' ns =>
        rw [endOf_cons (cons_ne_nil _ _)]
        obtain ⟨b', hb'⟩ := h.nonempty n' (by simp)
        have hlt' := ih h.tail (mem_cons.mpr (.inl hb'))
        have hle := h.le_of_mem (mem_cons.mpr (.inl hb'))
        omega
    · have hne : ns ≠ [] := fun hnil => mem_nil (hnil ▸ hb)
      rw [endOf_cons hne]
      exact ih h.tail hb

theorem Chain.replace (h : Chain (p ++ n :: r)) (hstart : n'.startbit = n.startbit)
    (hne : ∃ b, n'.Has b) : Chain (p ++ n' :: r) := by
  refine ⟨?_, fun m hm => ?_, fun m hm => ?_⟩
  · simpa only [pairwise_append, pairwise_cons, List.mem_cons, forall_eq_or_imp, hstart]
      using h.sorted
  · rcases List.mem_append.mp hm with hm | hm
    · exact h.aligned m (mem_append_left _ hm)
    · rcases List.mem_cons.mp hm with rfl | hm
      · exact hstart ▸ h.aligned n (by simp)
      · exact h.aligned m (by simp [hm])
  · rcases List.mem_append.mp hm with hm | hm
    · exact h.nonempty m (mem_append_left _ hm)
    · rcases List.mem_cons.mp hm with rfl | hm
      · exact hne
      · exact h.nonempty m (by simp [hm])

theorem Chain.sublist (h : Chain ns) (hsub : ns'.Sublist ns) : Chain ns' :=
  ⟨h.sorted.sublist hsub, fun n hn => h.aligned n (hsub.subset hn),
    fun n hn => h.nonempty n (hsub.subset hn)⟩

theorem Chain.insert (h : Chain (p ++ r)) (halign : a.size ∣ n.startbit) (hne : ∃ b, n.Has b)
    (hp : ∀ m ∈ p, m.startbit < n.startbit) (hr : ∀ m ∈ r, n.startbit < m.startbit) :
    Chain (p ++ n :: r) := by
  have hmem : ∀ m, m ∈ p ++ n :: r → m = n ∨ m ∈ p ++ r := fun m hm => by
    simpa using perm_middle.mem_iff.mp hm
  refine ⟨?_, fun m hm => ?_, fun m hm => ?_⟩
  · have hsorted := h.sorted
    rw [pairwise_append] at hsorted ⊢
    refine ⟨hsorted.1, pairwise_cons.mpr ⟨hr, hsorted.2.1⟩, fun m hm m' hm' => ?_⟩
    rcases List.mem_cons.mp hm' with rfl | hm'
    · exact hp m hm
    · exact hsorted.2.2 m hm m' hm'
  · rcases hmem m hm with rfl | hm
    · exact halign
    · exact h.aligned m hm
  · rcases hmem m hm with rfl | hm
    · exact hne
    · exact h.nonempty m hm

end Chain

section Bits

variable {n : Node a} {ns : List (Node a)} {e : Ebitmap a} {b bit : ℕ}

theorem getBitLoop_spec (h : Chain ns) (bit : ℕ) :
    ∃ v, getBitLoop bit ns = some v ∧ (v = true ↔ Mem ns bit) := by
  induction ns with
  | nil => exact ⟨false, rfl, by simp⟩
  | cons n ns ih =>
    rw [getBitLoop]
    split
    · rename_i hle
      split
      · rename_i hlt
        refine ⟨_, ebitmapNodeGetBit_eq hle hlt, ?_⟩
        have hother : ¬ Mem ns bit := fun hmem => absurd (h.le_of_mem hmem) (not_le.mpr hlt)
        rw [mem_cons, or_iff_left hother]
        exact ⟨fun hbit => ⟨hle, hlt, hbit⟩, fun hhas => hhas.2.2⟩
      · rename_i hge
        obtain ⟨v, hv, hiff⟩ := ih h.tail
        refine ⟨v, hv, hiff.trans ?_⟩
        rw [mem_cons, or_iff_right fun hhas => hge hhas.2.1]
    · rename_i hgt
      refine ⟨false, rfl, ?_⟩
      have hother : ¬ Mem ns bit := fun hmem => by
        have := h.le_of_mem hmem
        omega
      rw [mem_cons, or_iff_left hother]
      exact ⟨nofun, fun hhas => absurd hhas.1 hgt⟩

/-- `ebitmap_get_bit` answers membership. -/
theorem ebitmapGetBit_spec (h : Canonical e) (bit : ℕ) :
    ∃ v, ebitmapGetBit e bit = some v ∧ (v = true ↔ Mem e.nodes bit) := by
  rw [ebitmapGetBit]
  split
  · refine ⟨false, rfl, nofun, fun hmem => ?_⟩
    have := h.chain.lt_endOf hmem
    rw [← h.highbit] at this
    omega
  · exact getBitLoop_spec h.chain bit

theorem seek_spec (bit : ℕ) (ns : List (Node a)) :
    (seek bit ns).1 ++ (seek bit ns).2 = ns ∧ (∀ n ∈ (seek bit ns).1, n.startbit + a.size ≤ bit) ∧
      ∀ n ∈ (seek bit ns).2.head?, bit < n.startbit + a.size := by
  induction ns with
  | nil => simp [seek]
  | cons n ns ih =>
    rw [seek]
    split
    · rename_i hle
      obtain ⟨happ, hp, hr⟩ := ih
      exact ⟨congrArg (n :: ·) happ, forall_mem_cons.mpr ⟨hle.2, hp⟩, hr⟩
    · refine ⟨rfl, nofun, fun m hm => ?_⟩
      obtain rfl := Option.some.inj hm
      omega

variable {p r : List (Node a)}

/-- What a successful call makes of the set. -/
def Updated (bit : ℕ) (value : Bool) (ns ns' : List (Node a)) : Prop :=
  ∀ b, Mem ns' b ↔ if value then b = bit ∨ Mem ns b else Mem ns b ∧ b ≠ bit

theorem not_mem_of_le (hp : ∀ m ∈ p, m.startbit + a.size ≤ bit) : ¬ Mem p bit := by
  rintro ⟨m, hm, -, hlt, -⟩
  have := hp m hm
  omega

theorem Canonical.replace {n' : Node a} (h : Canonical e) (hnodes : e.nodes = p ++ n :: r)
    (hstart : n'.startbit = n.startbit) (hne : ∃ b, n'.Has b) :
    Canonical { e with nodes := p ++ n' :: r } := by
  have hchain := h.chain
  rw [hnodes] at hchain
  refine ⟨hchain.replace hstart hne, ?_⟩
  rw [h.highbit, hnodes, endOf_append (cons_ne_nil _ _), endOf_append (cons_ne_nil _ _)]
  cases r with
  | nil => exact congrArg (· + a.size) hstart.symm
  | cons m r => rw [endOf_cons (cons_ne_nil _ _), endOf_cons (cons_ne_nil _ _)]

theorem Canonical.drop (h : Canonical e) (hnodes : e.nodes = p ++ n :: r) :
    Canonical ⟨p ++ r, if r.isEmpty then p.getLast?.elim 0 fun p => p.startbit + a.size
      else e.highbit⟩ := by
  have hchain := h.chain
  rw [hnodes] at hchain
  refine ⟨hchain.sublist ((sublist_cons_self n r).append_left p), ?_⟩
  cases r with
  | nil =>
    rw [append_nil]
    rfl
  | cons m r =>
    change e.highbit = _
    rw [h.highbit, hnodes, endOf_append (cons_ne_nil _ _), endOf_append (cons_ne_nil _ _),
      endOf_cons (cons_ne_nil _ _)]

theorem ebitmapSetBit_found (value alloc : Bool) (h : Canonical e) (hnodes : e.nodes = p ++ n :: r)
    (hp : ∀ m ∈ p, m.startbit + a.size ≤ bit) (hle : n.startbit ≤ bit)
    (hlt : bit < n.startbit + a.size) (hseek : seek bit e.nodes = (p, n :: r)) :
    ∃ e', ebitmapSetBit e bit value alloc = some (none, e') ∧ Canonical e' ∧
      Updated bit value e.nodes e'.nodes := by
  have hchain := h.chain
  rw [hnodes] at hchain
  have hbitp := not_mem_of_le hp
  have hbitr : ¬ Mem r bit := fun hmem => by
    have := (hchain.sublist (sublist_append_right p _)).le_of_mem hmem
    omega
  have hfilter : ((n :: r).head?.filter fun n => n.startbit ≤ bit) = some n := by
    simpa using hle
  rw [ebitmapSetBit, hseek]
  dsimp only
  rw [hfilter]
  cases value with
  | true =>
    refine ⟨{ e with nodes := p ++ n.set (bit - n.startbit) :: r },
      by simp only [ebitmapNodeSetBit_eq hle hlt]; rfl, h.replace hnodes rfl ?_, fun b => ?_⟩
    · exact ⟨bit, (has_set hle hlt).mpr (.inl rfl)⟩
    · rw [hnodes]
      simp only [mem_append, mem_cons, has_set hle hlt, if_true]
      tauto
  | false =>
    have hupdated : ∀ b, Mem p b ∨ (n.clear (bit - n.startbit)).Has b ∨ Mem r b ↔
        (Mem p b ∨ n.Has b ∨ Mem r b) ∧ b ≠ bit := fun b => by
      rw [has_clear hle hlt]
      by_cases hb : b = bit
      · subst hb
        simp [hbitp, hbitr]
      · simp [hb]
    by_cases hfirst : findNextBit (n.clear (bit - n.startbit)).maps a.size 0 < a.size
    · refine ⟨{ e with nodes := p ++ n.clear (bit - n.startbit) :: r },
        by simp only [ebitmapNodeClrBit_eq hle hlt]; exact if_pos hfirst,
        h.replace hnodes rfl (findNextBit_lt_iff.mp hfirst), fun b => ?_⟩
      rw [hnodes]
      simpa only [mem_append, mem_cons, false_eq_true, if_false] using hupdated b
    · refine ⟨_, by simp only [ebitmapNodeClrBit_eq hle hlt]; exact if_neg hfirst, h.drop hnodes,
        fun b => ?_⟩
      have hempty : ¬ (n.clear (bit - n.startbit)).Has b := fun hhas =>
        hfirst (findNextBit_lt_iff.mpr ⟨b, hhas⟩)
      rw [hnodes]
      have := hupdated b
      rw [or_iff_right hempty] at this
      simpa only [mem_append, mem_cons, false_eq_true, if_false] using this

theorem ebitmapSetBit_insert (value alloc : Bool) (h : Canonical e) (hnodes : e.nodes = p ++ r)
    (hp : ∀ m ∈ p, m.startbit + a.size ≤ bit) (hr : ∀ m ∈ r, bit < m.startbit)
    (hseek : seek bit e.nodes = (p, r)) :
    ∃ err e', ebitmapSetBit e bit value alloc = some (err, e') ∧ Canonical e' ∧
      if err.isSome then e' = e ∧ alloc = false else Updated bit value e.nodes e'.nodes := by
  have hbit : ¬ Mem e.nodes bit := by
    rw [hnodes, mem_append]
    rintro (hmem | ⟨m, hm, hle, -⟩)
    · exact not_mem_of_le hp hmem
    · exact absurd (hr m hm) (not_lt.mpr hle)
  have hfilter : (r.head?.filter fun n => n.startbit ≤ bit) = none := by
    cases r with
    | nil => rfl
    | cons m r => simpa using hr m mem_cons_self
  rw [ebitmapSetBit, hseek]
  dsimp only
  rw [hfilter]
  cases value with
  | false =>
    refine ⟨none, e, rfl, h, fun b => ?_⟩
    refine ⟨fun hmem => ⟨hmem, fun heq => hbit (heq ▸ hmem)⟩, And.left⟩
  | true =>
  cases alloc with
  | false => exact ⟨_, e, rfl, h, rfl, rfl⟩
  | true =>
    have hmod := mod_lt bit (size_pos a)
    obtain ⟨z, hz⟩ : ∃ z, Node.zero (bit - bit % a.size) a = z := ⟨_, rfl⟩
    have hstart : z.startbit = bit - bit % a.size := hz ▸ rfl
    have hempty : ∀ b, ¬ z.Has b := fun b => hz ▸ not_has_zero _
    have hle : z.startbit ≤ bit := by omega
    have hlt : bit < z.startbit + a.size := by omega
    have halign : a.size ∣ z.startbit := hstart ▸ dvd_sub_mod bit
    refine ⟨none, ⟨p ++ z.set (bit - z.startbit) :: r,
      if r.isEmpty then z.startbit + a.size else e.highbit⟩, ?_, ⟨?_, ?_⟩, fun b => ?_⟩
    · simp only [hz, ebitmapNodeSetBit_eq hle hlt]
      rfl
    · have hchain := h.chain
      rw [hnodes] at hchain
      refine hchain.insert halign ⟨bit, (has_set hle hlt).mpr (.inl rfl)⟩ (fun m hm => ?_)
        fun m hm => ?_
      · have := hp m hm
        change m.startbit < z.startbit
        omega
      · have := hr m hm
        change z.startbit < m.startbit
        omega
    · cases r with
      | nil =>
        rw [endOf_append (cons_ne_nil _ _)]
        rfl
      | cons m r =>
        change e.highbit = _
        rw [h.highbit, hnodes, endOf_append (cons_ne_nil _ _),
          endOf_append (cons_ne_nil _ _), endOf_cons (cons_ne_nil _ _)]
    · rw [hnodes]
      simp only [mem_append, mem_cons, has_set hle hlt, if_true]
      tauto

/-- `ebitmap_set_bit` updates the set, or leaves it if there is no memory. -/
theorem ebitmapSetBit_spec (h : Canonical e) (bit : ℕ) (value alloc : Bool) :
    ∃ err e', ebitmapSetBit e bit value alloc = some (err, e') ∧ Canonical e' ∧
      if err.isSome then e' = e ∧ alloc = false else Updated bit value e.nodes e'.nodes := by
  obtain ⟨happ, hp, hr⟩ := seek_spec bit e.nodes
  have hseek : seek bit e.nodes = ((seek bit e.nodes).1, (seek bit e.nodes).2) := rfl
  cases hrest : (seek bit e.nodes).2 with
  | nil =>
    rw [hrest] at hseek happ
    exact ebitmapSetBit_insert value alloc h happ.symm hp nofun hseek
  | cons n r =>
    rw [hrest] at hseek happ hr
    by_cases hle : n.startbit ≤ bit
    · obtain ⟨e', he', hcan, hupd⟩ :=
        ebitmapSetBit_found value alloc h happ.symm hp hle (hr n rfl) hseek
      exact ⟨none, e', he', hcan, hupd⟩
    · refine ebitmapSetBit_insert value alloc h happ.symm hp (fun m hm => ?_) hseek
      have hchain := h.chain
      rw [← happ] at hchain
      rcases List.mem_cons.mp hm with rfl | hm
      · exact not_le.mp hle
      · have := (hchain.sublist (sublist_append_right _ _)).add_size_le hm
        omega

end Bits

end LinuxKernel.Selinux
