import Mathlib.Data.Finset.Card
import LinuxKernel.E820.Sweep

/-! # The sanitized map

Without the limits on the number of entries the walk ends with a sanitized map. All sanitized maps
have the same number of entries, and with room for that many the limits do not matter.
-/

namespace LinuxKernel.E820

open Function List Nat

variable {biosmap : Map} {n : ℕ}

section Walk

variable {rest : List ChangeMember} {k : ℕ} {s : Sweep} {p : ChangeMember}

/-- A point of the walk where no limit is reached. -/
def advance (biosmap : Map) (s : Sweep) (p : ChangeMember) : Sweep :=
  let overlap := nextOverlap biosmap s p
  let current := currentType biosmap overlap
  if current = s.lastType then { s with overlap := overlap }
  else openEntry (closeEntry { s with overlap := overlap } p.addr) p.addr current

theorem closeEntry_overlap (s : Sweep) (addr : ℕ) : (closeEntry s addr).overlap = s.overlap := by
  unfold closeEntry
  split <;> rfl

theorem Inv.advance (h : Inv biosmap n (p :: rest) k s) :
    Inv biosmap n rest (key biosmap p) (advance biosmap s p) := by
  unfold E820.advance
  dsimp only
  split
  · next heq => exact h.keep heq
  · next hne => exact h.openEntry rfl (closeEntry_overlap _ _) (h.closeEntry rfl hne)

theorem Inv.foldl (h : Inv biosmap n rest k s) :
    ∃ k', Inv biosmap n [] k' (rest.foldl (E820.advance biosmap) s) := by
  induction rest generalizing k s with
  | nil => exact ⟨k, h⟩
  | cons p rest ih => exact ih h.advance

theorem Inv.initial (hwrap : ∀ i < n, (biosmap i).addr + (biosmap i).size < 2 ^ 64)
    (newBios : Map) :
    Inv biosmap n (sortedPoints biosmap n) 0 ⟨[], newBios, 0, 0, 0⟩ where
  points p hp := (mem_sortedPoints hwrap p).mp hp
  sorted := sortedPoints_pairwise n
  nodup := sortedPoints_nodup hwrap
  rest_ge p _ := zero_le _
  done_le p hp hmem := absurd ((mem_sortedPoints hwrap p).mpr hp) hmem
  overlap_nodup := nodup_nil
  mem_overlap i := by
    simp only [not_mem_nil, false_iff]
    rintro ⟨hi, hs, hmem, -⟩
    exact hmem ((mem_sortedPoints hwrap _).mpr ⟨hi, hs, .inl rfl⟩)
  type := rfl
  emitted := ⟨nofun, nofun, nofun, nofun, nofun⟩
  isOpen h0 := absurd rfl h0
  gap _ := nofun
  touch h0 := absurd rfl h0
  paint := nofun

theorem Inv.sanitized (h : Inv biosmap n [] k s) (htype : ∀ i < n, (biosmap i).type ≠ 0) :
    Sanitized biosmap n s.newBios s.newEntry := by
  have hlast : s.lastType = 0 := by
    have hnil : s.overlap = [] := eq_nil_iff_forall_not_mem.mpr fun i hi =>
      not_mem_nil ((h.mem_overlap i).mp hi).2.2.2
    rw [h.type, hnil]
    rfl
  have hem := h.emitted
  rw [if_pos hlast] at hem
  refine ⟨hem.nonempty, hem.sorted, hem.apart, fun x t => ?_⟩
  rcases eq_or_ne t 0 with rfl | ht
  · constructor
    · rintro ⟨i, hi, -, h0⟩
      exact absurd h0 (hem.typed i hi)
    · rintro ⟨⟨i, hi, -, h0⟩, -⟩
      exact absurd h0 (htype i hi)
  rcases lt_or_ge x (k / 2) with hlt | hge
  · rw [← h.paint x hlt t ht]
    exact (or_iff_left fun hat => ht (hat.1.symm.trans hlast)).symm
  · rw [h.isGreatest_iff hge nofun ht]
    constructor
    · rintro ⟨i, hi, hc, -⟩
      have hstop := hem.stop_le i hi
      unfold E820Entry.stop at hstop
      unfold E820Entry.Covers at hc
      omega
    · intro heq
      exact absurd (heq.symm.trans hlast) ht

end Walk

section Limits

variable {rest : List ChangeMember} {k : ℕ} {s t : Sweep} {p : ChangeMember}

/-- A later state of a walk: the finished entries stay. -/
structure Later (s t : Sweep) : Prop where
  newEntry_le : s.newEntry ≤ t.newEntry
  newBios_eq : ∀ i < s.newEntry, t.newBios i = s.newBios i

theorem Later.refl (s : Sweep) : Later s s := ⟨le.refl, fun _ _ => rfl⟩

theorem Later.trans {u : Sweep} (h : Later s t) (h' : Later t u) : Later s u where
  newEntry_le := le_trans h.newEntry_le h'.newEntry_le
  newBios_eq i hi := (h'.newBios_eq i (lt_of_lt_of_le hi h.newEntry_le)).trans (h.newBios_eq i hi)

theorem later_closeEntry (s : Sweep) (addr : ℕ) : Later s (closeEntry s addr) := by
  unfold closeEntry
  split
  · refine ⟨?_, fun i hi => update_of_ne (by omega) ..⟩
    dsimp only
    split <;> omega
  · exact .refl s

theorem openEntry_newEntry (s : Sweep) (addr current : ℕ) :
    (openEntry s addr current).newEntry = s.newEntry := by
  unfold openEntry
  split <;> rfl

theorem later_openEntry (s : Sweep) (addr current : ℕ) : Later s (openEntry s addr current) := by
  refine ⟨(openEntry_newEntry s addr current).ge, fun i hi => ?_⟩
  unfold openEntry
  split
  · exact update_of_ne (by omega) ..
  · rfl

theorem later_advance (biosmap : Map) (s : Sweep) (p : ChangeMember) :
    Later s (advance biosmap s p) := by
  have hs : Later s { s with overlap := nextOverlap biosmap s p } := ⟨le.refl, fun _ _ => rfl⟩
  unfold advance
  dsimp only
  split
  · exact hs
  · exact (hs.trans (later_closeEntry _ _)).trans (later_openEntry _ _ _)

theorem later_foldl (biosmap : Map) (rest : List ChangeMember) (s : Sweep) :
    Later s (rest.foldl (advance biosmap) s) := by
  induction rest generalizing s with
  | nil => exact .refl s
  | cons p rest ih => exact (later_advance biosmap s p).trans (ih _)

theorem Inv.overlap_length_lt (h : Inv biosmap n (p :: rest) k s)
    (hp : p.addr = (biosmap p.pbios).addr) : s.overlap.length < n := by
  have hnodup : (p.pbios :: s.overlap).Nodup := nodup_cons.mpr ⟨h.start_not_mem hp, h.overlap_nodup⟩
  have hsub : p.pbios :: s.overlap ⊆ range n := by
    intro i hi
    rw [mem_range]
    rcases mem_cons.mp hi with rfl | hi
    · exact (h.points p mem_cons_self).1
    · exact ((h.mem_overlap i).mp hi).1
  have hle := (subperm_of_subset hnodup hsub).length_le
  rw [length_cons, length_range] at hle
  omega

def turnEntry (biosmap : Map) (s : Sweep) (p : ChangeMember) : Sweep :=
  closeEntry { s with overlap := nextOverlap biosmap s p } p.addr

theorem sweep_cons (xMax maxNrMap : ℕ)
    (hroom : ¬ (p.addr = (biosmap p.pbios).addr ∧ s.overlap.length ≥ xMax)) :
    sweep xMax maxNrMap biosmap (p :: rest) s =
      if currentType biosmap (nextOverlap biosmap s p) = s.lastType then
        sweep xMax maxNrMap biosmap rest (advance biosmap s p)
      else if (turnEntry biosmap s p).newEntry ≠ s.newEntry ∧
          (turnEntry biosmap s p).newEntry ≥ maxNrMap then some (turnEntry biosmap s p)
      else if currentType biosmap (nextOverlap biosmap s p) ≠ 0 ∧
          (turnEntry biosmap s p).newEntry ≥ xMax then none
      else sweep xMax maxNrMap biosmap rest (advance biosmap s p) := by
  rw [sweep, if_neg hroom]
  by_cases heq : currentType biosmap (nextOverlap biosmap s p) = s.lastType
  · have hstep : advance biosmap s p = { s with overlap := nextOverlap biosmap s p } := if_pos heq
    rw [hstep, if_pos heq]
    exact if_pos heq
  · have hstep : advance biosmap s p = openEntry (turnEntry biosmap s p) p.addr
        (currentType biosmap (nextOverlap biosmap s p)) := if_neg heq
    rw [hstep, if_neg heq]
    exact if_neg heq

/-- With room for the finished entries the walk with the limits finds the same ones. -/
theorem Inv.sweep_eq {xMax maxNrMap : ℕ} (hn : n ≤ xMax) (hmax : maxNrMap ≤ xMax)
    (h : Inv biosmap n rest k s) (hs : s.newEntry < maxNrMap)
    (hfit : (rest.foldl (E820.advance biosmap) s).newEntry ≤ maxNrMap) :
    ∃ t, sweep xMax maxNrMap biosmap rest s = some t ∧
      t.newEntry = (rest.foldl (E820.advance biosmap) s).newEntry ∧
      Later t (rest.foldl (E820.advance biosmap) s) := by
  induction rest generalizing k s with
  | nil => exact ⟨s, rfl, rfl, .refl s⟩
  | cons p rest ih =>
    have hroom : ¬ (p.addr = (biosmap p.pbios).addr ∧ s.overlap.length ≥ xMax) := by
      rintro ⟨hp, hge⟩
      have := h.overlap_length_lt hp
      omega
    rw [foldl_cons] at hfit ⊢
    rw [sweep_cons xMax maxNrMap hroom]
    split
    · next heq =>
      have hnew : (E820.advance biosmap s p).newEntry = s.newEntry := by
        rw [E820.advance, if_pos heq]
      exact ih h.advance (by omega) hfit
    next hne =>
    have hstep : E820.advance biosmap s p = E820.openEntry (turnEntry biosmap s p) p.addr
      (currentType biosmap (nextOverlap biosmap s p)) := if_neg hne
    have hnew : (E820.advance biosmap s p).newEntry = (turnEntry biosmap s p).newEntry := by
      rw [hstep, openEntry_newEntry]
    split
    · -- the last entry there is room for was also the last one of the map
      next hbreak =>
      have hlater : Later (turnEntry biosmap s p)
          (rest.foldl (E820.advance biosmap) (E820.advance biosmap s p)) := by
        refine Later.trans ?_ (later_foldl biosmap rest _)
        rw [hstep]
        exact later_openEntry _ _ _
      have hle := hlater.newEntry_le
      exact ⟨_, rfl, by omega, hlater⟩
    · rw [if_neg (by omega)]
      exact ih h.advance (by omega) hfit

end Limits

section Unique

variable {r r' : Map} {m m' : ℕ}

/-- The addresses where the highest type becomes another one. -/
def IsBound (biosmap : Map) (n x : ℕ) : Prop :=
  ∃ t, IsGreatest (types biosmap n x) t ∧ (x = 0 ∨ ¬ IsGreatest (types biosmap n (x - 1)) t)

section

variable (h : Sanitized biosmap n r m)
include h

/-- They are where the entries of a sanitized map start. -/
theorem Sanitized.isBound_iff (x : ℕ) : IsBound biosmap n x ↔ ∃ i < m, (r i).addr = x := by
  constructor
  · rintro ⟨t, hmax, hbound⟩
    obtain ⟨i, hi, hc, rfl⟩ := (h.type_iff x t).mpr hmax
    refine ⟨i, hi, le_antisymm hc.1 (Nat.le_of_not_lt fun hlt => ?_)⟩
    rcases hbound with rfl | hnot
    · omega
    · refine hnot ((h.type_iff _ _).mp ⟨i, hi, ?_, rfl⟩)
      unfold E820Entry.Covers at hc ⊢
      omega
  · rintro ⟨i, hi, rfl⟩
    have hsize := h.nonempty i hi
    refine ⟨(r i).type, (h.type_iff _ _).mp ⟨i, hi, ⟨le.refl, by omega⟩, rfl⟩, ?_⟩
    rw [← h.type_iff, or_iff_not_imp_left]
    rintro hpos ⟨j, hj, hc, htype⟩
    unfold E820Entry.Covers at hc
    -- an entry around the address before is the neighbour
    rcases lt_trichotomy j i with hlt | rfl | hgt
    · have hsucc : j + 1 = i := by
        by_contra hne
        have := h.sorted (j + 1) (by omega) j (by omega)
        have := h.nonempty (j + 1) (by omega)
        have := h.sorted i hi (j + 1) (by omega)
        omega
      subst hsucc
      have := h.sorted (j + 1) hi j (by omega)
      exact h.apart j hi (by omega) htype
    · omega
    · have := h.sorted j hj i hgt
      omega

theorem Sanitized.addr_injOn : Set.InjOn (fun i => (r i).addr) (Finset.range m) := by
  have hlt : ∀ j < m, ∀ i < j, (r i).addr < (r j).addr := fun j hj i hij => by
    have := h.nonempty i (by omega)
    have := h.sorted j hj i hij
    omega
  intro i hi j hj heq
  rw [Finset.mem_coe, Finset.mem_range] at hi hj
  dsimp only at heq
  rcases lt_trichotomy i j with hij | hij | hij
  · have := hlt j hj i hij
    omega
  · exact hij
  · have := hlt i hi j hij
    omega

theorem Sanitized.card_unique (h' : Sanitized biosmap n r' m') : m = m' := by
  have himage : (Finset.range m).image (fun i => (r i).addr) =
      (Finset.range m').image fun i => (r' i).addr := by
    ext x
    simp only [Finset.mem_image, Finset.mem_range]
    rw [← h.isBound_iff, h'.isBound_iff]
  rw [← Finset.card_range m, ← Finset.card_image_of_injOn h.addr_injOn, himage,
    Finset.card_image_of_injOn h'.addr_injOn, Finset.card_range]

theorem Sanitized.congr (heq : ∀ i < m, r' i = r i) : Sanitized biosmap n r' m where
  nonempty i hi := by
    rw [heq i hi]
    exact h.nonempty i hi
  sorted j hj i hi := by
    rw [heq i (by omega), heq j hj]
    exact h.sorted j hj i hi
  apart i hi := by
    rw [heq i (by omega), heq (i + 1) hi]
    exact h.apart i hi
  type_iff x t := by
    rw [types_congr heq]
    exact h.type_iff x t

end

end Unique

/-- With at most as many entries as the map and the arrays of the function have room for, it leaves
a sanitized map if there is one that fits. -/
theorem sanitize_e820_map_sanitizes {xMax maxNrMap : ℕ} (newBios : Map) (h2 : 2 ≤ n)
    (hold : n ≤ maxNrMap) (hmax : maxNrMap ≤ xMax)
    (hwrap : ∀ i < n, (biosmap i).addr + (biosmap i).size < 2 ^ 64)
    (htype : ∀ i < n, (biosmap i).type ≠ 0)
    (hfit : ∃ r m, Sanitized biosmap n r m ∧ m ≤ maxNrMap) :
    ∃ newmap newNr, sanitizeE820Map xMax newBios biosmap maxNrMap n = some (0, newmap, newNr) ∧
      Sanitized biosmap n newmap newNr := by
  have hinit := Inv.initial hwrap newBios
  obtain ⟨k, hend⟩ := hinit.foldl
  have hsan := hend.sanitized htype
  obtain ⟨r, m, hr, hm⟩ := hfit
  have hcard := hsan.card_unique hr
  obtain ⟨t, ht, hnew, hlater⟩ := hinit.sweep_eq (le_trans hold hmax) hmax
    (show 0 < maxNrMap by omega) (by omega)
  refine ⟨fun i => if i < t.newEntry then t.newBios i else biosmap i, t.newEntry, ?_, ?_⟩
  · have hnowrap : ¬ ∃ i < n, ((biosmap i).addr + (biosmap i).size) % 2 ^ 64 <
      (biosmap i).addr := by
      rintro ⟨i, hi, hlt⟩
      rw [mod_eq_of_lt (hwrap i hi)] at hlt
      omega
    rw [sanitizeE820Map, if_neg (by omega), if_neg (by omega), if_neg hnowrap, if_neg (by omega),
      ht]
    rfl
  · rw [hnew]
    refine hsan.congr fun i hi => ?_
    rw [if_pos hi]
    exact (hlater.newBios_eq i (hnew ▸ hi)).symm

section Instances

def reservedEnd : Map := fun i => if i = 0 then ⟨0, 10, 1⟩ else ⟨5, 10, 2⟩

theorem reservedEnd_sanitized :
    Sanitized reservedEnd 2 (fun i => if i = 0 then ⟨0, 5, 1⟩ else ⟨5, 10, 2⟩) 2 where
  nonempty := by decide
  sorted := by decide
  apart i hi := by
    obtain rfl : i = 0 := by omega
    decide
  type_iff x t := by
    have hold u : u ∈ types reservedEnd 2 x ↔ x < 10 ∧ 1 = u ∨ 5 ≤ x ∧ x < 15 ∧ 2 = u := by
      rw [mem_types_push rfl]
      simp [types, E820Entry.Covers, reservedEnd, and_assoc]
    rw [mem_types_push rfl, mem_types_push rfl]
    constructor
    · intro hnew
      simp [types, E820Entry.Covers] at hnew
      refine ⟨(hold t).mpr (by omega), fun u hu => ?_⟩
      have := (hold u).mp hu
      omega
    · rintro ⟨ht, hmax⟩
      have := (hold t).mp ht
      have hreserved : 5 ≤ x → x < 15 → 2 ≤ t := fun h5 h15 =>
        hmax ((hold 2).mpr (.inr ⟨h5, h15, rfl⟩))
      simp [types, E820Entry.Covers]
      omega

theorem sanitize_e820_map_sanitizes_reservedEnd :
    ∃ newmap newNr, sanitizeE820Map 128 (fun _ => ⟨0, 0, 0⟩) reservedEnd 128 2 =
      some (0, newmap, newNr) ∧ Sanitized reservedEnd 2 newmap newNr :=
  sanitize_e820_map_sanitizes _ (by decide) (by decide) (by decide) (by decide) (by decide)
    ⟨_, 2, reservedEnd_sanitized, by decide⟩

def repeated : Map := fun _ => ⟨0, 16, 1⟩

theorem repeated_sanitized : Sanitized repeated 3 repeated 1 where
  nonempty := by decide
  sorted := by decide
  apart := nofun
  type_iff x t := by
    have hold (m u : ℕ) (hm : 0 < m) : u ∈ types repeated m x ↔ x < 16 ∧ 1 = u :=
      ⟨fun ⟨_, _, hc, hu⟩ => ⟨hc.2, hu⟩, fun ⟨hx, hu⟩ => ⟨0, hm, ⟨zero_le x, hx⟩, hu⟩⟩
    rw [IsGreatest, hold 1 t (by decide), hold 3 t (by decide)]
    refine (and_iff_left_of_imp fun ht u hu => ?_).symm
    rw [hold 3 u (by decide)] at hu
    omega

/-- The result would fit, but `BUG_ON` stops the call. -/
theorem repeated_not_sanitized :
    (∀ i < 3, (repeated i).addr + (repeated i).size < 2 ^ 64 ∧ (repeated i).type ≠ 0) ∧
      Sanitized repeated 3 repeated 1 ∧
      sanitizeE820Map 128 (fun _ => ⟨0, 0, 0⟩) repeated 2 3 = none :=
  ⟨by decide, repeated_sanitized, rfl⟩

end Instances

end LinuxKernel.E820
