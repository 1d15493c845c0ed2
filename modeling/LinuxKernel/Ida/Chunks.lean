import Mathlib.Data.Finset.Erase
import Mathlib.Data.Finset.Insert
import LinuxKernel.Ida.Model
import LinuxKernel.Idr.Remove

/-! # Chunks of ids

The ids that are taken are those of the bits in the bitmaps of the chunks. A chunk counts as full in
the idr when all of its bits are set, and its slot is in use as long as it has a bitmap.
-/

namespace LinuxKernel.Ida

open Function Idr Option Bool Finset

variable {s s' : Ida} {node node' : ℕ × ℕ → Option ℕ} {C : ℕ → Option ℕ} {bm : ℕ → Bitmap}
  {B B' : Finset ℕ} {b c t k m n p id start idrId offset fuel : ℕ} {y : Bitmap} {pa : Path}

section Invariant

/-- The slots of an idr whose chunks have the bitmaps `C`. -/
def slots (C : ℕ → Option ℕ) (bm : ℕ → Bitmap) (c : ℕ) : Slot :=
  match C c with
  | none => .empty
  | some b => ⟨(bm b).bitmap == .allOnes 960, true, some b⟩

theorem slots_of_none (h : C c = none) : slots C bm c = .empty := by rw [slots, h]

theorem slots_of_some (h : C c = some b) :
    slots C bm c = ⟨(bm b).bitmap == .allOnes 960, true, some b⟩ := by rw [slots, h]

/-- The bitmaps `C` of the chunks have the ids `B`. -/
structure Chunks (s : Ida) (node : ℕ × ℕ → Option ℕ) (C : ℕ → Option ℕ) (B : Finset ℕ) : Prop where
  tree : Tree s.idr node (slots C s.bmem)
  absent {c k : ℕ} : C c = none → k < 960 → c * 960 + k ∉ B
  bit {c b k : ℕ} : C c = some b → k < 960 → ((s.bmem b).bitmap.getLsbD k = true ↔ c * 960 + k ∈ B)
  busy {c b : ℕ} : C c = some b → (s.bmem b).nrBusy = Word.ones (s.bmem b).bitmap
  inj {c c' b : ℕ} : C c = some b → C c' = some b → c = c'
  free {c b : ℕ} : s.freeBitmap = some b → C c ≠ some b
  bound {id : ℕ} : id ∈ B → id < 2 ^ 31

namespace Chunks

section

variable (h : Chunks s node C B)
include h

theorem full_iff : (slots C s.bmem c).full = true ↔ ∀ k < 960, c * 960 + k ∈ B := by
  rcases hC : C c with _ | b
  · rw [slots_of_none hC]
    exact iff_of_false nofun fun hall => h.absent hC (by omega) (hall 0 (by omega))
  · rw [slots_of_some hC, beq_iff_eq, Word.eq_allOnes_iff]
    exact forall₂_congr fun k hk => h.bit hC hk

theorem mem_of_full {x : ℕ} (hfull : (slots C s.bmem (x / 960)).full = true) : x ∈ B := by
  have := h.full_iff.mp hfull (x % 960) (Nat.mod_lt _ (by omega))
  rwa [Nat.div_add_mod'] at this

theorem slots_update (hC : C t = some b) :
    slots C (update s.bmem b y) =
      update (slots C s.bmem) t ⟨y.bitmap == .allOnes 960, true, some b⟩ := by
  funext c
  rcases eq_or_ne c t with rfl | hc
  · rw [update_self, slots_of_some hC, update_self]
  · rw [update_of_ne hc]
    rcases hC' : C c with _ | b'
    · rw [slots_of_none hC', slots_of_none hC']
    · rw [slots_of_some hC', slots_of_some hC', update_of_ne]
      rintro rfl
      exact hc (h.inj hC' hC)

end

theorem write {idr : Idr.Idr} (B' : Finset ℕ) (h : Chunks s node C B) (hC : C t = some b)
    (htree : Tree idr node' (slots C (update s.bmem b y))) (hbusy : y.nrBusy = Word.ones y.bitmap)
    (hbit : ∀ k < 960, y.bitmap.getLsbD k = true ↔ t * 960 + k ∈ B')
    (hother : ∀ c, c ≠ t → ∀ k < 960, (c * 960 + k ∈ B' ↔ c * 960 + k ∈ B))
    (hbound : ∀ id ∈ B', id < 2 ^ 31) :
    Chunks { s with idr := idr, bmem := update s.bmem b y } node' C B' := by
  have hne {c b'} (hc : c ≠ t) (hC' : C c = some b') : b' ≠ b := by
    rintro rfl
    exact hc (h.inj hC' hC)
  refine ⟨htree, fun {c k} hC' hk => ?_, fun {c b' k} hC' hk => ?_, fun {c b'} hC' => ?_, h.inj,
    h.free, hbound _⟩
  · rw [hother c (by rintro rfl; rw [hC] at hC'; cases hC') k hk]
    exact h.absent hC' hk
  · dsimp only
    rcases eq_or_ne c t with rfl | hc
    · obtain rfl := some.inj (hC.symm.trans hC')
      rw [update_self]
      exact hbit k hk
    · rw [update_of_ne (hne hc hC'), hother c hc k hk]
      exact h.bit hC' hk
  · dsimp only
    rcases eq_or_ne c t with rfl | hc
    · obtain rfl := some.inj (hC.symm.trans hC')
      rw [update_self]
      exact hbusy
    · rw [update_of_ne (hne hc hC')]
      exact h.busy hC'

theorem dropLayer (h : Chunks s node C B) : Chunks (dropLayer s) node C B := by
  rw [Ida.dropLayer]
  split_ifs
  · rw [getFromFreeList]
    rcases hfree : s.idr.idFree with _ | ⟨p, rest⟩
    · exact h
    · exact { h with tree := h.tree.sublist (hfree ▸ List.sublist_cons_self p rest) }
  · exact h

end Chunks

end Invariant

section Take

theorem mem_insert_chunk {c t k m : ℕ} (hk : k < 960) (hm : m < 960) :
    c * 960 + k ∈ insert (t * 960 + m) B ↔ (c = t ∧ k = m) ∨ c * 960 + k ∈ B := by
  rw [mem_insert]
  have : c * 960 + k = t * 960 + m ↔ c = t ∧ k = m := by omega
  rw [this]

section

variable (h : Chunks s node C B)
include h

theorem takeBit_spec (hC : C t = some b) (hm : m < 960) (hfree : t * 960 + m ∉ B)
    (hlt : t * 960 + m < 2 ^ 31) (hp : node (0, t / 64) = some p)
    (hpath : ∀ i, i < s.idr.layers → pa i = node (i, t / 64 ^ (i + 1)))
    (hstop : pa s.idr.layers = none) (hfuel : 5 < fuel) :
    ∃ s', takeBit fuel s pa p t b m = some s' ∧ Chunks s' node C (insert (t * 960 + m) B) := by
  have hclear : (s.bmem b).bitmap.getLsbD m = false := by
    rw [eq_false_iff, Ne, h.bit hC hm]
    exact hfree
  have hones := Word.ones_set hm hclear
  have hbusy : (s.bmem b).nrBusy + 1 = Word.ones (Word.set (s.bmem b).bitmap m) := by
    rw [hones, h.busy hC]
    rfl
  have hfull : (s.bmem b).nrBusy + 1 = 960 ↔ Word.set (s.bmem b).bitmap m = .allOnes 960 := by
    rw [hbusy, Word.eq_allOnes_iff, ← Word.tally_eq_all]
    exact Int.natCast_inj
  have hslots := h.slots_update (y := ⟨(s.bmem b).nrBusy + 1, Word.set (s.bmem b).bitmap m⟩) hC
  have hchunks {idr} (htree : Tree idr node (slots C (update s.bmem b
      ⟨(s.bmem b).nrBusy + 1, Word.set (s.bmem b).bitmap m⟩))) :=
    h.write (insert (t * 960 + m) B) hC htree hbusy
      (fun k hk => by
        rw [Word.getLsbD_set _ hk, or_eq_true, h.bit hC hk]
        simp)
      (fun c hc k hk => by rw [mem_insert_chunk hk hm]; simp [hc])
      (fun id hid => (mem_insert.mp hid).elim (fun hid => hid ▸ hlt) h.bound)
  have hused : (slots C s.bmem t).used = true := by rw [slots_of_some hC]
  have hempty : (slots C s.bmem t).full = false := by
    rw [eq_false_iff, Ne, h.full_iff]
    exact fun hall => hfree (hall m hm)
  simp only [takeBit, update_self]
  split_ifs with h960
  · obtain ⟨idr, heq, ht⟩ := h.tree.markFull hused hp hpath hstop hfuel
    rw [heq]
    refine ⟨_, rfl, (hchunks ?_).dropLayer⟩
    rw [hslots, hfull.mp h960, beq_self_eq_true]
    rw [slots_of_some hC] at ht
    exact ht
  · refine ⟨_, rfl, (hchunks ?_).dropLayer⟩
    have hnot : (Word.set (s.bmem b).bitmap m == BitVec.allOnes 960) = false := by
      rw [beq_eq_false_iff_ne]
      exact mt hfull.mpr h960
    have hsame : slots C s.bmem t = ⟨false, true, some b⟩ := by
      rw [slots_of_some hC] at hempty ⊢
      exact congrArg (Slot.mk · true (some b)) hempty
    rw [hslots, hnot, ← hsame, update_eq_self]
    exact h.tree

theorem Chunks.install (hC : C t = none) (hfree : s.freeBitmap = some b)
    (hp : node (0, t / 64) = some p) :
    Chunks ⟨(s.idr.setAry p (t % 64) (some b)).addCount p 1, none, update s.bmem b ⟨0, 0⟩⟩ node
      (update C t (some b)) B := by
  have hold {c b'} (hc : c ≠ t) (hC' : update C t (some b) c = some b') : C c = some b' ∧
    b' ≠ b := by
    rw [update_of_ne hc] at hC'
    refine ⟨hC', ?_⟩
    rintro rfl
    exact h.free hfree hC'
  have hnew {b'} (hC' : update C t (some b) t = some b') : b' = b := by
    rw [update_self] at hC'
    exact (some.inj hC').symm
  have hslots : slots (update C t (some b)) (update s.bmem b ⟨0, 0⟩) =
      update (slots C s.bmem) t ⟨false, true, some b⟩ := by
    funext c
    rcases eq_or_ne c t with rfl | hc
    · rw [update_self, slots_of_some (update_self ..), update_self]
      exact congrArg (Slot.mk · true (some b)) (by decide +kernel)
    · rw [update_of_ne hc]
      rcases hC' : C c with _ | b'
      · rw [slots_of_none hC', slots_of_none (by rwa [update_of_ne hc])]
      · have hC'' : update C t (some b) c = some b' := by rwa [update_of_ne hc]
        rw [slots_of_some hC', slots_of_some hC'', update_of_ne (hold hc hC'').2]
  refine ⟨?_, fun {c k} hC' hk => ?_, fun {c b' k} hC' hk => ?_, fun {c b'} hC' => ?_,
    fun {c c' b'} hC₁ hC₂ => ?_, nofun, h.bound⟩
  · rw [hslots]
    exact h.tree.install (some b) hp (by rw [slots_of_none hC]; rfl)
  · refine h.absent ?_ hk
    rw [update_apply] at hC'
    split at hC'
    · cases hC'
    · exact hC'
  · dsimp only
    rcases eq_or_ne c t with rfl | hc
    · rw [hnew hC']
      exact iff_of_false (by simp) (h.absent hC hk)
    · rw [update_of_ne (hold hc hC').2]
      exact h.bit (hold hc hC').1 hk
  · dsimp only
    rcases eq_or_ne c t with rfl | hc
    · rw [hnew hC', update_self]
      have : Word.ones (0 : BitVec 960) = 0 := Word.tally_eq_zero.mpr fun k _ => by simp
      rw [this]
      rfl
    · rw [update_of_ne (hold hc hC').2]
      exact h.busy (hold hc hC').1
  · rcases eq_or_ne c t with rfl | hc
    · rcases eq_or_ne c' c with rfl | hc'
      · rfl
      · exact absurd (hnew hC₁) (hold hc' hC₂).2
    · rcases eq_or_ne c' t with rfl | hc'
      · exact absurd (hnew hC₂) (hold hc hC₁).2
      · exact h.inj (hold hc hC₁).1 (hold hc' hC₂).1

theorem Chunks.ary_eq (hp : node (0, t / 64) = some p) : (s.idr.mem p).ary (t % 64) = C t := by
  rw [h.tree.shape.leaf hp]
  rcases hC : C t with _ | b
  · rw [slots_of_none hC]
    rfl
  · rw [slots_of_some hC]

theorem chunkBitmap_spec (hfree : s.freeBitmap.isSome) (hp : node (0, t / 64) = some p) :
    ∃ b s' C', chunkBitmap s p (t % 64) = some (b, s') ∧ C' t = some b ∧ Chunks s' node C' B ∧
      s'.idr.layers = s.idr.layers ∧ ((C t).isSome → s' = s) := by
  rw [chunkBitmap, h.ary_eq hp]
  rcases hC : C t with _ | b
  · obtain ⟨b, hb⟩ := isSome_iff_exists.mp hfree
    rw [hb]
    exact ⟨b, _, _, rfl, update_self .., h.install hC hb hp, rfl, nofun⟩
  · exact ⟨b, s, C, rfl, hC, h, rfl, fun _ => rfl⟩

end

end Take

section GetNew

/-- What an allocation from `start` on returns: the first id that is not taken, if there is one. -/
inductive Got (B : Finset ℕ) (start : ℕ) : Except Errno ℕ × Ida → Prop
  | ok {id : ℕ} {s' : Ida} {node' : ℕ × ℕ → Option ℕ} {C' : ℕ → Option ℕ} : start ≤ id → id ∉ B →
      (∀ x, start ≤ x → x < id → x ∈ B) → id < 2 ^ 31 → Chunks s' node' C' (insert id B) →
      Got B start (.ok id, s')
  | enospc {s' : Ida} {node' : ℕ × ℕ → Option ℕ} {C' : ℕ → Option ℕ} :
      (∀ x, start ≤ x → x < 2 ^ 31 → x ∈ B) → Chunks s' node' C' B →
      Got B start (.error .enospc, s')

theorem Got.mono {start' : ℕ} {res : Except Errno ℕ × Ida} (h : Got B start' res)
    (hle : start ≤ start') (hB : ∀ x, start ≤ x → x < start' → x ∈ B) : Got B start res := by
  have hsplit {stop} (hall : ∀ x, start' ≤ x → x < stop → x ∈ B) {x} (hx : start ≤ x)
      (hlt : x < stop) : x ∈ B := by
    rcases lt_or_ge x start' with hx' | hx'
    · exact hB x hx hx'
    · exact hall x hx' hlt
  cases h with
  | ok hid hfree hall hlt hc => exact .ok (hle.trans hid) hfree (fun _ => hsplit hall) hlt hc
  | enospc hall hc => exact .enospc (fun _ => hsplit hall) hc

variable (h : Chunks s node C B)
include h

/-- The search for a free id of a chunk, when none is free from `start` to its offset. -/
theorem Chunks.search (hC : C t = some b) (ho : offset < 960)
    (hB : ∀ x, start ≤ x → x < t * 960 + offset → x ∈ B) :
    (Word.findNextBit (~~~(s.bmem b).bitmap) offset = 960 ∧
        (∀ k, offset ≤ k → k < 960 → t * 960 + k ∈ B) ∧
        ∀ x, start ≤ x → x < (t + 1) * 960 → x ∈ B) ∨
      ∃ m, Word.findNextBit (~~~(s.bmem b).bitmap) offset = m ∧ offset ≤ m ∧ m < 960 ∧
        t * 960 + m ∉ B ∧ ∀ x, start ≤ x → x < t * 960 + m → x ∈ B := by
  have hbit {k} (hk : k < 960) : (~~~(s.bmem b).bitmap).getLsbD k = false ↔ t * 960 + k ∈ B := by
    rw [← h.bit hC hk]
    simp [hk]
  have hchunk {stop} (hset : ∀ k, offset ≤ k → k < stop → t * 960 + k ∈ B) {x} (hx : start ≤ x)
      (hlt : x < t * 960 + stop) : x ∈ B := by
    rcases lt_or_ge x (t * 960 + offset) with hxo | hxo
    · exact hB x hx hxo
    · obtain ⟨k, rfl⟩ : ∃ k, x = t * 960 + k := ⟨x - t * 960, by omega⟩
      exact hset k (by omega) (by omega)
  rcases Word.findNextBit_cases with
    ⟨hm, hset⟩ | ⟨m, hm, hom, hm960, hfree, hset⟩
  · have hset' : ∀ k, offset ≤ k → k < 960 → t * 960 + k ∈ B :=
      fun k hok hk => (hbit hk).mp (hset k hok hk)
    exact .inl ⟨hm, hset', fun x hx hlt => hchunk hset' hx (by omega)⟩
  · refine .inr ⟨m, hm, hom, hm960, ?_, fun x hx hlt => hchunk (fun k hok hk => ?_) hx hlt⟩
    · rw [← hbit hm960, hfree]
      exact nofun
    · exact (hbit (hk.trans hm960)).mp (hset k hok hk)

theorem Chunks.start_in_chunk (ho : offset < 960) (hle : idrId ≤ t)
    (hall : ∀ c, idrId ≤ c → c < t → (slots C s.bmem c).full = true) :
    ∃ o, (if t ≠ idrId then 0 else offset) = o ∧ o < 960 ∧ (o ≠ 0 → offset ≠ 0) ∧
      idrId * 960 + offset ≤ t * 960 + o ∧
      ∀ x, idrId * 960 + offset ≤ x → x < t * 960 + o → x ∈ B := by
  refine ⟨_, rfl, ?_⟩
  split_ifs with hne
  · exact ⟨by omega, by omega, by omega, fun x hx hlt =>
      h.mem_of_full (hall (x / 960) (by omega) (by omega))⟩
  · exact ⟨ho, id, by omega, fun x hx hlt => by omega⟩

theorem getLoop_spec (hlayers : 9 ≤ s.idr.idFree.length) (hfree : s.freeBitmap.isSome)
    (hoffset : offset < 960) (hid : idrId < 2236964) (hn : 0 < n) (hn' : offset ≠ 0 → 1 < n)
    (hfuel : 2 ^ 33 ≤ fuel) :
    ∃ res, getLoop fuel n idrId offset s = some res ∧ Got B (idrId * 960 + offset) res := by
  induction n generalizing s node C idrId offset with
  | zero => omega
  | succ n ih =>
    -- no chunk is full from the end of the ids on
    have hex : ∃ x, idrId ≤ x ∧ x < 64 ^ 5 ∧ (slots C s.bmem x).full = false := by
      refine ⟨2236963, by omega, by omega, ?_⟩
      rw [eq_false_iff, Ne, h.full_iff]
      intro hall
      have := h.bound (hall 0 (by omega))
      omega
    obtain ⟨res, heq, hres⟩ := idrGetEmptySlot_spec h.tree hex hfuel
    rw [getLoop, heq, bind_some]
    cases hres with
    | noMemory _ hlen => omega
    | @found t p pa idr node₁ ht hp hpath hstop hstart hfull hall hsame =>
      have h₁ : Chunks { s with idr := idr } node₁ C B := { h with tree := ht }
      obtain ⟨o, ho, ho960, ho0, hle, hB⟩ := h.start_in_chunk hoffset hstart hall
      dsimp only
      by_cases hend : 2 ^ 31 ≤ t * 960
      · rw [if_pos hend]
        exact ⟨_, rfl, .enospc (fun x hx hlt => hB x hx (by omega)) h₁⟩
      have hpa : pa 0 = some p := by
        rw [hpath 0 (ht.shape.lt_layers hp)]
        exact hp
      obtain ⟨b, s₂, C', hchunk, hC', h₂, hl₂, hold⟩ := chunkBitmap_spec h₁ hfree hp
      rw [if_neg hend, hpa, bind_some, and_mask, hchunk, ho]
      dsimp only
      rcases h₂.search hC' ho960 hB with ⟨hm, hset, hnone⟩ | ⟨m, hm, hom, hm960, hnot, hbelow⟩
      · -- no id of the chunk is free from the offset on, so the next chunk is tried
        rw [hm]
        have hpos : o ≠ 0 := by
          rintro rfl
          rw [h.full_iff.mpr fun k hk => hset k (Nat.zero_le k) hk] at hfull
          cases hfull
        have hsome : (C t).isSome := by
          by_contra hnone
          rw [not_isSome_iff_eq_none] at hnone
          exact h.absent hnone ho960 (hset o (le_refl o) ho960)
        obtain ⟨b', hb'⟩ := isSome_iff_exists.mp hsome
        obtain rfl := hsame (by rw [slots_of_some hb'])
        obtain rfl := hold hsome
        have hrestart : ∃ res, getLoop fuel n (t + 1) 0 { s with idr := s.idr } = some res ∧
            Got B ((t + 1) * 960 + 0) res :=
          ih h₂ hlayers hfree (by omega) (by omega) (by omega) (by omega)
        obtain ⟨res, heq, hgot⟩ := hrestart
        rw [add_zero] at hgot
        exact ⟨res, heq, hgot.mono (by omega) hnone⟩
      · rw [hm, if_neg hm960.ne]
        by_cases hbig : 2 ^ 31 ≤ t * 960 + m
        · rw [if_pos hbig]
          exact ⟨_, rfl, .enospc (fun x hx hlt => hbelow x hx (hlt.trans_le hbig)) h₂⟩
        · rw [if_neg hbig]
          obtain ⟨s₃, heq, h₃⟩ := takeBit_spec h₂ hC' hm960 hnot (not_le.mp hbig) hp
            (hl₂ ▸ hpath) (hl₂ ▸ hstop) (show 5 < fuel by omega)
          rw [heq]
          exact ⟨_, rfl, .ok (by omega) hnot hbelow (not_le.mp hbig) h₃⟩

end GetNew

section Remove

theorem mem_erase_chunk {c t k m : ℕ} (hk : k < 960) (hm : m < 960) :
    c * 960 + k ∈ B.erase (t * 960 + m) ↔ ¬ (c = t ∧ k = m) ∧ c * 960 + k ∈ B := by
  rw [mem_erase]
  have : c * 960 + k ≠ t * 960 + m ↔ ¬ (c = t ∧ k = m) := by omega
  rw [this]

theorem Chunks.uninstall {idr : Idr.Idr} (h : Chunks s node C B) (hC : C t = some b)
    (hempty : ∀ k < 960, t * 960 + k ∉ B)
    (htree : Tree idr node' (update (slots C s.bmem) t .empty)) :
    Chunks (freeBitmap { s with idr := idr } b) node' (update C t none) B := by
  have hold {c b'} (hC' : update C t none c = some b') : C c = some b' ∧ b' ≠ b := by
    rcases eq_or_ne c t with rfl | hc
    · rw [update_self] at hC'
      cases hC'
    · rw [update_of_ne hc] at hC'
      refine ⟨hC', ?_⟩
      rintro rfl
      exact hc (h.inj hC' hC)
  have hslots : slots (update C t none) s.bmem = update (slots C s.bmem) t .empty := by
    funext c
    rcases eq_or_ne c t with rfl | hc
    · rw [update_self, slots_of_none (update_self ..)]
    · rw [update_of_ne hc, slots, slots, update_of_ne hc]
  have h₁ : Chunks { s with idr := idr } node' (update C t none) B := by
    refine ⟨hslots ▸ htree, fun {c k} hC' hk => ?_, fun hC' => h.bit (hold hC').1,
      fun hC' => h.busy (hold hC').1, fun hC₁ hC₂ => h.inj (hold hC₁).1 (hold hC₂).1,
      fun hb hC' => h.free hb (hold hC').1, h.bound⟩
    rcases eq_or_ne c t with rfl | hc
    · exact hempty k hk
    · exact h.absent (by rwa [update_of_ne hc] at hC') hk
  rw [freeBitmap]
  split_ifs
  · refine { h₁ with free := fun hb hC' => ?_ }
    exact (hold hC').2 (some.inj hb).symm
  · exact h₁

theorem idaRemove_spec (h : Chunks s node C B) (hid : id ∈ B) :
    ∃ s' node' C', idaRemove s id = some s' ∧ Chunks s' node' C' (B.erase id) := by
  obtain ⟨t, m, rfl, hm, ht, hmod⟩ : ∃ t m, id = t * 960 + m ∧ m < 960 ∧ id / 960 = t ∧
    id % 960 = m :=
    ⟨id / 960, id % 960, by omega, by omega, rfl, rfl⟩
  obtain ⟨b, hC⟩ : ∃ b, C t = some b := by
    rw [← ne_none_iff_exists']
    exact fun hnone => h.absent hnone hm hid
  have hbit : (s.bmem b).bitmap.getLsbD m = true := (h.bit hC hm).mpr hid
  have hones := Word.ones_clear hm hbit
  have hbusy : (s.bmem b).nrBusy - 1 = Word.ones (Word.clear (s.bmem b).bitmap m) := by
    rw [h.busy hC]
    omega
  have hused : (slots C s.bmem t).used = true := by rw [slots_of_some hC]
  have hlt := h.bound hid
  obtain ⟨p, paa, idr, heq, hp, -, -, hs, hc, hf, hb⟩ := clearPath_leaf h.tree.shape h.tree.counts
    h.tree.free h.tree.bits hused
  -- the tree without the full bits of the id
  let v : Slot := ⟨false, true, some b⟩
  have hnotfull : (Word.clear (s.bmem b).bitmap m == BitVec.allOnes 960) = false := by
    rw [beq_eq_false_iff_ne, Ne, Word.eq_allOnes_iff]
    intro hall
    have := hall m hm
    rw [Word.getLsbD_clear _ hm] at this
    simp at this
  have hslots : slots C (update s.bmem b ⟨(s.bmem b).nrBusy - 1, Word.clear (s.bmem b).bitmap m⟩) =
      update (slots C s.bmem) t v := by
    rw [h.slots_update hC, hnotfull]
  have htree : Tree (idr.clearBit p (t % 64)) node (update (slots C s.bmem) t v) := by
    refine ⟨?_, hb.congr (fun x p hp => ⟨hp, rfl⟩) fun k r _ => fullBlock_erase rfl,
      hc.congr (fun x p hp => ⟨hp, rfl⟩) fun x _ => ?_, hf⟩
    · have := hs.setFull (b := false) hused
      rw [slots_of_some hC] at this
      exact this
    · rw [occ_update]
      rw [slots_of_some hC]
  have h₁ := h.write (B.erase (t * 960 + m)) hC (hslots ▸ htree) hbusy
    (fun k hk => by
      rw [Word.getLsbD_clear _ hk, and_eq_true, h.bit hC hk]
      simp)
    (fun c hc k hk => by rw [mem_erase_chunk hk hm]; simp [hc])
    (fun id hid => h.bound (mem_of_mem_erase hid))
  have hary : ((idr.clearBit p (t % 64)).mem p).ary (t % 64) = some b := h₁.ary_eq hp ▸ hC
  simp only [idaRemove, ht, hmod, heq, and_mask, hary, bind_some, update_self]
  split_ifs with hzero
  · -- the own bit of the chunk is set once more, and the blocks above it stay clear
    have hfull {k r} : (r ≠ t / 64 ^ k ∧
        if k = 0 ∧ r = t then True else FullBlock (update (slots C s.bmem) t v) k r) ↔
        FullBlock (update (update (slots C s.bmem) t v) t .empty) k r := by
      rw [fullBlock_erase (v := .empty) rfl]
      refine and_congr_right fun hr => ?_
      rw [if_neg]
      rintro ⟨rfl, rfl⟩
      simp at hr
    obtain ⟨idr', node', heq', ht'⟩ := idrRemove_spec (htree.shape.modify ⟨rfl, rfl⟩)
      (htree.counts.modify rfl) (htree.free.modify hp) (htree.bits.setBit htree.shape hp)
      (by rw [update_self]) (by simp) (fun _ _ => hfull) (by omega)
    have hclear : ∀ k < 960, t * 960 + k ∉ B.erase (t * 960 + m) := by
      intro k hk
      rw [hbusy, Int.natCast_eq_zero] at hzero
      rw [← h₁.bit hC hk]
      dsimp only
      rw [update_self, Word.tally_eq_zero.mp hzero k hk]
      exact nofun
    rw [Idr.setBit, heq']
    exact ⟨_, _, _, rfl, h₁.uninstall hC hclear (hslots ▸ ht')⟩
  · exact ⟨_, node, C, rfl, h₁⟩

end Remove

end LinuxKernel.Ida
