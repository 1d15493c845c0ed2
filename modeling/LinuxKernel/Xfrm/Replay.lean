import LinuxKernel.Xfrm.Ring

/-! # No packet is received twice

Every sequence of packets is considered. With the bitmap of one word no number is ever accepted
twice, but a window of more than 32 packets lets the source shift by too much, and packets that
were never received are refused. With a bitmap of any size, replay detection works if and only if
the window divides 2^32.
-/

namespace LinuxKernel.Xfrm

open Bitmap List BitVec Nat

/-- What replay detection is for: nothing is accepted twice, and what is new and not below the
window is accepted. -/
structure Detects (check : BitVec 32 → Option Errno) (window : ℕ) (accepted : List (BitVec 32)) :
    Prop where
  once : accepted.Nodup
  above : ∀ n ≠ 0, (∀ m ∈ accepted, m < n) → check n = none
  within : ∀ n ≠ 0, n ∉ accepted → ∀ t ∈ accepted, (∀ m ∈ accepted, m ≤ t) → n ≤ t →
    t.toNat - n.toNat < window → check n = none

section Runs

variable {σ ν : Type*} {check : σ → ν → Option Errno} {advance : σ → ν → σ}
  {I : σ → List ν → Prop} {s : σ} {seqs : List ν}

theorem receiveAll_invariant (h₀ : I s [])
    (hstep : ∀ {s acc seq}, I s acc → check s seq = none → I (advance s seq) (seq :: acc)) :
    I (receiveAll check advance s seqs).1 (receiveAll check advance s seqs).2 := by
  rw [receiveAll]
  generalize ([] : List ν) = acc at h₀
  induction seqs generalizing s acc with
  | nil => exact h₀
  | cons seq seqs ih =>
    rw [foldl_cons, receive]
    split_ifs with hc
    · exact ih _ (hstep h₀ hc)
    · exact ih _ h₀

end Runs

section Highest

variable {acc : List (BitVec 32)} {top n t : BitVec 32} (htop : top ≠ 0 → top ∈ acc)
include htop

theorem highest_lt (hn : n ≠ 0) (hgt : ∀ m ∈ acc, m < n) : top < n := by
  by_cases hzero : top = 0
  · rw [hzero]
    exact BitVec.lt_of_le_ne (le_def.mpr (zero_le _)) hn.symm
  · exact hgt _ (htop hzero)

theorem eq_highest (hle : ∀ m ∈ acc, m ≤ top) (ht : t ∈ acc) (hmax : ∀ m ∈ acc, m ≤ t) :
    t = top := by
  by_cases hzero : top = 0
  · have := hle t ht
    rw [hzero] at this ⊢
    exact BitVec.le_antisymm this (le_def.mpr (zero_le _))
  · exact BitVec.le_antisymm (hle t ht) (hmax _ (htop hzero))

end Highest

section Legacy

variable {window : BitVec 8} {replay : ReplayState} {acc : List (BitVec 32)} {seq : BitVec 32}

theorem getLsbD_shl_one {d : BitVec 32} (hd : d.toNat < 32) {i : ℕ} (hi : i < 32) :
    (shl 1 d).getLsbD i = decide (i = d.toNat) := by
  rw [shl, mod_eq_of_lt hd]
  exact getLsbD_one_shiftLeft i d.toNat hi

theorem and_shl_one_eq_zero (x : BitVec 32) {d : BitVec 32} (hd : d.toNat < 32) :
    x &&& shl 1 d = 0 ↔ x.getLsbD d.toNat = false := by
  constructor
  · intro h
    have hbit : (x &&& shl 1 d).getLsbD d.toNat = (0 : BitVec 32).getLsbD d.toNat := by rw [h]
    rw [getLsbD_and, getLsbD_shl_one hd hd, decide_eq_true rfl, Bool.and_true] at hbit
    rw [hbit]
    exact getLsbD_zero
  · intro h
    apply eq_of_getLsbD_eq
    intro i hi
    rw [getLsbD_and, getLsbD_shl_one hd hi]
    by_cases hid : i = d.toNat
    · simp [hid, h]
    · simp [hid]

theorem xfrmReplayCheck_eq_none (hw : window ≠ 0) :
    xfrmReplayCheck window replay seq = none ↔ seq ≠ 0 ∧ (replay.seq < seq ∨
      seq ≤ replay.seq ∧ replay.seq.toNat - seq.toNat < min window.toNat 32 ∧
        replay.bitmap.getLsbD (replay.seq.toNat - seq.toNat) = false) := by
  rw [xfrmReplayCheck, if_neg hw]
  by_cases hzero : seq = 0
  · simp [hzero]
  rw [if_neg hzero]
  by_cases hgt : replay.seq < seq
  · exact ⟨fun _ => ⟨hzero, .inl hgt⟩, fun _ => if_pos hgt⟩
  have hle : seq ≤ replay.seq := by simpa using hgt
  rw [if_neg hgt]
  dsimp only
  rw [toNat_sub_of_le hle]
  by_cases hold : replay.seq.toNat - seq.toNat ≥ min window.toNat 32
  · simp only [hold, if_true, reduceCtorEq, hgt, false_iff]
    rintro ⟨-, -, hlt, -⟩
    omega
  have hbit := and_shl_one_eq_zero replay.bitmap
    (by rw [toNat_sub_of_le hle]; omega)
  rw [toNat_sub_of_le hle] at hbit
  rw [if_neg hold]
  simp only [ne_eq, hbit, Bool.not_eq_false, ite_eq_right_iff, reduceCtorEq, imp_false,
    Bool.not_eq_true, hzero, not_false_eq_true, hgt, false_or, true_and, hle, not_le.mp hold]

structure Marked (k : ℕ) (replay : ReplayState) (acc : List (BitVec 32)) : Prop where
  nodup : acc.Nodup
  le : ∀ m ∈ acc, m ≤ replay.seq
  top : replay.seq ≠ 0 → replay.seq ∈ acc
  marked : ∀ m ∈ acc, replay.seq.toNat - m.toNat < k →
    replay.bitmap.getLsbD (replay.seq.toNat - m.toNat) = true

/-- Nothing else is marked. -/
def MarkedOnly (k : ℕ) (replay : ReplayState) (acc : List (BitVec 32)) : Prop :=
  ∀ n ≤ replay.seq, replay.seq.toNat - n.toNat < k →
    replay.bitmap.getLsbD (replay.seq.toNat - n.toNat) = true → n ∈ acc

section Advance

variable (hw : window ≠ 0)
include hw

theorem advance_above (hgt : replay.seq < seq) : xfrmReplayAdvance window replay seq =
    ⟨seq, if seq.toNat - replay.seq.toNat < window.toNat then
      shl replay.bitmap (seq - replay.seq) ||| 1 else 1⟩ := by
  rw [xfrmReplayAdvance, if_neg hw]
  dsimp only
  rw [toNat_sub_of_le (BitVec.le_of_lt hgt)]
  split_ifs <;> rfl

theorem advance_within (hle : seq ≤ replay.seq) : xfrmReplayAdvance window replay seq =
    ⟨replay.seq, replay.bitmap ||| shl 1 (replay.seq - seq)⟩ := by
  rw [xfrmReplayAdvance, if_neg hw, if_neg (by simpa using hle)]

theorem getLsbD_advance_zero (hgt : replay.seq < seq) :
    (xfrmReplayAdvance window replay seq).bitmap.getLsbD 0 = true := by
  rw [advance_above hw hgt]
  split_ifs <;> simp

/-- The bitmap after a new highest number, if it is shifted by less than its width. -/
theorem getLsbD_advance (hgt : replay.seq < seq) {i : ℕ} (hi : i < 32)
    (hd : seq.toNat - replay.seq.toNat < 32) :
    (xfrmReplayAdvance window replay seq).bitmap.getLsbD i = true ↔ i = 0 ∨
      seq.toNat - replay.seq.toNat < window.toNat ∧ seq.toNat - replay.seq.toNat ≤ i ∧
        replay.bitmap.getLsbD (i - (seq.toNat - replay.seq.toNat)) = true := by
  rw [advance_above hw hgt]
  have hone : (1 : BitVec 32).getLsbD i = decide (i = 0) := getLsbD_one_shiftLeft i 0 hi
  split_ifs with hlt
  · rw [shl, toNat_sub_of_le (BitVec.le_of_lt hgt), mod_eq_of_lt hd,
      getLsbD_or, getLsbD_shiftLeft, hone]
    simp only [hi, Bool.or_eq_true, Bool.and_eq_true,
      Bool.not_eq_true', decide_eq_false_iff_not, not_lt, decide_eq_true_eq, hlt, true_and]
    exact or_comm
  · simp [hlt]

end Advance

/-- A step never forgets what has been received, whatever the window is. -/
theorem Marked.step (hw : window ≠ 0) (h : Marked (min window.toNat 32) replay acc)
    (hc : xfrmReplayCheck window replay seq = none) :
    Marked (min window.toNat 32) (xfrmReplayAdvance window replay seq) (seq :: acc) := by
  obtain ⟨hzero, hgt | ⟨hle, hlt, hbit⟩⟩ := (xfrmReplayCheck_eq_none hw).mp hc
  · have hseq : (xfrmReplayAdvance window replay seq).seq = seq := by rw [advance_above hw hgt]
    have hnew : seq ∉ acc := fun hmem => absurd (h.le seq hmem) (by simpa using hgt)
    refine ⟨nodup_cons.mpr ⟨hnew, h.nodup⟩, ?_, ?_, ?_⟩
    · rw [hseq]
      intro m hm
      rcases mem_cons.mp hm with rfl | hm
      · exact BitVec.le_refl m
      · exact Std.le_trans (h.le m hm) (BitVec.le_of_lt hgt)
    · rw [hseq]
      exact fun _ => mem_cons_self
    · rw [hseq]
      intro m hm hmk
      rcases mem_cons.mp hm with rfl | hm
      · rw [Nat.sub_self]
        exact getLsbD_advance_zero hw hgt
      · have h₁ := le_def.mp (h.le m hm)
        have h₂ := lt_def.mp hgt
        rw [getLsbD_advance hw hgt (by omega) (by omega)]
        refine .inr ⟨by omega, by omega, ?_⟩
        rw [show seq.toNat - m.toNat - (seq.toNat - replay.seq.toNat) =
          replay.seq.toNat - m.toNat by omega]
        exact h.marked m hm (by omega)
  · have hdiff : (replay.seq - seq).toNat = replay.seq.toNat - seq.toNat := toNat_sub_of_le hle
    have hnew : seq ∉ acc := fun hmem => by
      rw [h.marked seq hmem hlt] at hbit
      cases hbit
    rw [advance_within hw hle]
    refine ⟨nodup_cons.mpr ⟨hnew, h.nodup⟩, ?_, ?_, ?_⟩
    · exact forall_mem_cons.mpr ⟨hle, h.le⟩
    · exact fun hne => mem_cons_of_mem _ (h.top hne)
    · intro m hm hmk
      rw [getLsbD_or, getLsbD_shl_one (by omega) (by omega)]
      rcases mem_cons.mp hm with rfl | hm
      · simp [hdiff]
      · rw [h.marked m hm hmk, Bool.true_or]

/-- A window of at most 32 packets never marks too much. -/
theorem MarkedOnly.step (hw : window ≠ 0) (h32 : window.toNat ≤ 32)
    (h : MarkedOnly window.toNat replay acc) (hc : xfrmReplayCheck window replay seq = none) :
    MarkedOnly window.toNat (xfrmReplayAdvance window replay seq) (seq :: acc) := by
  obtain ⟨hzero, hgt | ⟨hle, hlt, hbit⟩⟩ := (xfrmReplayCheck_eq_none hw).mp hc
  · have hseq : (xfrmReplayAdvance window replay seq).seq = seq := by rw [advance_above hw hgt]
    have h₂ := lt_def.mp hgt
    intro n hn hlt hbit
    rw [hseq] at hn hlt hbit
    have h₁ := le_def.mp hn
    by_cases hd : seq.toNat - replay.seq.toNat < 32
    · rw [getLsbD_advance hw hgt (by omega) hd] at hbit
      rcases hbit with heq | ⟨-, hge, hbit⟩
      · rw [eq_of_toNat_eq (show n.toNat = seq.toNat by omega)]
        exact mem_cons_self
      · rw [show seq.toNat - n.toNat - (seq.toNat - replay.seq.toNat) =
          replay.seq.toNat - n.toNat by omega] at hbit
        exact mem_cons_of_mem _ (h n (le_def.mpr (by omega)) (by omega) hbit)
    · rw [advance_above hw hgt, if_neg (by omega)] at hbit
      have hone : (1 : BitVec 32).getLsbD (seq.toNat - n.toNat) = _ :=
        getLsbD_one_shiftLeft _ 0 (by omega)
      have heq := of_decide_eq_true (hone.symm.trans hbit)
      rw [eq_of_toNat_eq (show n.toNat = seq.toNat by omega)]
      exact mem_cons_self
  · have hdiff : (replay.seq - seq).toNat = replay.seq.toNat - seq.toNat := toNat_sub_of_le hle
    rw [advance_within hw hle]
    intro n hn hlt' hbit'
    dsimp only at hn hlt' hbit'
    rw [getLsbD_or, getLsbD_shl_one (by omega) (by omega), Bool.or_eq_true,
      decide_eq_true_eq] at hbit'
    rcases hbit' with hbit' | heq
    · exact mem_cons_of_mem _ (h n hn hlt' hbit')
    · have h₁ := le_def.mp hn
      have h₂ := le_def.mp hle
      rw [eq_of_toNat_eq (show n.toNat = seq.toNat by omega)]
      exact mem_cons_self

theorem MarkedOnly.detects (hw : window ≠ 0)
    (h : MarkedOnly window.toNat replay acc) (hm : Marked (min window.toNat 32) replay acc) :
    Detects (xfrmReplayCheck window replay) (min window.toNat 32) acc where
  once := hm.nodup
  above n hn hgt := (xfrmReplayCheck_eq_none hw).mpr ⟨hn, .inl (highest_lt hm.top hn hgt)⟩
  within n hn hnew t ht hmax hle hlt := by
    obtain rfl := eq_highest hm.top hm.le ht hmax
    refine (xfrmReplayCheck_eq_none hw).mpr ⟨hn, .inr ⟨hle, hlt, ?_⟩⟩
    by_contra hbit
    exact hnew (h n hle (by omega) (by simpa using hbit))

theorem shift_too_far : ∀ window : BitVec 8, 32 < window.toNat →
    let s := receiveAll (xfrmReplayCheck window) (xfrmReplayAdvance window) ⟨0, 0⟩ [1, 2, 34]
    s.2 = [34, 2, 1] ∧ xfrmReplayCheck window s.1 33 = some .einval := by
  decide +kernel

def legacyRun (window : BitVec 8) : List (BitVec 32) → ReplayState × List (BitVec 32) :=
  receiveAll (xfrmReplayCheck window) (xfrmReplayAdvance window) ⟨0, 0⟩

/-- No number is accepted twice, and all new numbers are accepted if and only if the window has
at most 32 packets. -/
theorem legacy_replay_iff (window : BitVec 8) (hw : window ≠ 0) :
    (∀ seqs, (legacyRun window seqs).2.Nodup) ∧
    ((∀ seqs, Detects (xfrmReplayCheck window (legacyRun window seqs).1) (min window.toNat 32)
      (legacyRun window seqs).2) ↔ window.toNat ≤ 32) := by
  have hmarked : ∀ seqs,
      Marked (min window.toNat 32) (legacyRun window seqs).1
        (legacyRun window seqs).2 := fun seqs =>
    receiveAll_invariant
      ⟨nodup_nil, by simp, by simp, by simp⟩ fun h hc => h.step hw hc
  refine ⟨fun seqs => (hmarked seqs).nodup, fun h => ?_, fun h32 seqs => ?_⟩
  · by_contra hgt
    obtain ⟨hacc, hcheck⟩ := shift_too_far window (by omega)
    have hdetects := h [1, 2, 34]
    rw [legacyRun, hacc] at hdetects
    have hnone := hdetects.within 33 (by decide) (by decide) 34 (by simp) (by simp) (by decide)
      (show 1 < min window.toNat 32 by omega)
    rw [hcheck] at hnone
    cases hnone
  · have honly : MarkedOnly window.toNat (legacyRun window seqs).1 (legacyRun window seqs).2 :=
      receiveAll_invariant (by simp [MarkedOnly])
        fun h hc => h.step hw h32 hc
    exact honly.detects hw (hmarked seqs)

theorem legacy_replay_iff_word : (32 : BitVec 8) ≠ 0 ∧
    ∀ seqs, Detects (xfrmReplayCheck 32 (legacyRun 32 seqs).1) (min (32 : BitVec 8).toNat 32)
      (legacyRun 32 seqs).2 :=
  ⟨by decide, (legacy_replay_iff 32 (by decide)).2.mpr (by decide)⟩

/-- With a window of 64, number 33 is refused after 34, though it was never received. -/
theorem legacy_refuses_new :
    let s := receiveAll (xfrmReplayCheck 64) (xfrmReplayAdvance 64) ⟨0, 0⟩ [1, 2, 34]
    s.2 = [34, 2, 1] ∧ xfrmReplayCheck 64 s.1 33 = some .einval := by
  decide +kernel

end Legacy

section Bmp

variable {r : ReplayStateEsn} {acc : List (BitVec 32)} {seq w : BitVec 32} {len : ℕ}

section Numbers

variable {k : ℕ} {seq : BitVec k} {acc : List (BitVec k)}

def numbers (acc : List (BitVec k)) : Set ℤ := {n | ∃ x ∈ acc, (x.toNat : ℤ) = n}

theorem numbers_nil : numbers ([] : List (BitVec k)) = ∅ :=
  Set.eq_empty_of_forall_notMem (by simp [numbers])

theorem numbers_cons (seq : BitVec k) (acc : List (BitVec k)) :
    numbers (seq :: acc) = insert (seq.toNat : ℤ) (numbers acc) := by
  ext n
  simp only [numbers, mem_cons, exists_eq_or_imp]
  exact or_congr_left eq_comm

theorem toNat_mem_numbers : (seq.toNat : ℤ) ∈ numbers acc ↔ seq ∈ acc := by
  constructor
  · rintro ⟨x, hx, hxn⟩
    rwa [← eq_of_toNat_eq (Int.ofNat_inj.mp hxn)]
  · exact fun h => ⟨seq, h, rfl⟩

end Numbers

theorem xfrmReplayCheckBmp_eq_none (hw : r.replayWindow ≠ 0) :
    xfrmReplayCheckBmp r seq = none ↔ seq ≠ 0 ∧ (r.seq < seq ∨
      seq ≤ r.seq ∧ r.seq - seq < r.replayWindow ∧
        testBit r.bmp (bitBehind r (r.seq - seq)).toNat = false) := by
  rw [xfrmReplayCheckBmp, if_neg hw]
  by_cases hzero : seq = 0
  · simp [hzero]
  rw [if_neg hzero]
  by_cases hgt : r.seq < seq
  · exact ⟨fun _ => ⟨hzero, .inl hgt⟩, fun _ => if_pos hgt⟩
  rw [if_neg hgt]
  by_cases hold : r.seq - seq ≥ r.replayWindow
  · rw [if_pos hold]
    refine ⟨fun h => (by cases h), ?_⟩
    rintro ⟨-, h | ⟨-, h, -⟩⟩
    · exact (hgt h).elim
    · exact (BitVec.not_lt.mpr hold h).elim
  · rw [if_neg hold]
    have hlt : r.seq - seq < r.replayWindow := BitVec.not_le.mp hold
    have hle : seq ≤ r.seq := BitVec.not_lt.mp hgt
    rcases testBit r.bmp (bitBehind r (r.seq - seq)).toNat with _ | _
    · simpa using ⟨hzero, .inr ⟨hle, hlt⟩⟩
    · simpa using fun _ => hgt

structure BmpInv (w : BitVec 32) (r : ReplayStateEsn) (acc : List (BitVec 32)) : Prop where
  window : r.replayWindow = w
  tracks : Tracks r r.seq.toNat (numbers acc)
  top : r.seq ≠ 0 → r.seq ∈ acc
  nodup : acc.Nodup

section

variable (h : BmpInv w r acc)
include h

theorem BmpInv.ne_zero : r.replayWindow ≠ 0 := by
  have := h.tracks.pos
  rintro hzero
  rw [hzero] at this
  exact absurd this (by decide)

theorem BmpInv.le : ∀ m ∈ acc, m ≤ r.seq := fun m hm => by
  have := h.tracks.shows.le _ (toNat_mem_numbers.mpr hm)
  exact le_def.mpr (by omega)

theorem BmpInv.bit (hle : seq ≤ r.seq) (hlt : r.seq - seq < r.replayWindow) :
    testBit r.bmp (bitBehind r (r.seq - seq)).toNat = true ↔ seq ∈ acc := by
  have hdiff := toNat_sub_of_le hle
  have hle' := le_def.mp hle
  rw [h.tracks.testBit_bitBehind (lt_def.mp hlt), ← toNat_mem_numbers, hdiff,
    cast_sub hle', sub_sub_cancel]

theorem BmpInv.step (hc : xfrmReplayCheckBmp r seq = none) :
    BmpInv w (xfrmReplayAdvanceBmp r seq) (seq :: acc) := by
  obtain ⟨hzero, hgt | ⟨hle', hlt, hbit⟩⟩ := (xfrmReplayCheckBmp_eq_none h.ne_zero).mp hc
  · have hdiff := toNat_sub_of_le (BitVec.le_of_lt hgt)
    have hpos := lt_def.mp hgt
    have htop : (r.seq.toNat : ℤ) + (seq - r.seq).toNat = seq.toNat := by omega
    have hadvance := h.tracks.advanceTop (seq - r.seq) seq (by omega) (htop ▸ Int.ModEq.refl _)
    rw [htop, ← numbers_cons] at hadvance
    rw [xfrmReplayAdvanceBmp, if_neg h.ne_zero, if_pos hgt]
    refine ⟨h.window, hadvance, fun _ => mem_cons_self, nodup_cons.mpr ⟨?_, h.nodup⟩⟩
    exact fun hmem => BitVec.not_lt.mpr (h.le seq hmem) hgt
  · have hdiff := toNat_sub_of_le hle'
    have hle'' := le_def.mp hle'
    have hlow : (r.seq.toNat : ℤ) - (r.seq - seq).toNat = seq.toNat := by omega
    have hadvance := h.tracks.advanceBehind seq (lt_def.mp hlt)
    rw [hlow, ← numbers_cons] at hadvance
    rw [xfrmReplayAdvanceBmp, if_neg h.ne_zero, if_neg (BitVec.not_lt.mpr hle')]
    refine ⟨h.window, hadvance, fun hne => mem_cons_of_mem _ (h.top hne), ?_⟩
    refine nodup_cons.mpr ⟨fun hmem => ?_, h.nodup⟩
    rw [(h.bit hle' hlt).mpr hmem] at hbit
    cases hbit

theorem BmpInv.detects : Detects (xfrmReplayCheckBmp r) w.toNat acc where
  once := h.nodup
  above n hn hgt := (xfrmReplayCheckBmp_eq_none h.ne_zero).mpr ⟨hn, .inl (highest_lt h.top hn hgt)⟩
  within n hn hnew t ht hmax hle hlt := by
    obtain rfl := eq_highest h.top h.le ht hmax
    have hlt' : r.seq - n < r.replayWindow := by
      rw [h.window, lt_def, toNat_sub_of_le hle]
      exact hlt
    refine (xfrmReplayCheckBmp_eq_none h.ne_zero).mpr ⟨hn, .inr ⟨hle, hlt', ?_⟩⟩
    by_contra hbit
    exact hnew ((h.bit hle hlt').mp (by simpa using hbit))

end

/-- The state at the start: nothing has been received. -/
def initEsn (w : BitVec 32) (len : ℕ) : ReplayStateEsn := ⟨0, 0, w, List.replicate len 0⟩

theorem testBit_initEsn (j : ℕ) : testBit (initEsn w len).bmp j = false :=
  testBit_eq_false _ _ fun _ hx => eq_of_mem_replicate hx

theorem tracks_init (hdvd : w.toNat ∣ 2 ^ 32) (hlen : w.toNat ≤ 32 * len) :
    Tracks (initEsn w len) 0 ∅ where
  dvd := hdvd
  len := by simpa [initEsn] using hlen
  seq := Int.ModEq.refl 0
  shows := ⟨fun n hn => hn.elim, fun n _ _ => by simp [testBit_initEsn]⟩

/-- The place of the first number is computed from `seq - 1` with `seq` zero. -/
theorem first_place (hw : 0 < w.toNat) :
    (bitAhead (initEsn w len) 1).toNat = 0 ↔ w.toNat ∣ 2 ^ 32 := by
  have hlt : (2 ^ 32 - 1) % w.toNat < w.toNat := mod_lt _ hw
  change ((2 ^ 32 - 1) % w.toNat + 1) % 2 ^ 32 % w.toNat = 0 ↔ _
  rw [mod_eq_of_lt (show (2 ^ 32 - 1) % w.toNat + 1 < 2 ^ 32 by omega), mod_add_mod]
  exact dvd_iff_mod_eq_zero.symm

section Twice

variable (hw : 0 < w.toNat) (hdvd : ¬ w.toNat ∣ 2 ^ 32)
include hw hdvd

theorem one_lt_window : (1 : BitVec 32) < w := by
  by_contra hle
  have : w.toNat = 1 := le_antisymm (not_lt.mp hle) hw
  exact hdvd (this ▸ one_dvd _)

/-- After number 1 a bit is set, but not the one that is looked at when it comes again. -/
theorem second_place_clear (hlen : w.toNat ≤ 32 * len) :
    let r := advanceTop (initEsn w len) 1 1
    r.seq = 1 ∧ r.seqHi = 0 ∧ r.replayWindow = w ∧ testBit r.bmp (bitBehind r 0).toNat = false := by
  intro r
  have hone := one_lt_window hw hdvd
  have hbmp : r.bmp = setBit (initEsn w len).bmp (bitAhead (initEsn w len) 1).toNat := by
    show setBit (if 1 < w then clearAhead (initEsn w len) 1 else _) _ = _
    rw [if_pos hone]
    rfl
  have hplace : bitBehind r 0 = 0 := by
    have htop : topBit r = 0 := by
      show (1 - 1) % w = 0
      exact zero_umod
    rw [bitBehind, htop]
    exact zero_umod
  refine ⟨rfl, rfl, rfl, ?_⟩
  have hahead : (bitAhead (initEsn w len) 1).toNat < 32 * (initEsn w len).bmp.length := by
    rw [bitAhead, initEsn, length_replicate]
    exact lt_of_lt_of_le (mod_lt _ hw) hlen
  rw [hbmp, hplace, testBit_setBit _ hahead, testBit_initEsn, Bool.or_false]
  exact decide_eq_false fun heq => hdvd ((first_place hw).mp heq.symm)

theorem bmp_twice (hlen : w.toNat ≤ 32 * len) :
    (receiveAll xfrmReplayCheckBmp xfrmReplayAdvanceBmp (initEsn w len) [1, 1]).2 = [1, 1] := by
  have hne : w ≠ 0 := fun hzero => absurd (hzero ▸ hw) (by decide)
  obtain ⟨hseq, -, hwin, hbit⟩ := second_place_clear hw hdvd hlen
  have hfirst : xfrmReplayCheckBmp (initEsn w len) 1 = none :=
    (xfrmReplayCheckBmp_eq_none hne).mpr ⟨by decide, .inl (by decide : 0 < 1)⟩
  have hadvance : xfrmReplayAdvanceBmp (initEsn w len) 1 = advanceTop (initEsn w len) 1 1 := by
    have hseq₀ : (initEsn w len).seq = 0 := rfl
    rw [xfrmReplayAdvanceBmp, hseq₀]
    exact if_neg hne
  have hsecond : xfrmReplayCheckBmp (advanceTop (initEsn w len) 1 1) 1 = none := by
    rw [xfrmReplayCheckBmp_eq_none (by rwa [hwin]), hseq]
    exact ⟨by decide, .inr ⟨BitVec.le_refl _, lt_def.mpr hw, hbit⟩⟩
  simp only [receiveAll, foldl_cons, foldl_nil, receive, hfirst, hadvance, hsecond, if_true]

end Twice

def bmpRun (w : BitVec 32) (len : ℕ) : List (BitVec 32) → ReplayStateEsn × List (BitVec 32) :=
  receiveAll xfrmReplayCheckBmp xfrmReplayAdvanceBmp (initEsn w len)

/-- Replay detection with a bitmap works if and only if the window divides 2^32. -/
theorem bmp_replay_iff (w : BitVec 32) (len : ℕ) (hw : 0 < w.toNat) (hlen : w.toNat ≤ 32 * len) :
    (∀ seqs, Detects (xfrmReplayCheckBmp (bmpRun w len seqs).1) w.toNat (bmpRun w len seqs).2) ↔
      w.toNat ∣ 2 ^ 32 := by
  constructor
  · intro h
    by_contra hdvd
    have honce := (h [1, 1]).once
    rw [bmpRun, bmp_twice hw hdvd hlen] at honce
    exact absurd honce (by decide)
  · intro hdvd seqs
    have hinit : BmpInv w (initEsn w len) [] := by
      refine ⟨rfl, ?_, fun hne => (hne rfl).elim, nodup_nil⟩
      rw [numbers_nil]
      exact tracks_init hdvd hlen
    exact (receiveAll_invariant hinit fun h hc => h.step hc).detects

theorem bmp_replay_iff_four : (4 : BitVec 32).toNat ∣ 2 ^ 32 ∧
    ∀ seqs, Detects (xfrmReplayCheckBmp (bmpRun 4 1 seqs).1) (4 : BitVec 32).toNat
      (bmpRun 4 1 seqs).2 :=
  ⟨by decide, (bmp_replay_iff 4 1 (by decide) (by decide)).mpr (by decide)⟩

/-- With a window of three packets, number 1 is accepted twice. -/
theorem bmp_accepts_twice :
    (receiveAll xfrmReplayCheckBmp xfrmReplayAdvanceBmp (initEsn 3 1) [1, 1]).2 = [1, 1] := by
  decide +kernel

end Bmp

end LinuxKernel.Xfrm
