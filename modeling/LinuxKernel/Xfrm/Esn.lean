import Mathlib.Data.List.Nodup
import LinuxKernel.Base.Run
import LinuxKernel.Xfrm.Replay

/-! # Sequence numbers of 64 bits

Packets only carry the low half. All three functions take it for the half of one number, the one
in the 2^32 numbers that start with the lowest one of the window. So the bitmap follows the numbers
of 64 bits, as long as the high half does not go around.
-/

namespace LinuxKernel.Xfrm

open Bitmap BitVec List

variable {r : ReplayStateEsn} {seq : BitVec 32}

def topEsn (r : ReplayStateEsn) : ℤ := r.seqHi.toNat * 2 ^ 32 + r.seq.toNat

/-- The number that a low half is taken for. -/
def numberEsn (r : ReplayStateEsn) (seq : BitVec 32) : ℤ :=
  if r.replayWindow.toNat - 1 ≤ r.seq.toNat then
    if r.seq.toNat + 1 - r.replayWindow.toNat ≤ seq.toNat then r.seqHi.toNat * 2 ^ 32 + seq.toNat
    else (r.seqHi.toNat + 1) * 2 ^ 32 + seq.toNat
  else
    if 2 ^ 32 + r.seq.toNat + 1 - r.replayWindow.toNat ≤ seq.toNat then
      (r.seqHi.toNat - 1) * 2 ^ 32 + seq.toNat
    else r.seqHi.toNat * 2 ^ 32 + seq.toNat

section Number

theorem not_add_add_one (x y : BitVec 32) : ~~~x + y + 1 = y - x := by
  apply eq_of_toNat_eq
  simp only [toNat_add, toNat_not, toNat_sub, ofNat_eq_ofNat, toNat_ofNat]
  omega

variable (hw : 0 < r.replayWindow.toNat)
include hw

theorem bottom_toNat : (bottom r).toNat =
    if r.replayWindow.toNat - 1 ≤ r.seq.toNat then r.seq.toNat + 1 - r.replayWindow.toNat
    else 2 ^ 32 + r.seq.toNat + 1 - r.replayWindow.toNat := by
  rw [bottom, toNat_add, toNat_sub]
  simp only [ofNat_eq_ofNat, toNat_ofNat]
  split_ifs <;> omega

theorem window_pred_le : r.seq ≥ r.replayWindow - 1 ↔ r.replayWindow.toNat - 1 ≤ r.seq.toNat := by
  have hone : 1 ≤ r.replayWindow := le_def.mpr hw
  rw [ge_iff_le, le_def, toNat_sub_of_le hone]
  rfl

/-- The subspace of a low half: the high half that is put in front of it, and the number. -/
inductive Subspace (r : ReplayStateEsn) (seq : BitVec 32) : BitVec 32 → ℤ → Prop where
  | same : (r.replayWindow.toNat - 1 ≤ r.seq.toNat ∧
        r.seq.toNat + 1 - r.replayWindow.toNat ≤ seq.toNat) ∨
      (r.seq.toNat < r.replayWindow.toNat - 1 ∧
        seq.toNat < 2 ^ 32 + r.seq.toNat + 1 - r.replayWindow.toNat) →
      Subspace r seq r.seqHi (r.seqHi.toNat * 2 ^ 32 + seq.toNat)
  | next : r.replayWindow.toNat - 1 ≤ r.seq.toNat →
      seq.toNat < r.seq.toNat + 1 - r.replayWindow.toNat →
      Subspace r seq (r.seqHi + 1) ((r.seqHi.toNat + 1) * 2 ^ 32 + seq.toNat)
  | previous : r.seq.toNat < r.replayWindow.toNat - 1 →
      2 ^ 32 + r.seq.toNat + 1 - r.replayWindow.toNat ≤ seq.toNat →
      Subspace r seq (r.seqHi - 1) ((r.seqHi.toNat - 1) * 2 ^ 32 + seq.toNat)

theorem subspace (seq : BitVec 32) : Subspace r seq (xfrmReplaySeqhi r seq) (numberEsn r seq) := by
  rw [xfrmReplaySeqhi, numberEsn]
  simp only [window_pred_le hw, le_def, lt_def, bottom_toNat hw]
  by_cases hA : r.replayWindow.toNat - 1 ≤ r.seq.toNat
  · simp only [hA, if_true]
    by_cases hx : r.seq.toNat + 1 - r.replayWindow.toNat ≤ seq.toNat
    · rw [if_neg (by omega), if_pos hx]
      exact .same (.inl ⟨hA, hx⟩)
    · rw [if_pos (by omega), if_neg hx]
      exact .next hA (by omega)
  · simp only [hA, if_false]
    by_cases hx : 2 ^ 32 + r.seq.toNat + 1 - r.replayWindow.toNat ≤ seq.toNat
    · rw [if_pos hx, if_pos hx]
      exact .previous (by omega) hx
    · rw [if_neg hx, if_neg hx]
      exact .same (.inr ⟨by omega, by omega⟩)

theorem numberEsn_bounds (seq : BitVec 32) :
    topEsn r - r.replayWindow.toNat < numberEsn r seq ∧
      numberEsn r seq ≤ topEsn r - r.replayWindow.toNat + 2 ^ 32 := by
  have h := subspace hw seq
  rw [topEsn]
  generalize xfrmReplaySeqhi r seq = hi, numberEsn r seq = n at h
  cases h <;> omega

/-- The word that `diff` is, for a number in the window and for one above the highest. -/
theorem sub_toNat (seq : BitVec 32) :
    (numberEsn r seq ≤ topEsn r → ((r.seq - seq).toNat : ℤ) = topEsn r - numberEsn r seq) ∧
      (topEsn r < numberEsn r seq → ((seq - r.seq).toNat : ℤ) = numberEsn r seq - topEsn r) := by
  have h := subspace hw seq
  rw [topEsn, toNat_sub, toNat_sub]
  generalize xfrmReplaySeqhi r seq = hi, numberEsn r seq = n at h
  cases h <;> omega

/-- Number 0 does not pass while the window reaches below it. -/
def ZeroTest (r : ReplayStateEsn) (seq : BitVec 32) : Prop :=
  seq = 0 ∧ r.seqHi = 0 ∧ r.seq.toNat < r.replayWindow.toNat - 1

instance (r : ReplayStateEsn) (seq : BitVec 32) : Decidable (ZeroTest r seq) :=
  inferInstanceAs (Decidable (_ ∧ _))

theorem window_ne_zero : r.replayWindow ≠ 0 := fun h => absurd (h ▸ hw) (by decide)

theorem zeroTest_iff : (seq = 0 ∧ r.seqHi = 0 ∧ r.seq < r.replayWindow - 1) ↔ ZeroTest r seq := by
  rw [ZeroTest, ← BitVec.not_le, ← ge_iff_le, window_pred_le hw, not_le]

theorem xfrmReplayCheckEsn_eq : xfrmReplayCheckEsn r seq =
    if ZeroTest r seq then some .einval
    else if topEsn r < numberEsn r seq then none
    else checkWindow r (r.seq - seq) := by
  rw [xfrmReplayCheckEsn, if_neg (window_ne_zero hw)]
  by_cases hz : ZeroTest r seq
  · rw [if_pos ((zeroTest_iff hw).mpr hz), if_pos hz]
  rw [if_neg ((zeroTest_iff hw).not.mpr hz)]
  simp only [window_pred_le hw, not_add_add_one, lt_def, bottom_toNat hw]
  have h := subspace hw seq
  rw [topEsn]
  generalize xfrmReplaySeqhi r seq = hi, numberEsn r seq = n at h
  -- both sides ask whether the number is above the highest one
  cases h <;> split_ifs <;> first | rfl | (exfalso; omega)

theorem checkWindow_eq_none (hle : numberEsn r seq ≤ topEsn r) :
    checkWindow r (r.seq - seq) = none ↔
      testBit r.bmp (bitBehind r (r.seq - seq)).toNat = false := by
  have hdiff := (sub_toNat hw seq).1 hle
  have hbounds := numberEsn_bounds hw seq
  have hlt : ¬ r.seq - seq ≥ r.replayWindow := by
    rw [ge_iff_le, le_def]
    omega
  rw [checkWindow]
  split_ifs with hbit <;> simp [hbit]

theorem xfrmReplayCheckEsn_eq_none :
    xfrmReplayCheckEsn r seq = none ↔ ¬ ZeroTest r seq ∧ (topEsn r < numberEsn r seq ∨
      numberEsn r seq ≤ topEsn r ∧ testBit r.bmp (bitBehind r (r.seq - seq)).toNat = false) := by
  rw [xfrmReplayCheckEsn_eq hw]
  by_cases hz : ZeroTest r seq
  · simp [hz]
  rw [if_neg hz]
  by_cases hlt : topEsn r < numberEsn r seq
  · simp [hz, hlt]
  · rw [if_neg hlt, checkWindow_eq_none hw (not_lt.mp hlt)]
    simp [hz, not_lt.mp hlt]

/-- A number is marked on the ring, and a new highest one is stored. -/
theorem xfrmReplayAdvanceEsn_eq :
    xfrmReplayAdvanceEsn r seq = if topEsn r < numberEsn r seq then
      { advanceTop r seq (seq - r.seq) with seqHi := xfrmReplaySeqhi r seq }
    else advanceBehind r seq := by
  have h := subspace hw seq
  rw [xfrmReplayAdvanceEsn, if_neg (window_ne_zero hw), topEsn]
  simp only [not_add_add_one, ite_self, lt_def]
  generalize xfrmReplaySeqhi r seq = hi, numberEsn r seq = n at h
  cases h with
  | same =>
    have hwrap : (r.seqHi - r.seqHi).toInt = 0 := by simp
    rw [hwrap]
    by_cases hx : r.seq.toNat < seq.toNat
    · rw [if_pos (.inl ⟨rfl, hx⟩), if_neg (by omega), if_pos (by omega)]
      rfl
    · rw [if_neg (by omega), if_neg (by omega)]
  | next =>
    have hwrap : (r.seqHi + 1 - r.seqHi).toInt = 1 := by
      rw [BitVec.add_comm, add_sub_cancel]
      rfl
    rw [if_pos (by omega), if_pos (by omega), if_pos (by omega)]
    rfl
  | previous =>
    have hwrap : (r.seqHi - 1 - r.seqHi).toInt = -1 := by
      have : r.seqHi - 1 - r.seqHi = -1 := by
        rw [BitVec.sub_eq_add_neg (r.seqHi) 1, BitVec.add_comm, BitVec.add_sub_cancel]
      rw [this]
      rfl
    rw [if_neg (by omega), if_neg (by omega)]

end Number

section Invariant

variable {w : BitVec 32} {len : ℕ} {acc : List (BitVec 64)} {p : BitVec 64}

/-- The high half is found without going below 0 or above 2^32 - 1. -/
def NoWrap (r : ReplayStateEsn) (seq : BitVec 32) : Prop :=
  (xfrmReplaySeqhi r seq).toNat ≤ r.seqHi.toNat + 1 ∧
    r.seqHi.toNat ≤ (xfrmReplaySeqhi r seq).toNat + 1

instance (r : ReplayStateEsn) (seq : BitVec 32) : Decidable (NoWrap r seq) :=
  inferInstanceAs (Decidable (_ ∧ _))

theorem NoWrap.number_eq (h : NoWrap r seq) (hw : 0 < r.replayWindow.toNat) :
    numberEsn r seq = (xfrmReplaySeqhi r seq).toNat * 2 ^ 32 + seq.toNat := by
  have hs := subspace hw seq
  rw [NoWrap] at h
  generalize xfrmReplaySeqhi r seq = hi, numberEsn r seq = n at h hs ⊢
  cases hs with
  | same => rfl
  | next =>
    rw [toNat_add] at h ⊢
    simp only [ofNat_eq_ofNat, toNat_ofNat] at h ⊢
    omega
  | previous =>
    rw [toNat_sub] at h ⊢
    simp only [ofNat_eq_ofNat, toNat_ofNat] at h ⊢
    omega

structure EsnInv (w : BitVec 32) (r : ReplayStateEsn) (acc : List (BitVec 64)) : Prop where
  window : r.replayWindow = w
  tracks : Tracks r (topEsn r) (numbers acc)
  top : topEsn r ≠ 0 → topEsn r ∈ numbers acc
  nodup : acc.Nodup

theorem EsnInv.init (hdvd : w.toNat ∣ 2 ^ 32) (hlen : w.toNat ≤ 32 * len) :
    EsnInv w (initEsn w len) [] := by
  have htop : topEsn (initEsn w len) = 0 := by simp [topEsn, initEsn]
  refine ⟨rfl, ?_, fun hne => (hne htop).elim, nodup_nil⟩
  rw [numbers_nil, htop]
  exact tracks_init hdvd hlen

variable (h : EsnInv w r acc)
include h

theorem EsnInv.bit (hle : numberEsn r seq ≤ topEsn r) :
    testBit r.bmp (bitBehind r (r.seq - seq)).toNat = true ↔ numberEsn r seq ∈ numbers acc := by
  have hdiff := (sub_toNat h.tracks.pos seq).1 hle
  have hbounds := numberEsn_bounds h.tracks.pos seq
  rw [h.tracks.testBit_bitBehind (by omega), hdiff, sub_sub_cancel]

variable (hc : xfrmReplayCheckEsn r seq = none)
include hc

theorem EsnInv.not_mem (hp : (p.toNat : ℤ) = numberEsn r seq) : p ∉ acc := by
  rw [← toNat_mem_numbers, hp]
  intro hmem
  obtain ⟨-, hlt | ⟨hle, hbit⟩⟩ := (xfrmReplayCheckEsn_eq_none h.tracks.pos).mp hc
  · exact absurd (h.tracks.shows.le _ hmem) (by omega)
  · rw [(h.bit hle).mpr hmem] at hbit
    cases hbit

theorem EsnInv.advance (hnw : NoWrap r seq) (hp : (p.toNat : ℤ) = numberEsn r seq) :
    EsnInv w (xfrmReplayAdvanceEsn r seq) (p :: acc) := by
  have hpos := h.tracks.pos
  have hnodup := nodup_cons.mpr ⟨h.not_mem hc hp, h.nodup⟩
  rw [xfrmReplayAdvanceEsn_eq hpos]
  by_cases hlt : topEsn r < numberEsn r seq
  · rw [if_pos hlt]
    have hdiff := (sub_toNat hpos seq).2 hlt
    have htop : topEsn { advanceTop r seq (seq - r.seq) with seqHi := xfrmReplaySeqhi r seq } =
        numberEsn r seq := (hnw.number_eq hpos).symm
    have hsum : topEsn r + (seq - r.seq).toNat = numberEsn r seq := by omega
    have hmod : topEsn r + (seq - r.seq).toNat ≡ seq.toNat [ZMOD 2 ^ 32] := by
      rw [hsum, hnw.number_eq hpos, Int.modEq_iff_dvd]
      exact ⟨-(xfrmReplaySeqhi r seq).toNat, by ring⟩
    have htracks := h.tracks.advanceTop (seq - r.seq) seq (by omega) hmod
    rw [hsum, ← hp, ← numbers_cons, hp] at htracks
    refine ⟨h.window, ?_, fun _ => ?_, hnodup⟩
    · rw [htop]
      exact ⟨htracks.dvd, htracks.len, htracks.seq, htracks.shows⟩
    · rw [htop, ← hp, toNat_mem_numbers]
      exact mem_cons_self
  · rw [if_neg hlt]
    have hdiff := (sub_toNat hpos seq).1 (not_lt.mp hlt)
    have hbounds := numberEsn_bounds hpos seq
    have htracks := h.tracks.advanceBehind seq (by omega)
    rw [hdiff, sub_sub_cancel, ← hp, ← numbers_cons] at htracks
    refine ⟨h.window, htracks, fun hne => ?_, hnodup⟩
    rw [numbers_cons]
    exact Set.mem_insert_of_mem _ (h.top hne)

end Invariant

section Packets

variable {w : BitVec 32} {len : ℕ} {acc : List (BitVec 64)} {p n : BitVec 64}

theorem high_toNat (p : BitVec 64) : ((p >>> 32).setWidth 32).toNat = p.toNat / 2 ^ 32 := by
  rw [toNat_setWidth, toNat_ushiftRight]
  omega

theorem checkAuthEsn_eq_none : checkAuthEsn r p = none ↔
    xfrmReplayCheckEsn r (p.setWidth 32) = none ∧
      xfrmReplaySeqhi r (p.setWidth 32) = (p >>> 32).setWidth 32 := by
  rw [checkAuthEsn]
  rcases xfrmReplayCheckEsn r (p.setWidth 32) with _ | e
  · simp
  · simp

theorem number_of_seqhi (hw : 0 < r.replayWindow.toNat) (hnw : NoWrap r (p.setWidth 32))
    (hhi : xfrmReplaySeqhi r (p.setWidth 32) = (p >>> 32).setWidth 32) :
    (p.toNat : ℤ) = numberEsn r (p.setWidth 32) := by
  rw [hnw.number_eq hw, hhi, high_toNat, toNat_setWidth]
  omega

/-- The high half of a number in the 2^32 ones from the lowest of the window on, modulo 2^64. -/
theorem seqhi_of_near (hw : 0 < r.replayWindow.toNat)
    (h : (n.toNat - (topEsn r - r.replayWindow.toNat + 1)) % 2 ^ 64 < 2 ^ 32) :
    xfrmReplaySeqhi r (n.setWidth 32) = (n >>> 32).setWidth 32 := by
  have hlow := toNat_setWidth 32 n
  have hs := subspace hw (n.setWidth 32)
  rw [topEsn] at h
  rw [← toNat_inj, high_toNat]
  generalize xfrmReplaySeqhi r (n.setWidth 32) = hi, numberEsn r (n.setWidth 32) = m at hs
  cases hs with
  | same => omega
  | next =>
    rw [toNat_add]
    simp only [ofNat_eq_ofNat, toNat_ofNat]
    omega
  | previous =>
    rw [toNat_sub]
    simp only [ofNat_eq_ofNat, toNat_ofNat]
    omega

theorem number_of_near (hw : 0 < r.replayWindow.toNat)
    (h₁ : topEsn r - r.replayWindow.toNat < n.toNat)
    (h₂ : n.toNat ≤ topEsn r - r.replayWindow.toNat + 2 ^ 32) :
    numberEsn r (n.setWidth 32) = n.toNat ∧
      xfrmReplaySeqhi r (n.setWidth 32) = (n >>> 32).setWidth 32 := by
  have hbounds := numberEsn_bounds hw (n.setWidth 32)
  have hlow := toNat_setWidth 32 n
  have hs := subspace hw (n.setWidth 32)
  refine ⟨?_, seqhi_of_near hw (by omega)⟩
  generalize xfrmReplaySeqhi r (n.setWidth 32) = hi, numberEsn r (n.setWidth 32) = m at hs hbounds
  cases hs <;> omega

/-- The high half is found for every number in the 2^32 ones from the lowest of the window on, also
where the numbers of 64 bits go around. -/
theorem xfrm_replay_seqhi_high (r : ReplayStateEsn) (s : BitVec 64)
    (hw : 1 ≤ r.replayWindow.toNat)
    (hs : (s - ((r.seqHi ++ r.seq : BitVec 64) - r.replayWindow.setWidth 64 + 1)).toNat < 2 ^ 32) :
    xfrmReplaySeqhi r (s.setWidth 32) = (s >>> 32).setWidth 32 := by
  have htop : (r.seqHi ++ r.seq : BitVec 64).toNat = topEsn r := by
    rw [toNat_append, ← Nat.shiftLeft_add_eq_or_of_lt r.seq.isLt, Nat.shiftLeft_eq]
    rfl
  rw [toNat_sub, toNat_add, toNat_sub, toNat_setWidth] at hs
  simp only [ofNat_eq_ofNat, toNat_ofNat] at hs
  exact seqhi_of_near hw (by omega)

theorem xfrm_replay_seqhi_high_around :
    xfrmReplaySeqhi ⟨1, 0, 4, [0]⟩ ((0xfffffffffffffffe : BitVec 64).setWidth 32) = 0xffffffff :=
  xfrm_replay_seqhi_high ⟨1, 0, 4, [0]⟩ 0xfffffffffffffffe (by decide) (by decide)

theorem not_zeroTest (hn : n ≠ 0) (hnum : numberEsn r (n.setWidth 32) = n.toNat) :
    ¬ ZeroTest r (n.setWidth 32) := by
  rintro ⟨hlow, hhi, hlt⟩
  have hzero : (0 : BitVec 32).toNat = 0 := rfl
  rw [hlow, numberEsn, hhi, if_neg (by omega), if_neg (by omega)] at hnum
  exact hn (eq_of_toNat_eq (by simpa using hnum.symm))

/-- What replay detection is for, with numbers of 64 bits. -/
structure DetectsEsn (w : BitVec 32) (r : ReplayStateEsn) (acc : List (BitVec 64)) : Prop where
  once : acc.Nodup
  le_top : ∀ n ∈ acc, n.toNat ≤ topEsn r
  top : topEsn r ≠ 0 → ∃ n ∈ acc, n.toNat = topEsn r
  ahead : ∀ n : BitVec 64, topEsn r < n.toNat → n.toNat ≤ topEsn r + (2 ^ 32 - w.toNat) →
    checkAuthEsn r n = none
  within : ∀ n : BitVec 64, n ≠ 0 → n ∉ acc → n.toNat ≤ topEsn r → topEsn r - n.toNat < w.toNat →
    checkAuthEsn r n = none

theorem EsnInv.detects (h : EsnInv w r acc) : DetectsEsn w r acc where
  once := h.nodup
  le_top n hn := h.tracks.shows.le _ (toNat_mem_numbers.mpr hn)
  top hne := h.top hne
  ahead n h₁ h₂ := by
    have hpos := h.tracks.pos
    rw [← h.window] at h₂
    obtain ⟨hnum, hhi⟩ := number_of_near (n := n) hpos (by omega) (by omega)
    have hn : n ≠ 0 := by
      rintro rfl
      have : 0 ≤ topEsn r := by
        rw [topEsn]
        omega
      simp at h₁
      omega
    refine checkAuthEsn_eq_none.mpr ⟨?_, hhi⟩
    exact (xfrmReplayCheckEsn_eq_none hpos).mpr ⟨not_zeroTest hn hnum, .inl (by omega)⟩
  within n hn hnew h₁ h₂ := by
    have hpos := h.tracks.pos
    rw [← h.window] at h₂
    obtain ⟨hnum, hhi⟩ := number_of_near (n := n) hpos (by omega) (by omega)
    refine checkAuthEsn_eq_none.mpr ⟨?_, hhi⟩
    refine (xfrmReplayCheckEsn_eq_none hpos).mpr ⟨not_zeroTest hn hnum, .inr ⟨by omega, ?_⟩⟩
    by_contra hbit
    have hle : numberEsn r (n.setWidth 32) ≤ topEsn r := by omega
    have := (h.bit hle).mp (by simpa using hbit)
    rw [hnum, toNat_mem_numbers] at this
    exact hnew this

/-- One packet, for which the high half does not go around. -/
def EsnStep (s : ReplayStateEsn × List (BitVec 64)) (p : BitVec 64)
    (t : ReplayStateEsn × List (BitVec 64)) : Prop :=
  t = receive checkAuthEsn advanceEsn s p ∧ (checkAuthEsn s.1 p = none → NoWrap s.1 (p.setWidth 32))

theorem EsnInv.step {s t : ReplayStateEsn × List (BitVec 64)} (h : EsnInv w s.1 s.2)
    (hst : EsnStep s p t) : EsnInv w t.1 t.2 := by
  obtain ⟨rfl, hnw⟩ := hst
  rw [receive]
  split_ifs with hc
  · obtain ⟨hcheck, hhi⟩ := checkAuthEsn_eq_none.mp hc
    exact h.advance hcheck (hnw hc) (number_of_seqhi h.tracks.pos (hnw hc) hhi)
  · exact h

theorem noWrap_of_seqhi_eq (h : xfrmReplaySeqhi r seq = r.seqHi) : NoWrap r seq := by
  rw [NoWrap, h]
  omega

/-- Number 1 is found while it is the highest one, or the next. -/
theorem number_one (hw : 0 < r.replayWindow.toNat) (htop : topEsn r = 0 ∨ topEsn r = 1) :
    numberEsn r 1 = 1 ∧ xfrmReplaySeqhi r 1 = 0 := by
  have hone : (1 : BitVec 64).toNat = 1 := rfl
  exact number_of_near (n := 1) hw (by omega) (by omega)

theorem esn_twice (hw : 0 < w.toNat) (hlen : w.toNat ≤ 32 * len) (hdvd : ¬ w.toNat ∣ 2 ^ 32) :
    ∃ r, Run EsnStep (initEsn w len, []) [1, 1] (r, [1, 1]) := by
  have hzero : ∀ r, ¬ ZeroTest r 1 := fun r h => absurd h.1 (by decide)
  obtain ⟨hseq, hhi, hwin, hbit⟩ := second_place_clear hw hdvd hlen
  have hw₁ : 0 < (advanceTop (initEsn w len) 1 1).replayWindow.toNat := hw
  have htop₀ : topEsn (initEsn w len) = 0 := by simp [topEsn, initEsn]
  have htop₁ : topEsn (advanceTop (initEsn w len) 1 1) = 1 := by
    rw [topEsn, hhi]
    rfl
  obtain ⟨hnum₀, hs₀⟩ := number_one hw (.inl htop₀)
  obtain ⟨hnum₁, hs₁⟩ := number_one hw₁ (.inr htop₁)
  have hcheck₀ : checkAuthEsn (initEsn w len) 1 = none := by
    refine checkAuthEsn_eq_none.mpr ⟨?_, hs₀⟩
    refine (xfrmReplayCheckEsn_eq_none hw).mpr ⟨hzero _, .inl ?_⟩
    exact (htop₀.trans_lt one_pos).trans_eq hnum₀.symm
  have hadvance : advanceEsn (initEsn w len) 1 = advanceTop (initEsn w len) 1 1 := by
    refine (xfrmReplayAdvanceEsn_eq hw).trans ((if_pos ?_).trans ?_)
    · exact (htop₀.trans_lt one_pos).trans_eq hnum₀.symm
    · have hdiff : 1 - (initEsn w len).seq = 1 :=
        (by decide : (1 : BitVec 32) - 0 = 1)
      rw [show setWidth 32 1 = 1 from rfl, hs₀, hdiff]
      rfl
  have hcheck₁ : checkAuthEsn (advanceTop (initEsn w len) 1 1) 1 = none := by
    refine checkAuthEsn_eq_none.mpr ⟨?_, hs₁⟩
    refine (xfrmReplayCheckEsn_eq_none hw₁).mpr ⟨hzero _, .inr ⟨?_, ?_⟩⟩
    · exact (hnum₁.trans htop₁.symm).le
    · have hdiff : 1 - setWidth 32 (1 : BitVec 64) = 0 := by decide
      rw [hseq]
      exact hbit
  have hstep₀ : receive checkAuthEsn advanceEsn (initEsn w len, []) 1 =
      (advanceTop (initEsn w len) 1 1, [1]) := by
    rw [receive, if_pos hcheck₀, hadvance]
  have hstep₁ : receive checkAuthEsn advanceEsn (advanceTop (initEsn w len) 1 1, [1]) 1 =
      (advanceEsn (advanceTop (initEsn w len) 1 1) 1, [1, 1]) := if_pos hcheck₁
  refine ⟨_, .cons ⟨hstep₀.symm, fun _ => noWrap_of_seqhi_eq hs₀⟩
    (.cons ⟨hstep₁.symm, fun _ => noWrap_of_seqhi_eq (hs₁.trans hhi.symm)⟩ (.nil _))⟩

/-- Replay detection works if and only if the window divides 2^32, in all runs in which the high
half does not go around. -/
theorem esn_replay_iff (w : BitVec 32) (len : ℕ) (hw : 0 < w.toNat) (hlen : w.toNat ≤ 32 * len) :
    (∀ ps r acc, Run EsnStep (initEsn w len, []) ps (r, acc) → DetectsEsn w r acc) ↔
      w.toNat ∣ 2 ^ 32 := by
  constructor
  · intro h
    by_contra hdvd
    obtain ⟨r, hrun⟩ := esn_twice hw hlen hdvd
    exact absurd (h _ _ _ hrun).once (by decide)
  · intro hdvd ps r acc hrun
    exact (Run.invariant (I := fun s => EsnInv w s.1 s.2) EsnInv.step hrun
      (EsnInv.init hdvd hlen)).detects

theorem esn_replay_iff_four : (4 : BitVec 32).toNat ∣ 2 ^ 32 ∧
    ∀ ps r acc, Run EsnStep (initEsn 4 1, []) ps (r, acc) → DetectsEsn 4 r acc :=
  ⟨by decide, (esn_replay_iff 4 1 (by decide) (by decide)).mpr (by decide)⟩

/-- With a window of three packets, number 1 is accepted twice. -/
theorem esn_accepts_twice :
    (receiveAll checkAuthEsn advanceEsn (initEsn 3 1) [1, 1]).2 = [1, 1] := by
  decide +kernel

end Packets

section Async

variable {w : BitVec 32} {len : ℕ} {s t : AsyncState} {p : Pending}

inductive AsyncAct where
  | receive (seq : BitVec 32)
  | resume (p : Pending)

inductive AsyncStep : AsyncState → AsyncAct → AsyncState → Prop where
  | receive (s : AsyncState) (seq : BitVec 32) : AsyncStep s (.receive seq) (asyncReceive s seq)
  | resume {s : AsyncState} {p : Pending} :
      p ∈ s.pending → AsyncStep s (.resume p) (asyncResume s p)

/-- The high half with which a packet was authenticated is still the one that is found. -/
def SameHalf (r : ReplayStateEsn) (p : Pending) : Prop :=
  xfrmReplaySeqhi r p.low = p.hi ∧ NoWrap r p.low

instance (r : ReplayStateEsn) (p : Pending) : Decidable (SameHalf r p) :=
  inferInstanceAs (Decidable (_ ∧ _))

/-- A step in which a packet only passes the second check with the number of the first. -/
def SafeStep (s : AsyncState) (a : AsyncAct) (t : AsyncState) : Prop :=
  AsyncStep s a t ∧ ∀ p, a = .resume p → xfrmReplayCheckEsn s.replayEsn p.low = none →
    SameHalf s.replayEsn p

def Pending.number (p : Pending) : BitVec 64 := p.hi ++ p.low

theorem Pending.number_toNat (p : Pending) :
    p.number.toNat = p.hi.toNat * 2 ^ 32 + p.low.toNat := by
  rw [Pending.number, toNat_append, ← Nat.shiftLeft_add_eq_or_of_lt p.low.isLt, Nat.shiftLeft_eq]

theorem SameHalf.number_eq (h : SameHalf s.replayEsn p) (hw : 0 < s.replayEsn.replayWindow.toNat) :
    (p.number.toNat : ℤ) = numberEsn s.replayEsn p.low := by
  rw [h.2.number_eq hw, h.1, p.number_toNat]
  rfl

/-- The bitmap follows the numbers with which `advance` was called. -/
def AsyncInv (w : BitVec 32) (s : AsyncState) : Prop :=
  EsnInv w s.replayEsn (s.advanced.map Pending.number)

theorem AsyncInv.step {a : AsyncAct} (h : AsyncInv w s) (hst : SafeStep s a t) : AsyncInv w t := by
  obtain ⟨hst, hsame⟩ := hst
  cases hst with
  | receive seq =>
    rw [asyncReceive]
    split_ifs
    · exact h
    · exact h
  | @resume p hp =>
    rw [asyncResume]
    split_ifs with hc
    · have hhalf := hsame p rfl hc
      exact EsnInv.advance h hc hhalf.2 (hhalf.number_eq (EsnInv.tracks h).pos)
    · exact h

/-- With asynchronous crypto, no number reaches `advance` twice as long as packets only pass the
second check with the number of the first. The step at which a number would get there a second
time is one at which the high half has changed. -/
theorem async_advance_once (w : BitVec 32) (len : ℕ) (hdvd : w.toNat ∣ 2 ^ 32)
    (hlen : w.toNat ≤ 32 * len) {acts : List AsyncAct}
    (hrun : Run SafeStep ⟨initEsn w len, [], []⟩ acts t) :
    t.advanced.Nodup ∧ ∀ p ∈ t.advanced, xfrmReplayCheckEsn t.replayEsn p.low = none →
      ¬ SameHalf t.replayEsn p := by
  have h : AsyncInv w t :=
    Run.invariant AsyncInv.step hrun (EsnInv.init hdvd hlen)
  refine ⟨Nodup.of_map _ (EsnInv.nodup h), fun p hp hc hhalf => ?_⟩
  exact h.not_mem hc (hhalf.number_eq (EsnInv.tracks h).pos) (mem_map_of_mem hp)

theorem async_advance_once_small :
    let s : AsyncState := ⟨initEsn 4 1, [], []⟩
    let t := asyncResume (asyncReceive s 1) ⟨1, 0⟩
    t.advanced = [⟨1, 0⟩] ∧ t.advanced.Nodup := by
  intro s t
  have hrun : Run SafeStep s [.receive 1, .resume ⟨1, 0⟩] t := by
    refine .cons ⟨.receive s 1, fun p hp => (by cases hp)⟩ (.cons ⟨.resume ?_, ?_⟩ (.nil _))
    · decide +kernel
    · rintro p hp -
      cases hp
      decide +kernel
  exact ⟨by decide +kernel, (async_advance_once 4 1 (by decide) (by decide) hrun).1⟩

/-- A window of one packet. Number 1 comes twice before its crypto is done, and number 2 comes
before the crypto of the second copy is done: that one is then taken for number 2^32 + 1. -/
theorem async_advances_twice :
    let s : AsyncState := ⟨initEsn 1 1, [], []⟩
    ∃ t, Run AsyncStep s [.receive 1, .receive 1, .resume ⟨1, 0⟩, .receive 2, .resume ⟨2, 0⟩,
      .resume ⟨1, 0⟩] t ∧ t.advanced = [⟨1, 0⟩, ⟨2, 0⟩, ⟨1, 0⟩] := by
  intro s
  refine ⟨_, .cons (.receive _ _) (.cons (.receive _ _) (.cons (.resume ?_) (.cons (.receive _ _)
    (.cons (.resume ?_) (.cons (.resume ?_) (.nil _)))))), ?_⟩
  · decide +kernel
  · decide +kernel
  · decide +kernel
  · decide +kernel

end Async

end LinuxKernel.Xfrm
