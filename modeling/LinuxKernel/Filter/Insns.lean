import Mathlib.Tactic.Ring
import LinuxKernel.Filter.Model

/-! # Two instructions in detail

A division by a constant is a multiplication with its reciprocal, which is rounded up and cut to 32
bits. The search for a netlink attribute trusts lengths of the packet and of the attribute.
-/

namespace LinuxKernel.Filter

open Nat Option

section Division

/-- What a reciprocal that is too large by `e / k` does to the quotient. -/
theorem mul_reciprocal_div_iff {a k r e m : ℕ} (hk : 0 < k) (hm : 0 < m) (hr : r * k = m + e) :
    a * r / m = a / k ↔ a * e < (k - a % k) * m := by
  have hlt := mod_lt a hk
  have hsplit : a * r * k = a / k * m * k + (a % k * m + a * e) := by
    calc a * r * k = a * (r * k) := mul_assoc ..
      _ = (k * (a / k) + a % k) * m + a * e := by rw [hr, div_add_mod, mul_add]
      _ = _ := by ring
  have hle : a / k * m ≤ a * r := by
    refine le_of_mul_le_mul_right ?_ hk
    rw [hsplit]
    exact Nat.le_add_right ..
  have hsub : (k - a % k) * m + a % k * m = m * k := by
    rw [← add_mul, Nat.sub_add_cancel hlt.le, mul_comm]
  rw [Nat.div_eq_iff hm, ← lt_iff_le_pred (Nat.add_pos_right _ hm),
    ← Nat.mul_lt_mul_right hk, add_mul]
  omega

/-- The reciprocal is exact for these operands. That of 1 does not fit into 32 bits. -/
def DivExact (a k : ℕ) : Prop :=
  k = 1 ∧ a = 0 ∨ k ≠ 1 ∧ a * ((k - 2 ^ 32 % k) % k) < (k - a % k) * 2 ^ 32

theorem reciprocalDivide_eq_iff {a k : BitVec 32} (hk : k ≠ 0) :
    reciprocalDivide a (reciprocalValue k) = a / k ↔ DivExact a.toNat k.toNat := by
  have ha := a.isLt
  have hpos : 0 < k.toNat := pos_of_ne_zero fun h => hk (BitVec.eq_of_toNat_eq h)
  have hpred : (k - 1).toNat = k.toNat - 1 := BitVec.toNat_sub_of_le (BitVec.le_def.mpr hpos)
  rw [reciprocalDivide, reciprocalValue, hpred, ← BitVec.toNat_inj, BitVec.toNat_udiv,
    BitVec.toNat_ofNat, BitVec.toNat_ofNat, DivExact]
  generalize a.toNat = a at *
  generalize k.toNat = k at *
  rcases eq_or_ne k 1 with rfl | hne
  · simp [eq_comm]
  -- the reciprocal of any other number fits
  have hr : (2 ^ 32 + (k - 1)) / k * k = 2 ^ 32 + (k - 2 ^ 32 % k) % k := by
    have hlt := mod_lt (2 ^ 32) hpos
    have hq := div_add_mod (2 ^ 32) k
    generalize 2 ^ 32 / k = q, 2 ^ 32 % k = t at hlt hq ⊢
    rw [← hq, add_assoc, mul_add_div hpos, add_mul, mul_comm q]
    rcases Nat.eq_zero_or_pos t with rfl | ht
    · rw [div_eq_of_lt (by omega), Nat.sub_zero, mod_self]
      omega
    · rw [Nat.div_eq_of_lt_le (by omega) (by omega : t + (k - 1) < (1 + 1) * k),
          mod_eq_of_lt (by omega)]
      omega
  have hfit : (2 ^ 32 + (k - 1)) / k < 2 ^ 32 := by
    rw [div_lt_iff_lt_mul hpos]
    omega
  have hdiv : a * ((2 ^ 32 + (k - 1)) / k) / 2 ^ 32 < 2 ^ 32 :=
    Nat.div_lt_of_lt_mul (mul_lt_mul'' ha hfit)
  rw [mod_eq_of_lt hfit, mod_eq_of_lt hdiv, mul_reciprocal_div_iff hpos (by decide) hr]
  simp [hne]

def packet (len : BitVec 32) (head : ℕ → BitVec 8) : Skb :=
  ⟨head, 0, len.toNat, 0, 0, len, 0, fun _ => 0, 0, 0, none, 0, 0, 0, fun _ => 0⟩

/-- A division by a constant, as `sk_chk_filter` rewrites it, has the result of a division by `X`
with that constant if and only if the reciprocal is exact. -/
theorem div_k_iff_exact (skb : Skb) (s : Machine) (flen pc jt jf : ℕ) (k : BitVec 32) :
    (∃ f, checkInsn flen pc ⟨bpfAlu ||| bpfDiv ||| bpfK, jt, jf, k⟩ = .ok f ∧
      Code.ofNum f.code = some .aluDivK ∧ exec skb f s .aluDivK = s.setA (s.A / k)) ∧
      (∀ f s', s'.A = s.A → s'.X = k → exec skb f s' .aluDivX = s'.setA (s.A / k)) ↔
    DivExact s.A.toNat k.toNat := by
  have hlookup : codes.lookup (bpfAlu ||| bpfDiv ||| bpfK) = some .aluDivK := by decide
  by_cases hk : k = 0
  · subst hk
    simp [checkInsn, hlookup, DivExact]
  have hcheck : checkInsn flen pc ⟨bpfAlu ||| bpfDiv ||| bpfK, jt, jf, k⟩ =
      .ok ⟨Code.aluDivK.num, jt, jf, reciprocalValue k⟩ := by
    simp only [checkInsn, hlookup, if_neg hk]
  have hsetA {v w} : s.setA v = s.setA w ↔ v = w := by simp [Machine.setA]
  rw [← reciprocalDivide_eq_iff hk]
  constructor
  · rintro ⟨⟨f, hf, -, hexec⟩, -⟩
    rw [hcheck] at hf
    obtain rfl := Except.ok.inj hf
    exact hsetA.mp hexec
  · intro heq
    refine ⟨⟨_, hcheck, rfl, hsetA.mpr heq⟩, fun f s' hA hX => ?_⟩
    rw [exec, hX, if_neg hk, divide, if_neg hk, hA]

/-- The quotient of 4294967294 by 3 is one too large. -/
theorem div_k_by_three :
    (∃ f, checkInsn 1 0 ⟨bpfAlu ||| bpfDiv ||| bpfK, 0, 0, 3⟩ = .ok f ∧
      exec (packet 0 fun _ => 0) f ⟨0, 4294967294, 0, fun _ => 0, fun _ => false⟩ .aluDivK =
        Machine.setA ⟨0, 4294967294, 0, fun _ => 0, fun _ => false⟩ 1431655765) ∧
      (4294967294 : BitVec 32) / 3 = 1431655764 :=
  ⟨⟨_, rfl, rfl⟩, rfl⟩

end Division

section Netlink

variable {skb : Skb} {s : Machine} {f : SockFilter} {code : Code}

/-- The offsets that `nla_find` reads. The type is only read of an attribute that is long enough. -/
def nlaFindReads (skb : Skb) (pos : ℕ) (rem attrtype : ℤ) : List ℕ :=
  if h : 4 ≤ rem ∧ 4 ≤ nlaLen skb pos ∧ nlaLen skb pos ≤ rem then
    [pos, pos + 1, pos + 2, pos + 3] ++
      if nlaType skb pos = attrtype then []
      else
        let totlen := (nlaLen skb pos + 3) / 4 * 4
        nlaFindReads skb (pos + totlen) (rem - totlen) attrtype
  else if 4 ≤ rem then [pos, pos + 1] else []
termination_by rem.toNat
decreasing_by omega

/-- The first checks of both instructions. -/
def Refused (skb : Skb) (s : Machine) : Prop :=
  skb.dataLen ≠ 0 ∨ s.A.toNat > (skb.len.toNat + 2 ^ 64 - 4) % 2 ^ 64

instance (skb : Skb) (s : Machine) : Decidable (Refused skb s) :=
  inferInstanceAs (Decidable (_ ∨ _))

/-- Where the attributes are that an instruction searches, and how many bytes. -/
def stream (skb : Skb) (s : Machine) : Code → Option (ℕ × ℤ)
  | .ancNlattr => if Refused skb s then none else some (s.A.toNat, (skb.len - s.A).toInt)
  | .ancNlattrNest =>
    if Refused skb s ∨ nlaLen skb s.A.toNat > (s.A - skb.len).toNat then none
    else some (s.A.toNat + 4, nlaLen skb s.A.toNat - 4)
  | _ => none

/-- The offsets that an instruction reads. -/
def reads (skb : Skb) (s : Machine) (code : Code) : List ℕ :=
  (if code = .ancNlattrNest ∧ ¬Refused skb s then [s.A.toNat, s.A.toNat + 1] else []) ++
    (stream skb s code).elim [] fun st => nlaFindReads skb st.1 st.2 s.X.toInt

theorem exec_stream (skb : Skb) (f : SockFilter) (s : Machine)
    (hcode : code = .ancNlattr ∨ code = .ancNlattrNest) :
    exec skb f s code = (stream skb s code).elim (.ret 0) fun st =>
      s.setA (BitVec.ofNat 32 ((nlaFind skb st.1 st.2 s.X.toInt).getD 0)) := by
  rcases hcode with rfl | rfl <;> simp only [exec, stream, Refused] <;> split_ifs <;> grind

/-- What is read is in the packet, and so is the header of an attribute that is found. -/
structure Inside (skb : Skb) (s : Machine) (f : SockFilter) (code : Code) : Prop where
  reads_lt : ∀ i ∈ reads skb s code, i < skb.len.toNat
  found : ∀ st p, stream skb s code = some st → nlaFind skb st.1 st.2 s.X.toInt = some p →
    exec skb f s code = s.setA (BitVec.ofNat 32 p) ∧ p + 4 ≤ skb.len.toNat

/-- The walk stays in the whole words of the stream. -/
theorem nlaFind_inside (skb : Skb) (pos : ℕ) (rem attrtype : ℤ) :
    (∀ i ∈ nlaFindReads skb pos rem attrtype, 4 ≤ rem ∧ i < pos + rem / 4 * 4) ∧
      ∀ p, nlaFind skb pos rem attrtype = some p → 4 ≤ rem ∧ p + 4 ≤ pos + rem / 4 * 4 := by
  fun_induction nlaFindReads skb pos rem attrtype with
  | case1 pos rem h ih =>
    rw [nlaFind, dif_pos h]
    by_cases htype : nlaType skb pos = attrtype
    · simp only [htype]
      refine ⟨fun i hi => ?_, fun p hp => ?_⟩
      · simp at hi
        omega
      · obtain rfl := some.inj hp
        omega
    · simp only [htype]
      refine ⟨fun i hi => ?_, fun p hp => ?_⟩
      · rcases List.mem_append.mp hi with hi | hi
        · simp at hi
          omega
        · have := ih.1 i hi
          omega
      · have := ih.2 p hp
        omega
  | case2 pos rem h h4 =>
    rw [nlaFind, dif_neg h]
    refine ⟨fun i hi => ?_, nofun⟩
    simp at hi
    omega
  | case3 pos rem h _ =>
    rw [nlaFind, dif_neg h]
    exact ⟨nofun, nofun⟩

theorem head_mem_nlaFindReads {pos : ℕ} {rem attrtype : ℤ} (h4 : 4 ≤ rem) :
    pos ∈ nlaFindReads skb pos rem attrtype := by
  rw [nlaFindReads]
  split <;> simp

/-- A stream that ends in the packet is searched inside of it. -/
theorem inside_of_stream (hcode : code = .ancNlattr ∨ code = .ancNlattrNest)
    (hhead : code = .ancNlattrNest → ¬Refused skb s → s.A.toNat + 2 ≤ skb.len.toNat)
    (hst : ∀ st, stream skb s code = some st → 4 ≤ st.2 → st.1 + st.2 / 4 * 4 ≤ skb.len.toNat) :
    Inside skb s f code := by
  refine ⟨fun i hi => ?_, fun st p hst' hp => ?_⟩
  · rcases List.mem_append.mp hi with hi | hi
    · split at hi
      · have := hhead ‹_ ∧ _›.1 ‹_ ∧ _›.2
        simp at hi
        omega
      · cases hi
    · cases hs : stream skb s code with
      | none =>
        rw [hs] at hi
        cases hi
      | some st =>
        rw [hs] at hi
        obtain ⟨h4, hlt⟩ := (nlaFind_inside skb st.1 st.2 s.X.toInt).1 i hi
        have := hst st hs h4
        omega
  · obtain ⟨h4, hle⟩ := (nlaFind_inside skb st.1 st.2 s.X.toInt).2 p hp
    have := hst st hst' h4
    rw [exec_stream skb f s hcode, hst', elim_some, hp]
    exact ⟨rfl, by omega⟩

/-- A packet whose attribute at `a` has the length `n` and is made of empty attributes. -/
def nested (len a : BitVec 32) (n : BitVec 16) : Skb :=
  packet len fun i =>
    if i = a.toNat then n.setWidth 8
    else if i = a.toNat + 1 then (n >>> 8).setWidth 8
    else if i % 4 = a.toNat % 4 then 4 else 0

theorem nlaLen_nested (len a : BitVec 32) (n : BitVec 16) :
    nlaLen (nested len a n) a.toNat = n.toNat := by
  have happ : ((n >>> 8).setWidth 8 ++ n.setWidth 8 : BitVec 16) = n := by
    refine BitVec.eq_of_getLsbD_eq fun i hi => ?_
    rw [BitVec.getLsbD_append]
    by_cases h8 : i < 8
    · simp [h8]
    · simp [h8, show i - 8 < 8 by omega, show 8 + (i - 8) = i by omega]
  simp [nlaLen, nested, packet, happ]

theorem mem_nlaFindReads_nested (len a : BitVec 32) (n : BitVec 16) {pos m : ℕ}
    (hpos : a.toNat + 2 ≤ pos) (hmod : pos % 4 = a.toNat % 4) (hm : 4 ≤ m) :
    pos + m / 4 * 4 - 1 ∈ nlaFindReads (nested len a n) pos m 1 := by
  induction m using Nat.strong_induction_on generalizing pos with
  | _ m ih =>
    have hbyte {i} (hi : a.toNat + 2 ≤ i) :
        (nested len a n).head i = if i % 4 = a.toNat % 4 then 4 else 0 := by
      simp only [nested, packet]
      rw [if_neg (by omega), if_neg (by omega)]
    have hdata : (nested len a n).data = 0 := rfl
    have hlen : nlaLen (nested len a n) pos = 4 := by
      rw [nlaLen, hdata, zero_add, hbyte (by omega), hbyte (by omega), if_neg (by omega),
        if_pos hmod]
      rfl
    have htype : nlaType (nested len a n) pos = 0 := by
      rw [nlaType, hdata, hbyte (by omega), hbyte (by omega), if_neg (by omega),
        if_neg (by omega)]
      rfl
    rw [nlaFindReads, dif_pos (by omega), hlen, htype, List.mem_append]
    rcases lt_or_ge m 8 with h8 | h8
    · simp
      omega
    · right
      rw [show pos + m / 4 * 4 - 1 = pos + 4 + (m - 4) / 4 * 4 - 1 by omega]
      have hnext := @ih (m - 4) (by omega) (pos + 4) (by omega) (by omega) (by omega)
      rwa [cast_sub (by omega)] at hnext

section

variable (hlin : skb.dataLen = 0)
include hlin

theorem refused_iff : Refused skb s ↔ 4 ≤ skb.len.toNat ∧ skb.len.toNat < s.A.toNat + 4 := by
  rw [Refused, hlin]
  simp only [ne_eq, not_true_eq_false, false_or]
  omega

theorem inside_nlattr_iff : Inside skb s f .ancNlattr ↔
    4 ≤ skb.len.toNat ∨ (skb.len - s.A).toInt < 4 := by
  have hint := BitVec.toInt_eq_toNat_cond (skb.len - s.A)
  rw [BitVec.toNat_sub] at hint
  constructor
  · intro h
    by_contra hnot
    have hst : stream skb s .ancNlattr = some (s.A.toNat, (skb.len - s.A).toInt) :=
      if_neg (by rw [refused_iff hlin]; omega)
    have hlt := h.reads_lt s.A.toNat (by
      rw [reads, hst]
      exact List.mem_append_right _ (head_mem_nlaFindReads (by omega)))
    split at hint <;> omega
  · intro hcond
    refine inside_of_stream (.inl rfl) nofun fun st hst h4 => ?_
    rw [stream] at hst
    split_ifs at hst with hr
    rw [refused_iff hlin] at hr
    obtain rfl := some.inj hst
    split at hint <;> omega

end

/-- An attribute of length `n` at `a` is refused, has no attributes in it or is in the packet with
all of its whole words. -/
def NestFits (len a : BitVec 32) (n : BitVec 16) : Prop :=
  4 ≤ len.toNat ∧ len.toNat < a.toNat + 4 ∨ a.toNat + 2 ≤ len.toNat ∧
    ((a - len).toNat < n.toNat ∨ n.toNat < 8 ∨ a.toNat + n.toNat / 4 * 4 ≤ len.toNat)

theorem Inside.fits {len : BitVec 32} {n : BitVec 16}
    (h : Inside (nested len s.A n) s f .ancNlattrNest) (hX : s.X = 1) : NestFits len s.A n := by
  rw [NestFits]
  by_contra hnot
  have hr : ¬Refused (nested len s.A n) s := by
    rw [refused_iff rfl]
    exact fun hr => hnot (.inl hr)
  have hhead : s.A.toNat + 1 < len.toNat := h.reads_lt _ (by
    rw [reads, if_pos ⟨rfl, hr⟩]
    simp)
  have hst : stream (nested len s.A n) s .ancNlattrNest =
      some (s.A.toNat + 4, (n.toNat : ℤ) - 4) := by
    rw [stream, nlaLen_nested, if_neg]
    rintro (hr' | hr')
    · exact hr hr'
    · exact hnot (.inr ⟨hhead, .inl hr'⟩)
  have hlast := @mem_nlaFindReads_nested len s.A n (s.A.toNat + 4) (n.toNat - 4) (by omega)
    (by omega) (by omega)
  rw [cast_sub (by omega)] at hlast
  have hlt : _ < len.toNat := h.reads_lt _ (List.mem_append_right _ (by
    rw [hst, hX]
    exact hlast))
  omega

/-- The search for an attribute stays in the packet if and only if the packet has room for a header,
or `A` is not so large that the rest of the packet seems to be one. The search in an attribute of
length `n` does, for all packets of this length, if and only if it is refused or the whole words of
the attribute are in the packet. -/
theorem anc_nlattr_inside_iff (len a : BitVec 32) (n : BitVec 16) :
    (∀ skb s f, skb.dataLen = 0 → (Inside skb s f .ancNlattr ↔
      4 ≤ skb.len.toNat ∨ (skb.len - s.A).toInt < 4)) ∧
    ((∀ skb s f, skb.dataLen = 0 → skb.len = len → s.A = a → nlaLen skb a.toNat = n.toNat →
      Inside skb s f .ancNlattrNest) ↔ NestFits len a n) := by
  refine ⟨fun skb s f => inside_nlattr_iff, fun h => ?_, ?_⟩
  · exact Inside.fits (s := ⟨0, a, 1, fun _ => 0, fun _ => false⟩)
      (h _ _ ⟨0, 0, 0, 0⟩ rfl rfl rfl (nlaLen_nested len a n)) rfl
  · rintro hcond skb s f hlin rfl rfl hn
    rw [NestFits] at hcond
    have href := refused_iff (s := s) hlin
    refine inside_of_stream (.inr rfl) (fun _ hr => ?_) fun st hst h4 => ?_
    · rw [href] at hr
      omega
    rw [stream] at hst
    split_ifs at hst with hr
    rw [href] at hr
    obtain rfl := some.inj hst
    omega

/-- A packet of four bytes with the header of an attribute that has eight. -/
theorem anc_nlattr_nest_outside : (nested 4 0 8).dataLen = 0 ∧
    ¬Inside (nested 4 0 8) ⟨0, 0, 1, fun _ => 0, fun _ => false⟩ ⟨0, 0, 0, 0⟩ .ancNlattrNest :=
  ⟨rfl, fun h => absurd (h.fits (s := ⟨0, 0, 1, fun _ => 0, fun _ => false⟩) rfl)
    (by rw [NestFits]; decide)⟩

end Netlink

end LinuxKernel.Filter
