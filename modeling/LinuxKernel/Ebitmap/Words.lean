import Mathlib.Data.List.Induction
import Mathlib.Data.Nat.Bitwise
import LinuxKernel.Ebitmap.Compare
import LinuxKernel.Ebitmap.File

/-! # The words of a written bitmap

The bits of a set fall into the words of 64 bits that `ebitmap_write` puts into the file.
-/

namespace LinuxKernel.Selinux

open LittleEndian List Nat

section Words

variable {ws : List (ℕ × ℕ)} {bits : List ℕ} {x : ℕ × ℕ} {b bit s m : ℕ}

/-- A word of the file, given by its first bit and its map, has the bit. -/
def WordHas (x : ℕ × ℕ) (b : ℕ) : Prop := x.1 ≤ b ∧ b < x.1 + 64 ∧ x.2.testBit (b - x.1)

/-- The words of the file for a set of bits. -/
structure Groups (ws : List (ℕ × ℕ)) (bits : List ℕ) : Prop where
  sorted : ws.Pairwise fun x y => x.1 + 64 ≤ y.1
  aligned : ∀ x ∈ ws, x.1 % 64 = 0
  map : ∀ x ∈ ws, x.2 ≠ 0 ∧ x.2 < 2 ^ 64
  mem : ∀ b, b ∈ bits ↔ ∃ x ∈ ws, WordHas x b

theorem exists_wordHas (h : x.2 ≠ 0) (h' : x.2 < 2 ^ 64) : ∃ b, WordHas x b := by
  obtain ⟨i, hi⟩ := exists_testBit_of_ne_zero h
  have hlt : i < 64 := by
    by_contra hge
    have hfalse := testBit_lt_two_pow
      (h'.trans_le (Nat.pow_le_pow_right (by decide) (not_lt.mp hge)))
    rw [hi] at hfalse
    exact absurd hfalse (by decide)
  exact ⟨x.1 + i, by omega, by omega, by rwa [Nat.add_sub_cancel_left]⟩

theorem rounddown_spec (bit : ℕ) : rounddown bit ≤ bit ∧ bit < rounddown bit + 64 ∧
    rounddown bit % 64 = 0 ∧ roundup (bit + 1) = rounddown bit + 64 := by
  rw [rounddown, roundup]
  omega

theorem wordHas_one : WordHas (rounddown bit, 1 <<< (bit - rounddown bit)) b ↔ b = bit := by
  obtain ⟨hle, hlt, -⟩ := rounddown_spec bit
  rw [WordHas, one_shiftLeft, testBit_two_pow]
  simp only [decide_eq_true_eq]
  omega

theorem wordHas_or (h : s ≤ bit) (h' : bit < s + 64) :
    WordHas (s, m ||| 1 <<< (bit - s)) b ↔ WordHas (s, m) b ∨ b = bit := by
  simp only [WordHas, testBit_or, one_shiftLeft, testBit_two_pow, Bool.or_eq_true,
    decide_eq_true_eq]
  constructor
  · rintro ⟨h1, h2, h3 | h3⟩
    · exact .inl ⟨h1, h2, h3⟩
    · exact .inr (by omega)
  · rintro (⟨h1, h2, h3⟩ | rfl)
    · exact ⟨h1, h2, .inl h3⟩
    · exact ⟨h, h', .inr rfl⟩

theorem one_shiftLeft_spec (bit : ℕ) : 1 <<< (bit - rounddown bit) ≠ 0 ∧
    1 <<< (bit - rounddown bit) < 2 ^ 64 := by
  obtain ⟨hle, hlt, -⟩ := rounddown_spec bit
  rw [one_shiftLeft]
  exact ⟨ne_of_gt (Nat.two_pow_pos _), Nat.pow_lt_pow_right (by decide) (by omega)⟩

theorem Groups.new (h : Groups ws bits) (hlast : ∀ x ∈ ws, x.1 + 64 ≤ rounddown bit) :
    Groups (ws ++ [(rounddown bit, 1 <<< (bit - rounddown bit))]) (bits ++ [bit]) := by
  obtain ⟨-, -, halign, -⟩ := rounddown_spec bit
  refine ⟨?_, ?_, ?_, fun b => ?_⟩
  · rw [pairwise_append]
    exact ⟨h.sorted, pairwise_singleton _ _, fun x hx y hy => by
      rw [mem_singleton.mp hy]
      exact hlast x hx⟩
  · rw [forall_mem_append, forall_mem_singleton]
    exact ⟨h.aligned, halign⟩
  · rw [forall_mem_append, forall_mem_singleton]
    exact ⟨h.map, one_shiftLeft_spec bit⟩
  · rw [List.mem_append, mem_singleton, h.mem, ← wordHas_one]
    simp only [List.mem_append, mem_singleton, or_and_right, exists_or, exists_eq_left]

/-- The next bit is in the last word. -/
theorem Groups.extend (h : Groups (ws ++ [(s, m)]) bits) (hle : s ≤ bit) (hlt : bit < s + 64) :
    Groups (ws ++ [(s, m ||| 1 <<< (bit - s))]) (bits ++ [bit]) := by
  have hmap := h.map (s, m) (by simp)
  refine ⟨?_, ?_, ?_, fun b => ?_⟩
  · have hsorted := h.sorted
    simp only [pairwise_append, pairwise_singleton, mem_singleton, forall_eq] at hsorted ⊢
    exact hsorted
  · have haligned := h.aligned
    rw [forall_mem_append, forall_mem_singleton] at haligned ⊢
    exact haligned
  · have hmaps := h.map
    rw [forall_mem_append, forall_mem_singleton] at hmaps ⊢
    refine ⟨hmaps.1, ?_, ?_⟩
    · exact fun hzero => hmap.1 (or_eq_zero_iff.mp hzero).1
    · rw [one_shiftLeft]
      exact or_lt_two_pow hmap.2 (Nat.pow_lt_pow_right (by decide) (by omega))
  · rw [List.mem_append, h.mem]
    simp only [List.mem_append, mem_singleton, or_and_right, exists_or, exists_eq_left,
      wordHas_or hle hlt, or_assoc]

end Words

section Write

variable {ws : List (ℕ × ℕ)} {bits : List ℕ}

def putWords (ws : List (ℕ × ℕ)) : List UInt8 := ws.flatMap fun x => putWord x.1 x.2

inductive Loops (bits : List ℕ) (file : List UInt8) : Count → Output → Prop
  | start : bits = [] → Loops bits file ⟨0, 0, -1⟩ ⟨file, 0, -2 ^ 31⟩
  | words {ws : List (ℕ × ℕ)} {s m : ℕ} : Groups (ws ++ [(s, m)]) bits →
      Loops bits file ⟨ws.length + 1, s + 64, s⟩ ⟨file ++ putWords ws, m, s⟩

theorem Loops.step {file : List UInt8} {c : Count} {o : Output} (h : Loops bits file c o) {bit : ℕ}
    (hbit : ∀ b ∈ bits, b < bit) : Loops (bits ++ [bit]) file (countBit c bit) (putBit o bit) := by
  obtain ⟨hle, hlt, halign, hup⟩ := rounddown_spec bit
  cases h with
  | start hnil =>
    subst hnil
    have hnew : Groups ([] ++ [(rounddown bit, 1 <<< (bit - rounddown bit))]) ([] ++ [bit]) :=
      Groups.new ⟨.nil, nofun, nofun, by simp⟩ nofun
    have hcount : countBit ⟨0, 0, -1⟩ bit =
        ⟨([] : List (ℕ × ℕ)).length + 1, rounddown bit + 64, rounddown bit⟩ := by
      rw [countBit, hup]
      rfl
    have hput : putBit ⟨file, 0, -2 ^ 31⟩ bit =
        ⟨file ++ putWords [], 1 <<< (bit - rounddown bit), rounddown bit⟩ := by
      rw [putBit, if_pos (by dsimp only; omega)]
      simp [putWords]
    rw [hcount, hput]
    exact .words hnew
  | @words ws s m hg =>
    have hs := hg.aligned (s, m) (by simp)
    have hmap := hg.map (s, m) (by simp)
    have hsle : s ≤ rounddown bit := by
      obtain ⟨b, hb⟩ := exists_wordHas hmap.1 hmap.2
      have := hbit b ((hg.mem b).mpr ⟨(s, m), by simp, hb⟩)
      have := hb.1
      omega
    by_cases heq : rounddown bit = s
    · have hcount : countBit ⟨ws.length + 1, s + 64, s⟩ bit = ⟨ws.length + 1, s + 64, s⟩ := by
        rw [countBit, if_neg (by dsimp only; omega), hup, heq]
      have hput : putBit ⟨file ++ putWords ws, m, s⟩ bit =
          ⟨file ++ putWords ws, m ||| 1 <<< (bit - s), s⟩ := by
        rw [putBit, if_neg (by dsimp only; omega)]
        simp
      rw [hcount, hput]
      exact .words (hg.extend (by omega) (by omega))
    · have hcount : countBit ⟨ws.length + 1, s + 64, s⟩ bit =
          ⟨(ws ++ [(s, m)]).length + 1, rounddown bit + 64, rounddown bit⟩ := by
        rw [countBit, if_pos (by dsimp only; omega), hup, length_append]
        rfl
      have hput : putBit ⟨file ++ putWords ws, m, s⟩ bit =
          ⟨file ++ putWords (ws ++ [(s, m)]), 1 <<< (bit - rounddown bit), rounddown bit⟩ := by
        rw [putBit, if_pos (by dsimp only; omega), if_neg hmap.1]
        simp [putWords]
      rw [hcount, hput]
      refine .words (hg.new fun x hx => ?_)
      have hxs : x.1 ≤ s := by
        rcases List.mem_append.mp hx with hx | hx
        · have := (pairwise_append.mp hg.sorted).2.2 x hx (s, m) (by simp)
          omega
        · rw [mem_singleton.mp hx]
      omega

theorem loops_foldl (file : List UInt8) (hbits : bits.Pairwise (· < ·)) :
    Loops bits file (bits.foldl countBit ⟨0, 0, -1⟩) (bits.foldl putBit ⟨file, 0, -2 ^ 31⟩) := by
  induction bits using reverseRecOn with
  | nil => exact .start rfl
  | append_singleton bits bit ih =>
    rw [pairwise_append] at hbits
    rw [foldl_append, foldl_append]
    exact (ih hbits.1).step fun b hb => hbits.2.2 b hb bit (by simp)

def header (lastBit count : ℕ) : List UInt8 := leBytes 4 64 ++ leBytes 4 lastBit ++ leBytes 4 count

def endOfWords (ws : List (ℕ × ℕ)) : ℕ := ws.getLast?.elim 0 fun x => x.1 + 64

theorem ebitmapWrite_spec {a : Arch} {e : Ebitmap a} (h : Canonical e) : ∃ ws,
    Groups ws (allBits e.nodes) ∧ Fuel.Ends (ebitmapWrite e)
      (header (endOfWords ws) ws.length ++ putWords ws) := by
  obtain ⟨fuel₀, hends⟩ := ebitmapForEachPositiveBit_ends h
  obtain ⟨c, hc⟩ : ∃ c, (allBits e.nodes).foldl countBit ⟨0, 0, -1⟩ = c := ⟨_, rfl⟩
  obtain ⟨o, ho⟩ : ∃ o, (allBits e.nodes).foldl putBit ⟨header c.lastBit c.count, 0, -2 ^ 31⟩ = o :=
    ⟨_, rfl⟩
  have hfile : ∀ fuel ≥ fuel₀, ebitmapWrite e fuel =
      some (if o.map ≠ 0 then o.file ++ putWord o.lastStartbit o.map else o.file) :=
    fun fuel hfuel => by
    rw [ebitmapWrite, hends fuel hfuel]
    simp only [Option.bind_eq_bind, Option.bind_some, hc]
    rw [← ho]
    rfl
  have hloops := loops_foldl (header c.lastBit c.count) h.chain.pairwise_allBits
  rw [hc, ho] at hloops
  cases hloops with
  | start hnil =>
    refine ⟨[], ⟨.nil, nofun, nofun, by simp [hnil]⟩, fuel₀, fun fuel hfuel => ?_⟩
    rw [hfile fuel hfuel]
    simp [putWords, endOfWords]
  | @words ws s m hg =>
    refine ⟨ws ++ [(s, m)], hg, fuel₀, fun fuel hfuel => ?_⟩
    have hmap := hg.map (s, m) (by simp)
    rw [hfile fuel hfuel, if_pos hmap.1]
    simp [putWords, endOfWords]

/-- The words are apart, so their number is bounded by their end. -/
theorem length_le_endOfWords (hsorted : ws.Pairwise fun x y => x.1 + 64 ≤ y.1) :
    ws.length * 64 ≤ endOfWords ws := by
  induction ws using reverseRecOn with
  | nil => exact zero_le _
  | append_singleton ws x ih =>
    rw [pairwise_append] at hsorted
    have hle := ih hsorted.1
    have hend : endOfWords (ws ++ [x]) = x.1 + 64 := by simp [endOfWords]
    have hlast : endOfWords ws ≤ x.1 := by
      cases hlast : ws.getLast? with
      | none => simp [endOfWords, hlast]
      | some y =>
        rw [endOfWords, hlast]
        exact hsorted.2.2 y (mem_of_getLast? hlast) x (by simp)
    rw [length_append, length_singleton]
    omega

theorem Groups.end_le {bits : List ℕ} (h : Groups ws bits) (hbits : ∀ b ∈ bits, b < 2 ^ 31) :
    ∀ x ∈ ws, x.1 + 64 ≤ 2 ^ 31 := by
  intro x hx
  obtain ⟨b, hb⟩ := exists_wordHas (h.map x hx).1 (h.map x hx).2
  have hlt := hbits b ((h.mem b).mpr ⟨x, hx, hb⟩)
  have hle := hb.1
  have halign := h.aligned x hx
  omega

theorem le_endOfWords (hsorted : ws.Pairwise fun x y => x.1 + 64 ≤ y.1) :
    ∀ x ∈ ws, x.1 + 64 ≤ endOfWords ws := by
  intro x hx
  cases hlast : ws.getLast? with
  | none => exact absurd hx (by rw [getLast?_eq_none_iff.mp hlast]; exact not_mem_nil)
  | some y =>
    obtain ⟨ws', rfl⟩ := getLast?_eq_some_iff.mp hlast
    rw [endOfWords, hlast]
    rcases List.mem_append.mp hx with hx | hx
    · have := (pairwise_append.mp hsorted).2.2 x hx y (by simp)
      change x.1 + 64 ≤ y.1 + 64
      omega
    · rw [mem_singleton.mp hx]
      exact le_refl _

end Write

end LinuxKernel.Selinux
