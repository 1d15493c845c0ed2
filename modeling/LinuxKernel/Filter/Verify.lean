import LinuxKernel.Filter.Model

/-! # The check of a filter is sound

The instructions fall into a few kinds, and the check and the machine agree on them. The pass over
loads and stores gives a set of cells for every instruction, which are written on every path to it.
-/

namespace LinuxKernel.Filter

open Function List

section Kinds

inductive Kind where
  | ret | load | store | ja | cond | other
deriving DecidableEq

def Code.kind : Code → Kind
  | .retK | .retA => .ret
  | .ldMem | .ldxMem => .load
  | .st | .stx => .store
  | .jmpJa => .ja
  | .jmpJeqK | .jmpJeqX | .jmpJgeK | .jmpJgeX | .jmpJgtK | .jmpJgtX | .jmpJsetX | .jmpJsetK => .cond
  | _ => .other

@[simp] theorem Code.ofNum_num (c : Code) : Code.ofNum c.num = some c := by
  cases c <;> rfl

end Kinds

section Rewriting

variable {flen pc : ℕ} {f g : SockFilter}

structure Checked (flen pc : ℕ) (f : SockFilter) (c : Code) : Prop where
  code : Code.ofNum f.code = some c
  load : c.kind = .load → f.k.toNat < 16
  store : c.kind = .store → f.k.toNat < 16
  ja : c.kind = .ja → pc + f.k.toNat + 1 < flen
  cond : c.kind = .cond → pc + f.jt + 1 < flen ∧ pc + f.jf + 1 < flen

theorem ancillary_kind {k : BitVec 32} {c d : Code} (hc : c.kind = .other)
    (hd : (ancillary.lookup k).getD c = d) : d.kind = .other := by
  subst hd
  cases h : ancillary.lookup k with
  | none => exact hc
  | some d =>
    have hall : ∀ p ∈ ancillary, p.2.kind = .other := by decide
    exact hall (k, d) (lookup_eq_some_iff.mp h |> fun ⟨l₁, l₂, hl, _⟩ => by simp [hl])

theorem Checked.of_plain {c : Code} (h : c.kind = .other ∨ c.kind = .ret)
    (hf : Code.ofNum f.code = some c) : Checked flen pc f c := by
  refine ⟨hf, ?_, ?_, ?_, ?_⟩ <;> rcases h with h | h <;> simp [h]

theorem checkInsn_checked (h : checkInsn flen pc f = .ok g) : ∃ c, Checked flen pc g c := by
  unfold checkInsn at h
  split at h
  · cases h
  rename_i code _
  cases code with
  | aluDivK =>
    simp only at h
    split at h <;> cases h
    exact ⟨_, .of_plain (.inl rfl) (Code.ofNum_num _)⟩
  | ldMem | ldxMem | st | stx =>
    simp only at h
    split at h <;> cases h
    refine ⟨_, Code.ofNum_num _, ?_, ?_, ?_, ?_⟩ <;> simp [Code.kind]
    omega
  | jmpJa =>
    simp only at h
    split at h <;> cases h
    refine ⟨_, Code.ofNum_num _, ?_, ?_, ?_, ?_⟩ <;> simp [Code.kind]
    omega
  | jmpJeqK | jmpJeqX | jmpJgeK | jmpJgeX | jmpJgtK | jmpJgtX | jmpJsetX | jmpJsetK =>
    simp only at h
    split at h <;> cases h
    refine ⟨_, Code.ofNum_num _, ?_, ?_, ?_, ?_⟩ <;> simp [Code.kind]
    omega
  | ldWAbs | ldHAbs | ldBAbs =>
    cases h
    exact ⟨_, .of_plain (.inl (ancillary_kind rfl rfl)) (Code.ofNum_num _)⟩
  | _ =>
    cases h
    exact ⟨_, .of_plain (by simp [Code.kind]) (Code.ofNum_num _)⟩

theorem checkInsns_checked {l l' : List SockFilter} (h : checkInsns flen pc l = .ok l') :
    l'.length = l.length ∧ ∀ i f, l'[i]? = some f → ∃ c, Checked flen (pc + i) f c := by
  induction l generalizing pc l' with
  | nil =>
    cases h
    simp
  | cons f l ih =>
    simp only [checkInsns, bind, Except.bind] at h
    cases hg : checkInsn flen pc f with
    | error e => simp [hg] at h
    | ok g =>
      cases hr : checkInsns flen (pc + 1) l with
      | error e => simp [hg, hr] at h
      | ok r =>
        simp only [hg, hr, pure, Except.pure, Except.ok.injEq] at h
        subst h
        obtain ⟨hlen, hr⟩ := ih hr
        refine ⟨by simp [hlen], fun i f hf => ?_⟩
        cases i with
        | zero =>
          cases hf
          exact checkInsn_checked hg
        | succ i =>
          have := hr i f hf
          rwa [add_assoc, add_comm 1 i] at this

end Rewriting

section Memory

def Within (a b : BitVec 16) : Prop := ∀ i, a.getLsbD i = true → b.getLsbD i = true

theorem Within.rfl {a : BitVec 16} : Within a a := fun _ h => h

theorem Within.trans {a b c : BitVec 16} (h : Within a b) (h' : Within b c) : Within a c :=
  fun i hi => h' i (h i hi)

theorem within_and_left (a b : BitVec 16) : Within (a &&& b) a := fun i h => by
  rw [BitVec.getLsbD_and, Bool.and_eq_true] at h
  exact h.1

theorem within_and_right (a b : BitVec 16) : Within (a &&& b) b := fun i h => by
  rw [BitVec.getLsbD_and, Bool.and_eq_true] at h
  exact h.2

theorem getLsbD_cell {k i : ℕ} (hk : k < 16) :
    ((1 : BitVec 16) <<< k).getLsbD i = true ↔ i = k := by
  rw [BitVec.getLsbD_shiftLeft]
  simp only [BitVec.ofNat_eq_ofNat, BitVec.getLsbD_one, Bool.and_eq_true, decide_eq_true_eq,
    Bool.not_eq_true', decide_eq_false_iff_not]
  omega

theorem getLsbD_of_and_cell {a : BitVec 16} {k : ℕ} (hk : k < 16)
    (h : a &&& (1 : BitVec 16) <<< k ≠ 0) :
    a.getLsbD k = true := by
  by_contra hbit
  refine h (BitVec.eq_of_getLsbD_eq fun i _ => ?_)
  simp only [BitVec.getLsbD_and, BitVec.ofNat_eq_ofNat, BitVec.getLsbD_zero, Bool.and_eq_false_iff]
  rcases eq_or_ne i k with rfl | hne
  · exact .inl (by simpa using hbit)
  · exact .inr (Bool.eq_false_iff.mpr fun hi => hne ((getLsbD_cell hk).mp hi))

/-- What the cells of an instruction and of those after it have to do with each other. -/
structure Flow (valid : ℕ → BitVec 16) (pc : ℕ) (f : SockFilter) (c : Code) : Prop where
  load : c.kind = .load → f.k.toNat < 16 → (valid pc).getLsbD f.k.toNat = true
  next : c.kind = .load ∨ c.kind = .other → Within (valid (pc + 1)) (valid pc)
  store : c.kind = .store → f.k.toNat < 16 → ∀ i, (valid (pc + 1)).getLsbD i = true →
    i = f.k.toNat ∨ (valid pc).getLsbD i = true
  ja : c.kind = .ja → Within (valid (pc + f.k.toNat + 1)) (valid pc)
  cond : c.kind = .cond → Within (valid (pc + f.jt + 1)) (valid pc) ∧
    Within (valid (pc + f.jf + 1)) (valid pc)

variable {pc : ℕ} {memvalid : BitVec 16} {masks : ℕ → BitVec 16} {f : SockFilter}
  {rest : List SockFilter} {c : Code}

/-- The mask of a target loses what is not valid at the jump. -/
def narrow (masks : ℕ → BitVec 16) (target : ℕ) (memvalid : BitVec 16) : ℕ → BitVec 16 :=
  update masks target (masks target &&& memvalid)

theorem narrow_within (masks : ℕ → BitVec 16) (target : ℕ) (memvalid : BitVec 16) (j : ℕ) :
    Within (narrow masks target memvalid j) (masks j) := by
  rcases eq_or_ne j target with rfl | h
  · rw [narrow, update_self]
    exact within_and_left _ _
  · rw [narrow, update_of_ne h]
    exact .rfl

theorem narrow_target (masks : ℕ → BitVec 16) (target : ℕ) (memvalid : BitVec 16) :
    Within (narrow masks target memvalid target) memvalid := by
  rw [narrow, update_self]
  exact within_and_right _ _

section

variable (hf : Code.ofNum f.code = some c)
include hf

theorem checkMem_store (hc : c.kind = .store) :
    checkMem pc memvalid masks (f :: rest) =
      checkMem (pc + 1) (memvalid &&& masks pc ||| (1 : BitVec 16) <<< f.k.toNat) masks rest := by
  cases c <;> simp [Code.kind] at hc <;> simp [checkMem, hf]

theorem checkMem_load (hc : c.kind = .load) :
    checkMem pc memvalid masks (f :: rest) =
      if memvalid &&& masks pc &&& (1 : BitVec 16) <<< f.k.toNat = 0 then .error .einval
      else checkMem (pc + 1) (memvalid &&& masks pc) masks rest := by
  cases c <;> simp [Code.kind] at hc <;> simp [checkMem, hf]

theorem checkMem_ja (hc : c.kind = .ja) :
    checkMem pc memvalid masks (f :: rest) =
      checkMem (pc + 1) (~~~0)
        (narrow masks (pc + 1 + f.k.toNat) (memvalid &&& masks pc)) rest := by
  cases c <;> simp [Code.kind] at hc
  simp [checkMem, hf, narrow]

theorem checkMem_cond (hc : c.kind = .cond) :
    checkMem pc memvalid masks (f :: rest) =
      checkMem (pc + 1) (~~~0) (narrow (narrow masks (pc + 1 + f.jt) (memvalid &&& masks pc))
        (pc + 1 + f.jf) (memvalid &&& masks pc)) rest := by
  cases c <;> simp [Code.kind] at hc <;> simp [checkMem, hf, narrow]

theorem checkMem_plain (hc : c.kind = .other ∨ c.kind = .ret) :
    checkMem pc memvalid masks (f :: rest) =
      checkMem (pc + 1) (memvalid &&& masks pc) masks rest := by
  cases c <;> simp [Code.kind] at hc <;> simp [checkMem, hf]

end

theorem Flow.congr {valid valid' : ℕ → BitVec 16} (h : Flow valid pc f c)
    (heq : ∀ j, pc ≤ j → valid j = valid' j) : Flow valid' pc f c := by
  obtain ⟨hl, hn, hs, hj, hc⟩ := h
  rw [heq pc (by omega)] at hl hn hs hj hc
  rw [heq (pc + 1) (by omega)] at hn hs
  rw [heq _ (by omega)] at hj
  rw [heq (pc + f.jt + 1) (by omega), heq (pc + f.jf + 1) (by omega)] at hc
  exact ⟨hl, hn, hs, hj, hc⟩

/-- The sets of cells that a part of the program was accepted with. -/
structure Valid (pc : ℕ) (memvalid : BitVec 16) (masks : ℕ → BitVec 16) (rest : List SockFilter)
    (valid : ℕ → BitVec 16) : Prop where
  here : valid pc = memvalid &&& masks pc
  within : ∀ j, pc ≤ j → Within (valid j) (masks j)
  flow : ∀ i f c, rest[i]? = some f → Code.ofNum f.code = some c → Flow valid (pc + i) f c

variable {valid : ℕ → BitVec 16} {memvalid' : BitVec 16} {masks' : ℕ → BitVec 16}

theorem Valid.cons (h : Valid (pc + 1) memvalid' masks' rest valid)
    (hm : ∀ j, Within (masks' j) (masks j)) (hf : Code.ofNum f.code = some c)
    (hflow : Flow (update valid pc (memvalid &&& masks pc)) pc f c) :
    Valid pc memvalid masks (f :: rest) (update valid pc (memvalid &&& masks pc)) where
  here := update_self ..
  within j hj := by
    rcases eq_or_ne j pc with rfl | hne
    · rw [update_self]
      exact within_and_right _ _
    · rw [update_of_ne hne]
      exact (h.within j (by omega)).trans (hm j)
  flow i g d hg hd := by
    cases i with
    | zero =>
      cases hg
      rw [hf] at hd
      cases hd
      exact hflow
    | succ i =>
      rw [show pc + (i + 1) = pc + 1 + i by omega]
      refine (h.flow i g d hg hd).congr fun j hj => ?_
      exact (update_of_ne (by omega) ..).symm

theorem checkMem_valid (hcode : ∀ f ∈ rest, ∃ c, Code.ofNum f.code = some c)
    (h : checkMem pc memvalid masks rest = .ok ()) :
    ∃ valid, Valid pc memvalid masks rest valid := by
  induction rest generalizing pc memvalid masks with
  | nil =>
    refine ⟨update masks pc (memvalid &&& masks pc), update_self .., fun j _ => ?_, by simp⟩
    rcases eq_or_ne j pc with rfl | hne
    · rw [update_self]
      exact within_and_right _ _
    · rw [update_of_ne hne]
      exact .rfl
  | cons f rest ih =>
    obtain ⟨c, hf⟩ := hcode f mem_cons_self
    replace ih := fun {pc memvalid masks} => @ih pc memvalid masks
      fun g hg => hcode g (mem_cons_of_mem _ hg)
    cases hk : c.kind with
    | store =>
      rw [checkMem_store hf hk] at h
      obtain ⟨valid, hv⟩ := ih h
      refine ⟨_, hv.cons (fun _ => .rfl) hf ?_⟩
      constructor <;> simp only [hk, reduceCtorEq, false_implies, or_self, forall_const]
      intro hlt i hi
      rw [update_of_ne (by omega), hv.here] at hi
      have hi := within_and_left _ _ i hi
      rw [BitVec.getLsbD_or, Bool.or_eq_true] at hi
      rw [update_self]
      rcases hi with hi | hi
      · exact .inr hi
      · exact .inl ((getLsbD_cell hlt).mp hi)
    | load =>
      rw [checkMem_load hf hk] at h
      split at h
      · cases h
      rename_i hbit
      obtain ⟨valid, hv⟩ := ih h
      refine ⟨_, hv.cons (fun _ => .rfl) hf ?_⟩
      constructor <;> simp only [hk, reduceCtorEq, false_implies, true_or, forall_const]
      · intro hlt
        rw [update_self]
        exact getLsbD_of_and_cell hlt hbit
      · rw [update_self, update_of_ne (by omega), hv.here]
        exact within_and_left _ _
    | ja =>
      rw [checkMem_ja hf hk] at h
      obtain ⟨valid, hv⟩ := ih h
      refine ⟨_, hv.cons (narrow_within _ _ _) hf ?_⟩
      constructor <;> simp only [hk, reduceCtorEq, false_implies, or_self, forall_const]
      rw [update_self, update_of_ne (by omega),
        show pc + f.k.toNat + 1 = pc + 1 + f.k.toNat by omega]
      exact (hv.within _ (by omega)).trans (narrow_target _ _ _)
    | cond =>
      rw [checkMem_cond hf hk] at h
      obtain ⟨valid, hv⟩ := ih h
      refine ⟨_, hv.cons (fun j => (narrow_within _ _ _ j).trans (narrow_within _ _ _ j)) hf ?_⟩
      constructor <;> simp only [hk, reduceCtorEq, false_implies, or_self, forall_const]
      rw [update_self, update_of_ne (by omega), update_of_ne (by omega),
        show pc + f.jt + 1 = pc + 1 + f.jt by omega, show pc + f.jf + 1 = pc + 1 + f.jf by omega]
      exact ⟨(hv.within _ (by omega)).trans ((narrow_within _ _ _ _).trans (narrow_target _ _ _)),
        (hv.within _ (by omega)).trans (narrow_target _ _ _)⟩
    | ret =>
      rw [checkMem_plain hf (.inr hk)] at h
      obtain ⟨valid, hv⟩ := ih h
      refine ⟨_, hv.cons (fun _ => .rfl) hf ?_⟩
      constructor <;> simp [hk]
    | other =>
      rw [checkMem_plain hf (.inl hk)] at h
      obtain ⟨valid, hv⟩ := ih h
      refine ⟨_, hv.cons (fun _ => .rfl) hf ?_⟩
      constructor <;> simp only [hk, reduceCtorEq, false_implies, or_true, forall_const]
      rw [update_self, update_of_ne (by omega), hv.here]
      exact within_and_left _ _

end Memory

end LinuxKernel.Filter
