import LinuxKernel.Filter.Verify

/-! # Runs of a checked filter

A run reads only cells that it wrote before, so it does not see what the memory was at first. For a
program that was accepted each step goes forward to another instruction or returns.
-/

namespace LinuxKernel.Filter

open Function

section Frame

variable {skb : Skb} {f : SockFilter} {s : Machine} {mem : ℕ → BitVec 32}

/-- The memories are the same as far as the run can tell. -/
def Agree (s : Machine) (mem : ℕ → BitVec 32) : Prop := ∀ k, s.written k = true → s.mem k = mem k

inductive Same : Outcome → Outcome → Prop where
  | next {t : Machine} {mem : ℕ → BitVec 32} : Agree t mem →
      Same (.next t) (.next { t with mem := mem })
  | ret {v : BitVec 32} : Same (.ret v) (.ret v)
  | fault {e : Fault} : Same (.fault e) (.fault e)

section

variable (h : Agree s mem)
include h

theorem Agree.setA (v : BitVec 32) : Same (s.setA v) (Machine.setA { s with mem := mem } v) :=
  .next h

theorem Agree.setX (v : BitVec 32) : Same (s.setX v) (Machine.setX { s with mem := mem } v) :=
  .next h

theorem Agree.jump (off : ℕ) : Same (s.jump off) (Machine.jump { s with mem := mem } off) := .next h

theorem Agree.load (k : ℕ) {g g' : BitVec 32 → Outcome} (hg : ∀ v, Same (g v) (g' v)) :
    Same (s.load k g) (Machine.load { s with mem := mem } k g') := by
  unfold Machine.load
  split
  · exact .fault
  split
  · have heq : s.mem k = mem k := h k ‹_›
    simp only [← heq]
    exact hg _
  · exact .fault

theorem Agree.store (k : ℕ) (v : BitVec 32) :
    Same (s.store k v) (Machine.store { s with mem := mem } k v) := by
  unfold Machine.store
  split
  · exact .fault
  · refine .next fun j hj => ?_
    rcases eq_or_ne j k with rfl | hne
    · simp
    · simp only [update_of_ne hne] at hj ⊢
      exact h j hj

theorem Agree.loadA (k : BitVec 32) (size : ℕ) (get : (ℕ → BitVec 8) → BitVec 32) :
    Same (loadA s skb k size get) (Filter.loadA { s with mem := mem } skb k size get) := by
  unfold Filter.loadA
  split
  · exact h.setA _
  · exact .ret

theorem Agree.exec (c : Code) :
    Same (exec skb f s c) (Filter.exec skb f { s with mem := mem } c) := by
  cases c with
  | retK | retA => exact .ret
  | ldMem => exact h.load _ h.setA
  | ldxMem => exact h.load _ h.setX
  | st | stx => exact h.store _ _
  | ldWAbs | ldHAbs | ldBAbs | ldWInd | ldHInd | ldBInd => exact h.loadA _ _ _
  | jmpJa | jmpJeqK | jmpJeqX | jmpJgeK | jmpJgeX | jmpJgtK | jmpJgtX | jmpJsetX | jmpJsetK =>
    exact h.jump _
  | aluDivX =>
    simp only [Filter.exec, divide]
    split
    · exact .ret
    · exact h.setA _
  | ldxBMsh | ancIfindex | ancHatype =>
    simp only [Filter.exec]
    split
    · first | exact .ret | exact h.setX _
    · first | exact .ret | exact h.setA _
  | ancNlattr =>
    simp only [Filter.exec]
    split
    · exact .ret
    split
    · exact .ret
    · exact h.setA _
  | ancNlattrNest =>
    simp only [Filter.exec]
    split
    · exact .ret
    split
    · exact .ret
    split
    · exact .ret
    · exact h.setA _
  | ldxWLen | ldxImm | miscTax => exact h.setX _
  | _ => exact h.setA _

theorem Agree.step (filter : List SockFilter) (skb : Skb) :
    Same (step filter skb s) (Filter.step filter skb { s with mem := mem }) := by
  simp only [Filter.step]
  split
  · exact .fault
  split
  · exact .fault
  · exact h.exec _

/-- A run does not depend on the cells that were not written. -/
theorem Agree.run (filter : List SockFilter) (n : ℕ) :
    run filter skb n s = Filter.run filter skb n { s with mem := mem } := by
  induction n generalizing s mem with
  | zero => rfl
  | succ n ih =>
    have hstep := h.step filter skb
    simp only [Filter.run]
    generalize Filter.step filter skb s = o at hstep ⊢
    generalize Filter.step filter skb { s with mem := mem } = o' at hstep ⊢
    cases hstep with
    | next ht => exact ih ht
    | ret => rfl
    | fault => rfl

end

end Frame

section Safe

variable {skb : Skb} {f : SockFilter} {s : Machine} {c : Code} {valid : ℕ → BitVec 16}
  {filter : List SockFilter}

/-- The valid cells of the instruction are written. -/
def Covered (valid : ℕ → BitVec 16) (s : Machine) : Prop :=
  ∀ k, (valid s.pc).getLsbD k = true → s.written k = true

theorem Covered.mono {t : Machine} (h : Covered valid s) (hv : Within (valid t.pc) (valid s.pc))
    (hw : t.written = s.written) : Covered valid t := fun k hk => by
  rw [hw]
  exact h k (hv k hk)

theorem exec_ret (skb : Skb) (f : SockFilter) (s : Machine) (hc : c.kind = .ret) :
    ∃ v, exec skb f s c = .ret v := by
  cases c <;> simp [Code.kind] at hc <;> exact ⟨_, rfl⟩

theorem exec_load (skb : Skb) (f : SockFilter) (s : Machine) (hc : c.kind = .load) :
    exec skb f s c = s.load f.k.toNat s.setA ∨ exec skb f s c = s.load f.k.toNat s.setX := by
  cases c <;> simp [Code.kind] at hc
  · exact .inl rfl
  · exact .inr rfl

theorem exec_store (skb : Skb) (f : SockFilter) (s : Machine) (hc : c.kind = .store) :
    ∃ v, exec skb f s c = s.store f.k.toNat v := by
  cases c <;> simp [Code.kind] at hc <;> exact ⟨_, rfl⟩

theorem exec_ja (skb : Skb) (f : SockFilter) (s : Machine) (hc : c.kind = .ja) :
    exec skb f s c = s.jump f.k.toNat := by
  cases c <;> simp [Code.kind] at hc
  rfl

theorem exec_cond (skb : Skb) (f : SockFilter) (s : Machine) (hc : c.kind = .cond) :
    exec skb f s c = s.jump f.jt ∨ exec skb f s c = s.jump f.jf := by
  cases c <;> simp [Code.kind] at hc <;> simp only [exec] <;> split <;> simp

/-- The other instructions compute a register, or give up. -/
theorem exec_other (skb : Skb) (f : SockFilter) (s : Machine) (hc : c.kind = .other) :
    (∃ v, exec skb f s c = .ret v) ∨ (∃ v, exec skb f s c = s.setA v) ∨
      ∃ v, exec skb f s c = s.setX v := by
  cases c with
  | retK | retA | ldMem | ldxMem | st | stx | jmpJa | jmpJeqK | jmpJeqX | jmpJgeK | jmpJgeX
  | jmpJgtK | jmpJgtX | jmpJsetX | jmpJsetK => simp [Code.kind] at hc
  | ldWAbs | ldHAbs | ldBAbs | ldWInd | ldHInd | ldBInd =>
    simp only [exec, loadA]
    split
    · exact .inr (.inl ⟨_, rfl⟩)
    · exact .inl ⟨_, rfl⟩
  | aluDivX =>
    simp only [exec, divide]
    split
    · exact .inl ⟨_, rfl⟩
    · exact .inr (.inl ⟨_, rfl⟩)
  | ldxBMsh =>
    simp only [exec]
    split
    · exact .inr (.inr ⟨_, rfl⟩)
    · exact .inl ⟨_, rfl⟩
  | ancIfindex | ancHatype | ancNlattr | ancNlattrNest =>
    simp only [exec]
    repeat' split
    all_goals first | exact .inl ⟨_, rfl⟩ | exact .inr (.inl ⟨_, rfl⟩)
  | ldxWLen | ldxImm | miscTax => exact .inr (.inr ⟨_, rfl⟩)
  | _ => exact .inr (.inl ⟨_, rfl⟩)

/-- What the check found out about the program that it returns. -/
structure Accepted (filter : List SockFilter) (valid : ℕ → BitVec 16) : Prop where
  pos : 0 < filter.length
  checked : ∀ (i : ℕ) f, filter[i]? = some f → ∃ c, Checked filter.length i f c
  flow : ∀ (i : ℕ) f c, filter[i]? = some f → Code.ofNum f.code = some c → Flow valid i f c
  last : ∀ f c, filter[filter.length - 1]? = some f → Code.ofNum f.code = some c → c.kind = .ret
  first : valid 0 = 0

structure Safe (filter : List SockFilter) (valid : ℕ → BitVec 16) (s : Machine) : Prop where
  lt : s.pc < filter.length
  covered : Covered valid s

section

variable (ha : Accepted filter valid)
include ha

theorem Accepted.succ_lt (hf : filter[s.pc]? = some f) (hc : Code.ofNum f.code = some c)
    (hk : c.kind ≠ .ret) : s.pc + 1 < filter.length := by
  have hlt : s.pc < filter.length := (getElem?_eq_some_iff.mp hf).1
  by_contra hge
  rw [show s.pc = filter.length - 1 by omega] at hf
  exact hk (ha.last f c hf hc)

theorem Accepted.step_safe (skb : Skb) (h : Safe filter valid s) :
    (∃ v, step filter skb s = .ret v) ∨
      ∃ t, step filter skb s = .next t ∧ s.pc < t.pc ∧ Safe filter valid t := by
  obtain ⟨f, hf⟩ : ∃ f, filter[s.pc]? = some f := ⟨_, List.getElem?_eq_getElem h.lt⟩
  obtain ⟨c, hch⟩ := ha.checked _ _ hf
  have hflow := ha.flow _ _ _ hf hch.code
  have hsucc := ha.succ_lt hf hch.code
  simp only [step, hf, hch.code]
  cases hk : c.kind with
  | ret => exact .inl (exec_ret skb f s hk)
  | ja =>
    rw [exec_ja skb f s hk]
    exact .inr ⟨_, rfl, by simp only; omega, hch.ja hk, h.covered.mono (hflow.ja hk) rfl⟩
  | cond =>
    right
    rcases exec_cond skb f s hk with he | he <;> rw [he]
    · exact ⟨_, rfl, by simp only; omega, (hch.cond hk).1, h.covered.mono (hflow.cond hk).1 rfl⟩
    · exact ⟨_, rfl, by simp only; omega, (hch.cond hk).2, h.covered.mono (hflow.cond hk).2 rfl⟩
  | load =>
    right
    have hnext : Within (valid (s.pc + 1)) (valid s.pc) := hflow.next (.inl hk)
    have hlt := hch.load hk
    have hw := h.covered _ (hflow.load hk hlt)
    have hload : ∀ g, s.load f.k.toNat g = g (s.mem f.k.toNat) := fun g => by
      rw [Machine.load, if_neg (by omega), if_pos hw]
    rcases exec_load skb f s hk with he | he <;> rw [he, hload]
    · exact ⟨_, rfl, by simp only; omega, hsucc (by simp [hk]), h.covered.mono hnext rfl⟩
    · exact ⟨_, rfl, by simp only; omega, hsucc (by simp [hk]), h.covered.mono hnext rfl⟩
  | store =>
    right
    obtain ⟨v, he⟩ := exec_store skb f s hk
    have hlt := hch.store hk
    rw [he, Machine.store, if_neg (by omega)]
    refine ⟨_, rfl, by simp only; omega, hsucc (by simp [hk]), fun k hv => ?_⟩
    rcases eq_or_ne k f.k.toNat with rfl | hne
    · simp
    · have hold := ((hflow.store hk hlt) k hv).resolve_left hne
      simpa [update_of_ne hne] using h.covered k hold
  | other =>
    have hnext : Within (valid (s.pc + 1)) (valid s.pc) := hflow.next (.inr hk)
    rcases exec_other skb f s hk with ⟨v, he⟩ | ⟨v, he⟩ | ⟨v, he⟩ <;> rw [he]
    · exact .inl ⟨v, rfl⟩
    · exact .inr ⟨_, rfl, by simp only; omega, hsucc (by simp [hk]), h.covered.mono hnext rfl⟩
    · exact .inr ⟨_, rfl, by simp only; omega, hsucc (by simp [hk]), h.covered.mono hnext rfl⟩

/-- The instructions that are left are enough. -/
theorem Accepted.run_safe (skb : Skb) {n : ℕ} (h : Safe filter valid s)
    (hn : filter.length ≤ s.pc + n) : ∃ v, run filter skb n s = some (.ok v) := by
  induction n generalizing s with
  | zero =>
    have := h.lt
    omega
  | succ n ih =>
    rcases ha.step_safe skb h with ⟨v, hv⟩ | ⟨t, ht, hlt, hsafe⟩
    · exact ⟨v, by simp [run, hv]⟩
    · simp only [run, ht]
      exact ih hsafe (by omega)

end

theorem skChkFilter_accepted {alloc : Bool} {filter' : List SockFilter}
    (h : skChkFilter alloc filter = .ok filter') :
    filter'.length = filter.length ∧ ∃ valid, Accepted filter' valid := by
  unfold skChkFilter at h
  split at h
  · cases h
  simp only [bind, Except.bind] at h
  cases hi : checkInsns filter.length 0 filter with
  | error e => simp [hi] at h
  | ok l =>
    obtain ⟨hl, hch⟩ := checkInsns_checked hi
    simp only [zero_add] at hch
    have hcode : ∀ f ∈ l, ∃ c, Code.ofNum f.code = some c := fun f hf => by
      obtain ⟨i, hi⟩ := List.mem_iff_getElem?.mp hf
      obtain ⟨c, hc⟩ := hch i f hi
      exact ⟨c, hc.code⟩
    -- both codes that may be the last return
    have hret : l.getLast?.bind (fun f => Code.ofNum f.code) = some .retK ∨
        l.getLast?.bind (fun f => Code.ofNum f.code) = some .retA := by
      simp only [hi] at h
      split at h
      · exact .inl ‹_›
      · exact .inr ‹_›
      · cases h
    have hmem : checkLoadAndStores alloc l = .ok () ∧ l = filter' := by
      cases hm : checkLoadAndStores alloc l with
      | error e => rcases hret with hret | hret <;> simp [hi, hret, hm] at h
      | ok u => rcases hret with hret | hret <;> simpa [hi, hret, hm, pure, Except.pure] using h
    obtain ⟨hmem, rfl⟩ := hmem
    rw [checkLoadAndStores] at hmem
    split at hmem
    · obtain ⟨valid, hv⟩ := checkMem_valid hcode hmem
      refine ⟨hl, valid, by omega, ?_, ?_, ?_, ?_⟩
      · rw [hl]
        exact hch
      · intro i f c hf hc
        simpa using hv.flow i f c hf hc
      · intro f c hf hc
        rw [List.getLast?_eq_getElem?, hf, Option.bind_some, hc] at hret
        rcases hret with hret | hret <;> cases hret <;> rfl
      · exact hv.here
    · cases hmem

end Safe

/-- A program that is accepted returns within as many instructions as it has, without any fault, and
what it returns depends on the packet alone. -/
theorem accepted_filter_returns (alloc : Bool) (filter filter' : List SockFilter)
    (h : skChkFilter alloc filter = .ok filter') (skb : Skb) :
    ∃ v, ∀ mem, skRunFilter filter.length filter' skb mem = some (.ok v) := by
  obtain ⟨hlen, valid, ha⟩ := skChkFilter_accepted h
  have hstart : ∀ mem, Safe filter' valid (start mem) := fun mem =>
    ⟨ha.pos, fun k hk => by simp [start, ha.first] at hk⟩
  obtain ⟨v, hv⟩ := ha.run_safe skb (hstart fun _ => 0) (n := filter.length) (by simp [hlen])
  refine ⟨v, fun mem => ?_⟩
  have hagree : Agree (start fun _ => 0) mem := fun k hk => by simp [start] at hk
  rw [← hv]
  exact (hagree.run filter' filter.length).symm

def oneThird : List SockFilter :=
  [⟨bpfLd ||| bpfH ||| bpfAbs, 0, 0, 12⟩, ⟨bpfJmp ||| bpfJeq ||| bpfK, 0, 4, 0x800⟩,
    ⟨bpfSt, 0, 0, 1⟩, ⟨bpfLdx ||| bpfMem, 0, 0, 1⟩, ⟨bpfAlu ||| bpfDiv ||| bpfK, 0, 0, 3⟩,
    ⟨bpfRet ||| bpfA, 0, 0, 0⟩, ⟨bpfRet ||| bpfK, 0, 0, 0⟩]

theorem accepted_filter_returns_oneThird :
    ∃ filter', skChkFilter true oneThird = .ok filter' ∧
      ∀ skb, ∃ v, ∀ mem, skRunFilter 7 filter' skb mem = some (.ok v) :=
  ⟨_, rfl, accepted_filter_returns true oneThird _ rfl⟩

end LinuxKernel.Filter
