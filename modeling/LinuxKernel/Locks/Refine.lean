import Mathlib.Data.List.TakeWhile
import LinuxKernel.Locks.Edit

/-! # The lock list as a map from bytes to lock types

A well-formed list says for each owner and each byte which lock the owner holds there. A call of
`__posix_lock_file` that succeeds keeps the list well-formed and changes this map exactly as
requested. One that fails leaves the list alone.
-/

namespace LinuxKernel.Locks

open List Function

variable {ω : Type*} {a b r : FileLock ω} {l pre g g' tail : List (FileLock ω)} {x : ℤ}
  {t : LockType}

/-- The lists of inodes: the POSIX locks come last, those of one owner next to each other and
in order. -/
structure WellFormed (l : List (FileLock ω)) : Prop where
  ids : (l.map (·.id)).Nodup
  posix_last : l.Pairwise fun a b => a.flPosix = true → b.flPosix = true
  contiguous : ∀ {a b c}, [a, b, c].Sublist l → a.flPosix = true → a.flOwner = c.flOwner →
    b.flOwner = a.flOwner
  sorted : l.Pairwise fun a b =>
    a.flPosix = true → b.flPosix = true → a.flOwner = b.flOwner → Before a b
  range : ∀ {a}, a ∈ l → a.flPosix = true →
    0 ≤ a.flStart ∧ a.flStart ≤ a.flEnd ∧ a.flEnd ≤ offsetMax
  type : ∀ {a}, a ∈ l → a.flPosix = true → a.flType ≠ .unlck

/-- Is it a lock of an owner that counts as a POSIX lock? -/
def Mine (o : ω) (a : FileLock ω) : Prop := a.flPosix = true ∧ a.flOwner = o

structure Split (o : ω) (pre g tail : List (FileLock ω)) : Prop where
  group : Group o g
  before : ∀ a ∈ pre, ¬ Mine o a
  behind : ∀ a ∈ tail, a.flPosix = true ∧ a.flOwner ≠ o
  empty : g = [] → tail = []

section Sublist

variable {u l₁ l₂ : List (FileLock ω)}

theorem cons_sublist_append (h : (a :: u).Sublist (l₁ ++ l₂)) : a ∈ l₁ ∨ (a :: u).Sublist l₂ := by
  obtain ⟨v, w, heq, hv, hw⟩ := sublist_append_iff.mp h
  rcases v with _ | ⟨y, v⟩
  · exact .inr (heq ▸ hw)
  · rw [(cons.inj heq).1]
    exact .inl (hv.subset mem_cons_self)

theorem concat_sublist_append (h : (u ++ [a]).Sublist (l₁ ++ l₂)) :
    (u ++ [a]).Sublist l₁ ∨ a ∈ l₂ := by
  obtain ⟨v, w, heq, hv, hw⟩ := sublist_append_iff.mp h
  rcases eq_nil_or_concat w with rfl | ⟨w, y, rfl⟩
  · rw [append_nil] at heq
    exact .inl (heq ▸ hv)
  · rw [concat_eq_append] at heq
    rw [← append_assoc] at heq
    obtain ⟨-, hlast⟩ := append_inj' heq rfl
    rw [(cons.inj hlast).1]
    exact .inr (hw.subset (by simp))

end Sublist

theorem pairwise_swap {R : FileLock ω → FileLock ω → Prop} (h : (pre ++ (g ++ tail)).Pairwise R)
    (hg : g'.Pairwise R) (hpre : ∀ a ∈ pre, ∀ b ∈ g', R a b) (htail : ∀ a ∈ g', ∀ b ∈ tail, R a b) :
    (pre ++ (g' ++ tail)).Pairwise R := by
  obtain ⟨hp, hrest, hcross⟩ := pairwise_append.mp h
  refine pairwise_append.mpr
    ⟨hp, pairwise_append.mpr ⟨hg, (pairwise_append.mp hrest).2.1, htail⟩, ?_⟩
  exact fun a ha => forall_mem_append.mpr
    ⟨hpre a ha, fun b hb => hcross a ha b (mem_append_right _ hb)⟩

namespace Split

variable {o : ω} (h : Split o pre g tail) (h' : Group o g')
include h h'

theorem contiguous {c : FileLock ω}
    (hl : ∀ {a b c}, [a, b, c].Sublist (pre ++ (g ++ tail)) → a.flPosix = true →
      a.flOwner = c.flOwner → b.flOwner = a.flOwner)
    (hsub : [a, b, c].Sublist (pre ++ (g' ++ tail))) (hp : a.flPosix = true)
    (hb : b.flPosix = true) (ho : a.flOwner = c.flOwner) :
    b.flOwner = a.flOwner := by
  have hpre : ∀ {y}, y.flPosix = true → y.flOwner = o → y ∉ pre := fun hy hyo hmem =>
    h.before _ hmem ⟨hy, hyo⟩
  have htail : ∀ {y}, y.flOwner = o → y ∉ tail := fun hyo hmem => (h.behind _ hmem).2 hyo
  have hg' : ∀ {y}, y.flOwner ≠ o → y ∉ g' := fun hyo hmem => hyo (h'.mine _ hmem).2
  by_cases ham : a.flOwner = o
  · -- all three are in the middle
    have h₁ := (cons_sublist_append hsub).resolve_left (hpre hp ham)
    have h₂ := (concat_sublist_append (u := [a, b]) h₁).resolve_right (htail (ho ▸ ham))
    rw [(h'.mine b (h₂.subset (by simp))).2, ham]
  have hcm : c.flOwner ≠ o := fun hco => ham (ho.trans hco)
  by_cases hbm : b.flOwner = o
  · -- a lock in the middle would also have been between the other two before
    have hab : [a, b].Sublist (pre ++ (g' ++ tail)) := Sublist.trans (by simp) hsub
    have hbc : [b, c].Sublist (pre ++ (g' ++ tail)) := Sublist.trans (by simp) hsub
    have hapre : a ∈ pre := by
      rcases cons_sublist_append hab with ha | hab
      · exact ha
      · have := (concat_sublist_append (u := [a]) hab).resolve_right (htail hbm)
        exact (hg' ham (this.subset (by simp))).elim
    have hctail : c ∈ tail := by
      have := (cons_sublist_append hbc).resolve_left (hpre hb hbm)
      rcases concat_sublist_append (u := [b]) this with hbc | hc
      · exact (hg' hcm (hbc.subset (by simp))).elim
      · exact hc
    obtain ⟨y, hy⟩ := exists_mem_of_ne_nil g fun hnil => by
      rw [h.empty hnil] at hctail
      cases hctail
    have hold : [a, y, c].Sublist (pre ++ (g ++ tail)) :=
      (singleton_sublist.mpr hapre).append
        ((singleton_sublist.mpr hy).append (singleton_sublist.mpr hctail))
    exact (ham ((hl hold hp ho).symm.trans (h.group.mine y hy).2)).elim
  · -- none of the three is in the middle
    classical
    have hfilter := hsub.filter fun y => decide (¬ Mine o y)
    have hkeep : ∀ {m : List (FileLock ω)}, (∀ y ∈ m, ¬ Mine o y) →
        m.filter (fun y => decide (¬ Mine o y)) = m :=
      fun hm => filter_eq_self.mpr fun y hy => decide_eq_true (hm y hy)
    have hnil : g'.filter (fun y => decide (¬ Mine o y)) = [] :=
      filter_eq_nil_iff.mpr fun y hy => by simpa [Mine] using h'.mine y hy
    rw [hkeep (by simp [Mine, ham, hbm, hcm]), filter_append, filter_append, hkeep h.before, hnil,
      hkeep fun y hy hm => (h.behind y hy).2 hm.2] at hfilter
    exact hl (hfilter.trans (Sublist.append_left (sublist_append_right g tail) pre)) hp ho

theorem wellFormed (hl : WellFormed (pre ++ (g ++ tail)))
    (hids : ((pre ++ (g' ++ tail)).map (·.id)).Nodup)
    (hrange : ∀ a ∈ g', 0 ≤ a.flStart ∧ a.flEnd ≤ offsetMax) :
    WellFormed (pre ++ (g' ++ tail)) := by
  have hmem : ∀ {a}, a ∈ pre ++ (g' ++ tail) → a ∈ g' ∨ a ∈ pre ++ (g ++ tail) := by
    intro a ha
    simp only [mem_append] at ha ⊢
    tauto
  have hposix : (pre ++ (g' ++ tail)).Pairwise fun a b =>
      a.flPosix = true → b.flPosix = true :=
    pairwise_swap hl.posix_last (pairwise_of_forall_mem_list fun a _ b hb _ => (h'.mine b hb).1)
      (fun a _ b hb _ => (h'.mine b hb).1) fun a _ b hb _ => (h.behind b hb).1
  refine ⟨hids, hposix, fun {a b c} hsub hp ho => ?_, pairwise_swap hl.sorted ?_ ?_ ?_, ?_, ?_⟩
  · have hab : [a, b].Sublist [a, b, c] := by simp
    have hb := pairwise_iff_forall_sublist.mp hposix (hab.trans hsub) hp
    exact h.contiguous h' hl.contiguous hsub hp hb ho
  · exact h'.sorted.imp fun hab _ _ _ => hab
  · exact fun a ha b hb hp _ ho => (h.before a ha ⟨hp, ho.trans (h'.mine b hb).2⟩).elim
  · exact fun a ha b hb _ _ ho => ((h.behind b hb).2 (ho.symm.trans (h'.mine a ha).2)).elim
  · intro a ha hp
    rcases hmem ha with ha | ha
    · obtain ⟨h₀, hmax⟩ := hrange a ha
      exact ⟨h₀, h'.range a ha, hmax⟩
    · exact hl.range ha hp
  · intro a ha hp
    rcases hmem ha with ha | ha
    · exact h'.type a ha
    · exact hl.type ha hp

end Split

section Locate

theorem WellFormed.group {o : ω} (hl : WellFormed l) (hsub : g.Sublist l)
    (hm : ∀ a ∈ g, Mine o a) : Group o g where
  mine := hm
  sorted := (hl.sorted.sublist hsub).imp_of_mem fun ha hb h =>
    h (hm _ ha).1 (hm _ hb).1 ((hm _ ha).2.trans (hm _ hb).2.symm)
  range a ha := (hl.range (hsub.subset ha) (hm a ha).1).2.1
  type a ha := hl.type (hsub.subset ha) (hm a ha).1
  ids := hl.ids.sublist (hsub.map _)

theorem WellFormed.covers_unique {o : ω} (hl : WellFormed l) (ha : a ∈ l) (hb : b ∈ l)
    (hma : Mine o a) (hmb : Mine o b) (hx : Covers a x) (hx' : Covers b x) : a = b := by
  classical
  have hgroup : Group o (l.filter fun y => Mine o y) :=
    hl.group filter_sublist fun y hy => of_decide_eq_true (mem_filter.mp hy).2
  exact hgroup.covers_unique (mem_filter.mpr ⟨ha, decide_eq_true hma⟩)
    (mem_filter.mpr ⟨hb, decide_eq_true hmb⟩) hx hx'

theorem head_dropWhile {p : FileLock ω → Bool} {rest : List (FileLock ω)}
    (h : l.dropWhile p = a :: rest) : p a = false := by
  have := head?_dropWhile_not p l
  rwa [h] at this

variable [DecidableEq ω] (hl : WellFormed l) (r : FileLock ω)

theorem others_eq_false : others r a = false ↔ Mine r.flOwner a := by
  simp only [others, posixSameOwner, Bool.or_eq_false_iff, Bool.not_eq_false',
    decide_eq_true_eq]
  exact and_congr_right fun _ => eq_comm

include hl

/-- Behind the first lock of the requester there are only POSIX locks, and those of the
requester come first. -/
theorem WellFormed.split_drop {rest : List (FileLock ω)}
    (hd : l = pre ++ a :: rest) (ha : Mine r.flOwner a) (hpre : ∀ b ∈ pre, ¬ Mine r.flOwner b) :
    Split r.flOwner pre ((a :: rest).takeWhile (posixSameOwner r))
      ((a :: rest).dropWhile (posixSameOwner r)) := by
  have hsame : posixSameOwner r a = true := decide_eq_true ha.2.symm
  have hparts := takeWhile_append_dropWhile (p := posixSameOwner r) (l := a :: rest)
  have hposix : ∀ b ∈ a :: rest, b.flPosix = true := by
    intro b hb
    rcases mem_cons.mp hb with rfl | hb
    · exact ha.1
    · have hpair := (pairwise_append.mp (hd ▸ hl.posix_last)).2.1
      exact (pairwise_cons.mp hpair).1 b hb ha.1
  have hfirst : a ∈ (a :: rest).takeWhile (posixSameOwner r) := by
    rw [takeWhile_cons_of_pos hsame]
    exact mem_cons_self
  have hsub : ((a :: rest).takeWhile (posixSameOwner r)).Sublist l := by
    rw [hd]
    exact (takeWhile_sublist _).trans (sublist_append_right pre _)
  refine ⟨hl.group hsub fun b hb => ?_, hpre, fun b hb => ?_, fun hnil => ?_⟩
  · have hown : posixSameOwner r b = true := mem_takeWhile_imp hb
    exact ⟨hposix b (takeWhile_sublist _ |>.subset hb), (of_decide_eq_true hown).symm⟩
  · refine ⟨hposix b (dropWhile_sublist _ |>.subset hb), fun ho => ?_⟩
    rcases htail : (a :: rest).dropWhile (posixSameOwner r) with _ | ⟨e, tail⟩
    · rw [htail] at hb
      cases hb
    have he := of_decide_eq_false (head_dropWhile htail)
    rw [htail] at hb hparts
    rcases mem_cons.mp hb with rfl | hb
    · exact he ho.symm
    · -- another owner would be between two locks of the requester
      have h₁ := singleton_sublist.mpr hfirst
      have h₂ : [e, b].Sublist (e :: tail) := .cons_cons e (singleton_sublist.mpr hb)
      have h₃ : [a, e, b].Sublist l := by
        rw [hd, ← hparts]
        exact (h₁.append h₂).trans (sublist_append_right pre _)
      exact he ((hl.contiguous h₃ ha.1 (ha.2.trans ho.symm)).trans ha.2).symm
  · rw [hnil] at hfirst
    cases hfirst

theorem WellFormed.split : ∃ g tail, l.dropWhile (others r) = g ++ tail ∧
    Split r.flOwner (l.takeWhile (others r)) g tail := by
  have hbefore : ∀ a ∈ l.takeWhile (others r), ¬ Mine r.flOwner a := fun a ha hm => by
    have hskip := mem_takeWhile_imp ha
    rw [(others_eq_false r).mpr hm] at hskip
    cases hskip
  have hparts := takeWhile_append_dropWhile (p := others r) (l := l)
  rcases hd : l.dropWhile (others r) with _ | ⟨a, rest⟩
  · exact ⟨[], [], rfl, hl.group (nil_sublist l) (by simp), hbefore, by simp, fun _ => rfl⟩
  · refine ⟨_, _, takeWhile_append_dropWhile.symm, hl.split_drop r ?_ ?_ hbefore⟩
    · rw [← hd, hparts]
    · exact (others_eq_false r).mp (head_dropWhile hd)

end Locate

section Held

variable [DecidableEq ω] {o : ω}

def holdsAt (o : ω) (x : ℤ) (a : FileLock ω) : Bool :=
  a.flPosix && a.flOwner = o && a.flStart ≤ x && x ≤ a.flEnd

def held (l : List (FileLock ω)) (o : ω) (x : ℤ) : LockType :=
  match l.find? (holdsAt o x) with
  | some a => a.flType
  | none => .unlck

theorem holdsAt_iff : holdsAt o x a = true ↔ Mine o a ∧ Covers a x := by
  simp only [holdsAt, Bool.and_eq_true, decide_eq_true_eq, Mine, Covers, and_assoc]

theorem held_eq_iff (hl : WellFormed l) (ht : t ≠ .unlck) :
    held l o x = t ↔ ∃ a ∈ l, Mine o a ∧ a.flType = t ∧ Covers a x := by
  rcases hf : l.find? (holdsAt o x) with _ | b <;> rw [held, hf]
  · refine ⟨fun h => (ht h.symm).elim, ?_⟩
    rintro ⟨a, ha, hm, -, hx⟩
    exact (find?_eq_none.mp hf a ha (holdsAt_iff.mpr ⟨hm, hx⟩)).elim
  · obtain ⟨hmb, hxb⟩ := holdsAt_iff.mp (find?_some hf)
    have hb := mem_of_find?_eq_some hf
    constructor
    · exact fun h => ⟨b, hb, hmb, h, hxb⟩
    · rintro ⟨a, ha, hm, rfl, hx⟩
      rw [hl.covers_unique ha hb hm hmb hx hxb]

theorem lockType_ext {v w : LockType} (h : ∀ t, t ≠ .unlck → (v = t ↔ w = t)) : v = w := by
  have h₁ := h .rdlck (by decide)
  have h₂ := h .wrlck (by decide)
  revert h₁ h₂
  cases v <;> cases w <;> decide

theorem held_edited (hl : WellFormed (pre ++ (g ++ tail)))
    (hl' : WellFormed (pre ++ (g' ++ tail))) (hsplit : Split r.flOwner pre g tail)
    (he : Edited r g g') (o : ω) (x : ℤ) :
    held (pre ++ (g' ++ tail)) o x =
      if o = r.flOwner ∧ Covers r x then r.flType else held (pre ++ (g ++ tail)) o x := by
  apply lockType_ext
  intro t ht
  rw [held_eq_iff hl' ht]
  by_cases ho : o = r.flOwner
  · subst ho
    -- the locks of the requester are the ones in the middle
    have hmid : ∀ {m : List (FileLock ω)}, Group r.flOwner m →
        ((∃ a ∈ pre ++ (m ++ tail), Mine r.flOwner a ∧ a.flType = t ∧ Covers a x) ↔
          Holds m t x) := by
      intro m hm
      constructor
      · rintro ⟨a, ha, hma, hta, hx⟩
        simp only [mem_append] at ha
        rcases ha with ha | ha | ha
        · exact (hsplit.before a ha hma).elim
        · exact ⟨a, ha, hta, hx⟩
        · exact ((hsplit.behind a ha).2 hma.2).elim
      · rintro ⟨a, ha, hta, hx⟩
        exact ⟨a, by simp [ha], hm.mine a ha, hta, hx⟩
    rw [hmid he.group, he.holds t x ht]
    by_cases hx : Covers r x
    · rw [if_pos hx, if_pos ⟨rfl, hx⟩, eq_comm]
    · rw [if_neg hx, if_neg fun h => hx h.2, held_eq_iff hl ht, hmid hsplit.group]
  · rw [if_neg fun h => ho h.1, held_eq_iff hl ht]
    have hside : ∀ {m : List (FileLock ω)}, Group r.flOwner m → ∀ a, Mine o a →
        (a ∈ pre ++ (m ++ tail) ↔ a ∈ pre ++ tail) := by
      intro m hm a hma
      have : a ∉ m := fun ha => ho (hma.2.symm.trans (hm.mine a ha).2)
      simp [this]
    refine exists_congr fun a => and_congr_left fun h => ?_
    rw [hside he.group a h.1, hside hsplit.group a h.1]

end Held

section Main

variable {newFl newFl2 : Option ℕ}

structure NewLocks (l : List (FileLock ω)) (newFl newFl2 : Option ℕ) : Prop where
  first : ∀ i, newFl = some i → i ∉ l.map (·.id)
  second : ∀ j, newFl2 = some j → j ∉ l.map (·.id) ∧ newFl ≠ some j

structure ValidRequest (r : FileLock ω) : Prop where
  posix : r.flPosix = true
  range : 0 ≤ r.flStart ∧ r.flStart ≤ r.flEnd ∧ r.flEnd ≤ offsetMax

theorem Edited.bounds {lo hi : ℤ} (h : Edited r g g') (hlo : lo ≤ r.flStart) (hhi : r.flEnd ≤ hi)
    (hg : ∀ b ∈ g, lo ≤ b.flStart ∧ b.flEnd ≤ hi) :
    ∀ a ∈ g', lo ≤ a.flStart ∧ a.flEnd ≤ hi := by
  intro a ha
  have hrange := h.group.range a ha
  have hbyte : ∀ x, Covers a x → lo ≤ x ∧ x ≤ hi := by
    intro x hx
    have hheld := (h.holds a.flType x (h.group.type a ha)).mp ⟨a, ha, rfl, hx⟩
    split_ifs at hheld with hr
    · exact ⟨hlo.trans hr.1, hr.2.trans hhi⟩
    · obtain ⟨b, hb, -, hxb⟩ := hheld
      exact ⟨(hg b hb).1.trans hxb.1, hxb.2.trans (hg b hb).2⟩
  exact ⟨(hbyte a.flStart ⟨le_rfl, hrange⟩).1, (hbyte a.flEnd ⟨hrange, le_rfl⟩).2⟩

theorem NewLocks.needed (h : NewLocks l newFl newFl2) (n : Bool) :
    NewLocks l (if n then newFl else none) (if n then newFl2 else none) := by
  cases n
  · exact ⟨fun i hi => (by cases hi), fun j hj => (by cases hj)⟩
  · exact h

variable [DecidableEq ω]

theorem editLocks_eq (hl : WellFormed l) (hp : r.flPosix = true) :
    ∃ pre P R tail st st' rest, l = pre ++ (P ++ R ++ tail) ∧
      Split r.flOwner pre (P ++ R) tail ∧ Scanned r P R st ∧ Ends st R tail (st', rest) ∧
      ∀ newFl newFl2, editLocks l r newFl newFl2 = finish pre st' rest newFl newFl2 := by
  obtain ⟨g, tail, hdrop, hsplit⟩ := hl.split r
  have htail : ∀ b ∈ tail.head?, b.flOwner ≠ r.flOwner := fun b hb =>
    (hsplit.behind b (mem_of_mem_head? hb)).2
  obtain ⟨P, R, st, hPR, hs, he⟩ :=
    scan_spec (P := []) htail hsplit.group (Scanned.init hp)
  rw [nil_append] at hPR
  rw [← hPR] at hsplit hdrop
  refine ⟨_, P, R, tail, st, _, _, ?_, hsplit, hs, hPR ▸ he, fun newFl newFl2 => ?_⟩
  · rw [← hdrop, takeWhile_append_dropWhile]
  · rw [editLocks, hdrop]

theorem editLocks_fail (hl : WellFormed l) (hp : r.flPosix = true)
    (h : (editLocks l r newFl newFl2).1 ≠ .ok) : (editLocks l r newFl newFl2).2.1 = l := by
  obtain ⟨pre, P, R, tail, st, st', rest, rfl, hsplit, hs, he, hedit⟩ := editLocks_eq hl hp
  rw [hedit] at h ⊢
  exact finish_fail hsplit.group hs he h

theorem editLocks_ok (hl : WellFormed l) (hr : ValidRequest r) (hnew : NewLocks l newFl newFl2)
    (h : (editLocks l r newFl newFl2).1 = .ok) :
    WellFormed (editLocks l r newFl newFl2).2.1 ∧ ∀ o x,
      held (editLocks l r newFl newFl2).2.1 o x =
        if o = r.flOwner ∧ Covers r x then r.flType else held l o x := by
  obtain ⟨pre, P, R, tail, st, st', rest, rfl, hsplit, hs, he, hedit⟩ := editLocks_eq hl hr.posix
  rw [hedit] at h ⊢
  obtain ⟨g', hg', hedited, hids⟩ := finish_ok hsplit.group hs hr.range.2.1 he hl.ids hnew.first
    hnew.second h
  rw [hg'] at hids ⊢
  have hrange := hedited.bounds hr.range.1 hr.range.2.2 fun b hb =>
    have hmem := mem_append_right pre (mem_append_left tail hb)
    have h := hl.range hmem (hsplit.group.mine b hb).1
    ⟨h.1, h.2.2⟩
  have hl' := hsplit.wellFormed hedited.group hl hids hrange
  exact ⟨hl', held_edited hl hl' hsplit hedited⟩

variable {s s' : State ω} {inode : ℕ} {reply : Reply} {conflock : Option (FileLock ω)}

inductive Call (s : State ω) (inode : ℕ) (r : FileLock ω) (newFl newFl2 : Option ℕ) :
    Reply → Option (FileLock ω) → State ω → Prop where
  | again {fl : FileLock ω} : findConflict (s.iFlock inode) r = some fl → r.flSleep = false →
      Call s inode r newFl newFl2 (.error .eagain) (some fl) s
  | deadlock {fl : FileLock ω} : findConflict (s.iFlock inode) r = some fl → r.flSleep = true →
      posixLocksDeadlock s r fl = true →
      Call s inode r newFl newFl2 (.error .edeadlk) (some fl) s
  | sleep {fl : FileLock ω} : findConflict (s.iFlock inode) r = some fl → r.flSleep = true →
      posixLocksDeadlock s r fl = false →
      Call s inode r newFl newFl2 .deferred (some fl) (locksInsertBlock s inode fl r)
  | access : findConflict (s.iFlock inode) r = none → r.flAccess = true →
      Call s inode r newFl newFl2 .ok none s
  | edit {reply : Reply} {l : List (FileLock ω)} {woken : List ℕ} :
      findConflict (s.iFlock inode) r = none → r.flAccess = false →
      editLocks (s.iFlock inode) r (if needsNew r then newFl else none)
        (if needsNew r then newFl2 else none) = (reply, l, woken) →
      Call s inode r newFl newFl2 reply none
        (locksWakeUpBlocks { s with iFlock := update s.iFlock inode l } woken)

section Reply

variable (h : posixLockFile s inode r newFl newFl2 = (reply, conflock, s'))
include h

theorem posixLockFile_call :
    Call s inode r newFl newFl2 reply conflock s' := by
  rw [posixLockFile] at h
  split at h
  · rename_i fl hf
    split_ifs at h with hsleep hd <;> obtain ⟨rfl, rfl, rfl⟩ := h
    · exact .again hf (by simpa using hsleep)
    · exact .deadlock hf (by simpa using hsleep) hd
    · exact .sleep hf (by simpa using hsleep) (by simpa using hd)
  · rename_i hf
    by_cases hacc : r.flAccess
    · rw [if_pos hacc] at h
      obtain ⟨rfl, rfl, rfl⟩ := h
      exact .access hf hacc
    · simp only [if_neg hacc] at h
      obtain ⟨rfl, rfl, rfl⟩ := h
      exact .edit hf (by simpa using hacc) rfl

theorem posixLockFile_fail (hl : WellFormed (s.iFlock inode)) (hp : r.flPosix = true)
    (hreply : reply ≠ .ok) : s'.iFlock = s.iFlock := by
  cases posixLockFile_call h with
  | again | deadlock | sleep => rfl
  | access => exact absurd rfl hreply
  | @edit _ l woken hf hacc he =>
    have hsame := editLocks_fail hl hp (by rw [he]; exact hreply)
    obtain rfl : l = s.iFlock inode := by rwa [he] at hsame
    exact update_eq_self ..

theorem posixLockFile_spec (hl : WellFormed (s.iFlock inode)) (hr : ValidRequest r)
    (hnew : NewLocks (s.iFlock inode) newFl newFl2) :
    (∀ i, i ≠ inode → s'.iFlock i = s.iFlock i) ∧
    (reply ≠ .ok → s'.iFlock = s.iFlock) ∧
    (reply = .ok → WellFormed (s'.iFlock inode) ∧ ∀ o x, held (s'.iFlock inode) o x =
      if r.flAccess = false ∧ o = r.flOwner ∧ Covers r x then r.flType
      else held (s.iFlock inode) o x) := by
  have hfail := fun hne : reply ≠ .ok => posixLockFile_fail h hl hr.posix hne
  cases posixLockFile_call h with
  | again | deadlock | sleep => exact ⟨fun _ _ => rfl, hfail, fun hok => by cases hok⟩
  | access hf hacc => exact ⟨fun _ _ => rfl, hfail, fun _ => ⟨hl, fun o x => by simp [hacc]⟩⟩
  | @edit _ l woken hf hacc he =>
    refine ⟨fun i hi => update_of_ne hi _ _, hfail, fun hok => ?_⟩
    have hgood := editLocks_ok hl hr (hnew.needed (needsNew r)) (by rw [he]; exact hok)
    rw [he] at hgood
    have hlist : (locksWakeUpBlocks { s with iFlock := update s.iFlock inode l }
        woken).iFlock inode = l := update_self ..
    simpa only [hlist, hacc, true_and] using hgood

end Reply

/-- The lists refine the map from owners and bytes to lock types. A request with `FL_ACCESS`
only looks for conflicts. -/
theorem posix_locks_refine_byte_map (hl : WellFormed (s.iFlock inode)) (hr : ValidRequest r)
    (hnew : NewLocks (s.iFlock inode) newFl newFl2)
    (h : posixLockFile s inode r newFl newFl2 = (.ok, conflock, s')) :
    WellFormed (s'.iFlock inode) ∧ ∀ o x, held (s'.iFlock inode) o x =
      if r.flAccess = false ∧ o = r.flOwner ∧ Covers r x then r.flType
      else held (s.iFlock inode) o x :=
  (posixLockFile_spec h hl hr hnew).2.2 rfl

/-- A request that is refused, must wait, or runs out of memory leaves every lock as it was. -/
theorem posix_lock_file_failure_atomic (hl : WellFormed (s.iFlock inode)) (hp : r.flPosix = true)
    (h : posixLockFile s inode r newFl newFl2 = (reply, conflock, s')) (hreply : reply ≠ .ok) :
    ∀ o x, held (s'.iFlock inode) o x = held (s.iFlock inode) o x :=
  fun o x => by rw [posixLockFile_fail h hl hp hreply]

end Main

section Small

def oneLock : State ℕ where
  iFlock _ := [⟨1, 0, true, false, false, false, .rdlck, 0, 9⟩]
  blocked := []

theorem oneLock_wellFormed : WellFormed (oneLock.iFlock 0) where
  ids := by decide
  posix_last := pairwise_singleton _ _
  contiguous h := by
    have := h.length_le
    simp [oneLock] at this
  sorted := pairwise_singleton _ _
  range ha _ := by
    rw [mem_singleton.mp ha]
    decide
  type ha _ := by
    rw [mem_singleton.mp ha]
    decide

/-- A write lock in the middle splits the read lock. -/
theorem posix_locks_refine_byte_map_split :
    let r : FileLock ℕ := ⟨0, 0, true, false, false, false, .wrlck, 3, 5⟩
    let l := (posixLockFile oneLock 0 r (some 2) (some 3)).2.2.iFlock 0
    l.length = 3 ∧ WellFormed l ∧ ∀ x, 3 ≤ x → x ≤ 5 → held l 0 x = .wrlck := by
  have hr : ValidRequest (⟨0, 0, true, false, false, false, .wrlck, 3, 5⟩ : FileLock ℕ) :=
    ⟨rfl, by decide⟩
  have hnew : NewLocks (oneLock.iFlock 0) (some 2) (some 3) :=
    ⟨fun i hi => (by cases hi; decide), fun j hj => (by cases hj; decide)⟩
  obtain ⟨hl, hheld⟩ := posix_locks_refine_byte_map oneLock_wellFormed hr hnew rfl
  refine ⟨by decide, hl, fun x h₁ h₂ => ?_⟩
  exact (hheld 0 x).trans (if_pos ⟨rfl, rfl, h₁, h₂⟩)

/-- The split cannot be made without a second new lock. -/
theorem posix_lock_file_failure_atomic_split :
    let r : FileLock ℕ := ⟨0, 0, true, false, false, false, .wrlck, 3, 5⟩
    let res := posixLockFile oneLock 0 r (some 2) none
    res.1 = .error .enolck ∧ ∀ o x, held (res.2.2.iFlock 0) o x = held (oneLock.iFlock 0) o x := by
  intro r res
  have h : posixLockFile oneLock 0 r (some 2) none = (res.1, res.2.1, res.2.2) := rfl
  exact ⟨by decide, posix_lock_file_failure_atomic oneLock_wellFormed rfl h (by decide)⟩

/-- A request with `FL_ACCESS` returns 0 without the lock. -/
theorem access_request_not_held :
    let r : FileLock ℕ := ⟨0, 0, true, true, false, false, .wrlck, 3, 5⟩
    let res := posixLockFile oneLock 0 r none none
    WellFormed (oneLock.iFlock 0) ∧ ValidRequest r ∧ res.1 = .ok ∧
      held (res.2.2.iFlock 0) r.flOwner 3 ≠ r.flType :=
  ⟨oneLock_wellFormed, ⟨rfl, by decide⟩, by decide, by decide⟩

end Small

end LinuxKernel.Locks
