import LinuxKernel.Locks.Scan

/-! # The list after the loop

What is left of the locks of the requester is put together around the request: the locks before
it, a piece of a lock that is split, the request itself and the locks behind it. If the call
fails, the list is the one that it started with.
-/

namespace LinuxKernel.Locks

open List

variable {ω : Type*} {a b fl r : FileLock ω} {P R A M C : List (FileLock ω)}
  {st : Scan ω} {x : ℤ} {t : LockType} {i : ℕ} {v : ℤ} {l : List (FileLock ω)}

/-- A lock that has lost bytes, and perhaps changed its address. -/
structure Shrinks (a b : FileLock ω) : Prop where
  posix : b.flPosix = a.flPosix
  owner : b.flOwner = a.flOwner
  type : b.flType = a.flType
  start : a.flStart ≤ b.flStart
  stop : b.flEnd ≤ a.flEnd

structure Edited (r : FileLock ω) (l l' : List (FileLock ω)) : Prop where
  group : Group r.flOwner l'
  holds : ∀ t x, t ≠ .unlck → (Holds l' t x ↔ if Covers r x then t = r.flType else Holds l t x)

/-- What a lock has behind the request, and what it has before it under a new address. -/
abbrev Scan.behind (st : Scan ω) (b : FileLock ω) : FileLock ω :=
  { b with flStart := st.request.flEnd + 1 }

abbrev Scan.ahead (st : Scan ω) (b : FileLock ω) (i : ℕ) : FileLock ω :=
  { b with id := i, flEnd := st.request.flStart - 1 }

/-- The lock has another type than the request and reaches over its end. -/
structure Scan.Over (st : Scan ω) (b : FileLock ω) : Prop where
  type : st.request.flType ≠ b.flType
  start : b.flStart ≤ st.request.flEnd
  stop : st.request.flEnd < b.flEnd

/-- One lock is split, and there is no room for the second part. -/
abbrev Scan.Stuck (st : Scan ω) (newFl2 : Option ℕ) : Prop :=
  st.right.isSome ∧ st.left.map (·.id) = st.right.map (·.id) ∧ newFl2 = none

namespace Shrinks

theorem refl (a : FileLock ω) : Shrinks a a := ⟨rfl, rfl, rfl, le_rfl, le_rfl⟩

theorem before {a' b' : FileLock ω} (ha : Shrinks a a') (hb : Shrinks b b') (h : Before a b) :
    Before a' b' :=
  h.mono ha.stop hb.start ha.type hb.type

end Shrinks

theorem Group.covers_unique {o : ω} (h : Group o l) (ha : a ∈ l) (hb : b ∈ l) (hx : Covers a x)
    (hx' : Covers b x) : a = b := by
  have hpair : l.Pairwise fun a b => Covers a x → Covers b x → a = b :=
    h.sorted.imp fun hab hx hx' => (hab.not_covers hx hx').elim
  have hflip : l.Pairwise (flip fun a b => Covers a x → Covers b x → a = b) :=
    h.sorted.imp fun hab hx' hx => (hab.not_covers hx hx').elim
  exact hpair.forall_of_forall_of_flip (fun _ _ _ _ => rfl) hflip ha hb hx hx'

theorem Group.id_unique {o : ω} (h : Group o l) (ha : a ∈ l) (hb : b ∈ l) (hid : a.id = b.id) :
    a = b :=
  inj_on_of_nodup_map h.ids ha hb hid

namespace Scanned

variable (hG : Group r.flOwner (P ++ R)) (hs : Scanned r P R st)
include hG hs

omit hG in
theorem range (hr : r.flStart ≤ r.flEnd) : st.request.flStart ≤ st.request.flEnd :=
  (hs.wide ⟨le_rfl, hr⟩).1.trans (hs.wide ⟨le_rfl, hr⟩).2

theorem trimmed_eq_map : ∃ f : FileLock ω → FileLock ω, st.trimmed = st.before.map f ∧
    ∀ a ∈ st.before, Shrinks a (f a) ∧ (f a).id = a.id := by
  rw [Scan.trimmed]
  rcases hl : st.left with _ | fl
  · exact ⟨id, st.before.map_id.symm, fun a _ => ⟨.refl a, rfl⟩⟩
  · refine ⟨_, rfl, fun a ha => ?_⟩
    obtain ⟨hfl, hle⟩ := hs.left hl
    split_ifs with hid
    · have hmem : ∀ b ∈ st.before, b ∈ P ++ R := fun b hb =>
        mem_append_left _ (hs.sub.subset hb)
      rw [hG.id_unique (hmem a ha) (hmem fl hfl) hid]
      exact ⟨⟨rfl, rfl, rfl, le_rfl, by show st.request.flStart - 1 ≤ fl.flEnd; omega⟩, rfl⟩
    · exact ⟨.refl a, rfl⟩

theorem mem_trimmed (ha : a ∈ st.trimmed) : ∃ b ∈ P, Shrinks b a := by
  obtain ⟨f, hf, hshrinks⟩ := trimmed_eq_map hG hs
  rw [hf] at ha
  obtain ⟨b, hb, rfl⟩ := mem_map.mp ha
  exact ⟨b, hs.sub.subset hb, (hshrinks b hb).1⟩

theorem sorted_trimmed : st.trimmed.Pairwise Before := by
  obtain ⟨f, hf, hshrinks⟩ := trimmed_eq_map hG hs
  rw [hf, pairwise_map]
  have hbefore := (pairwise_append.mp hG.sorted).1.sublist hs.sub
  exact hbefore.imp_of_mem fun ha hb h => (hshrinks _ ha).1.before (hshrinks _ hb).1 h

theorem map_id_trimmed : st.trimmed.map (·.id) = st.before.map (·.id) := by
  obtain ⟨f, hf, hshrinks⟩ := trimmed_eq_map hG hs
  rw [hf, map_map]
  exact map_congr_left fun a ha => (hshrinks a ha).2

/-- The requested type is held exactly where it is requested, if the pieces `A` before and `C`
behind the request `M` have all other bytes. -/
theorem holds_pieces (hM : ∀ t x, Holds M t x ↔ t = r.flType ∧ t ≠ .unlck ∧ Covers st.request x)
    (hin : ∀ t x, Covers st.request x → ¬ Holds (A ++ C) t x)
    (hout : ∀ t x, ¬ Covers st.request x → (Holds (A ++ C) t x ↔ Holds R t x))
    (ht : t ≠ .unlck) :
    Holds (st.trimmed ++ (A ++ M ++ C)) t x ↔
      if Covers r x then t = r.flType else Holds (P ++ R) t x := by
  have hsplit : Holds (st.trimmed ++ (A ++ M ++ C)) t x ↔
      Holds st.trimmed t x ∨ Holds M t x ∨ Holds (A ++ C) t x := by
    simp only [holds_append]
    tauto
  rw [hsplit, hM]
  by_cases hq : Covers st.request x
  · have hT : ¬ Holds st.trimmed t x := fun ⟨a, ha, _, hx⟩ => (hs.clear ha).1.not_covers hx hq
    have heq : Holds st.trimmed t x ∨ (t = r.flType ∧ t ≠ .unlck ∧ Covers st.request x) ∨
        Holds (A ++ C) t x ↔ t = r.flType := by
      tauto
    rw [heq]
    split_ifs with hr
    · rfl
    · -- outside of `r` the request has only grown over locks of its type
      obtain ⟨a, ha, hta, hxa⟩ := hs.gained hq hr
      constructor
      · rintro rfl
        exact ⟨a, mem_append_left _ ha, hta, hxa⟩
      · rintro ⟨b, hb, rfl, hxb⟩
        rw [hG.covers_unique hb (mem_append_left _ ha) hxb hxa, hta]
  · rw [if_neg fun hr => hq (hs.wide hr), hs.same t hq, hout t x hq, holds_append]
    tauto

/-- The request stands for itself in the list, unless it is an unlock. -/
structure Stands (r q : FileLock ω) (M : List (FileLock ω)) : Prop where
  like : ∀ m ∈ M, m.flPosix = true ∧ m.flOwner = r.flOwner ∧ m.flType = r.flType ∧
    m.flStart = q.flStart ∧ m.flEnd = q.flEnd
  nil_iff : M = [] ↔ r.flType = .unlck
  length_le : M.length ≤ 1

theorem edited_of_pieces (hr : r.flStart ≤ r.flEnd) (hsource : ∀ a ∈ A ++ C, ∃ b ∈ R, Shrinks b a)
    (hM : Stands r st.request M) (hsorted : (A ++ M ++ C).Pairwise Before)
    (hrange : ∀ a ∈ A ++ C, a.flStart ≤ a.flEnd)
    (hin : ∀ t x, Covers st.request x → ¬ Holds (A ++ C) t x)
    (hout : ∀ t x, ¬ Covers st.request x → (Holds (A ++ C) t x ↔ Holds R t x))
    (hids : ((st.before ++ (A ++ M ++ C)).map (·.id)).Nodup) :
    Edited r (P ++ R) (st.trimmed ++ (A ++ M ++ C)) := by
  have hmine : ∀ {a b}, b ∈ P ++ R → Shrinks b a →
      (a.flPosix = true ∧ a.flOwner = r.flOwner) ∧ a.flType ≠ .unlck := fun hb hsb => by
    rw [hsb.posix, hsb.owner, hsb.type]
    exact ⟨hG.mine _ hb, hG.type _ hb⟩
  have hlock : ∀ m ∈ M, r.flType ≠ .unlck := fun m hm ht => by
    rw [hM.nil_iff.mpr ht] at hm
    cases hm
  have hq := hs.range hr
  have hall : ∀ a ∈ st.trimmed ++ (A ++ M ++ C),
      ((a.flPosix = true ∧ a.flOwner = r.flOwner) ∧ a.flType ≠ .unlck) ∧ a.flStart ≤ a.flEnd := by
    intro a ha
    simp only [mem_append] at ha
    rcases ha with ha | (ha | ha) | ha
    · obtain ⟨b, hb, hsb⟩ := mem_trimmed hG hs ha
      exact ⟨hmine (mem_append_left _ hb) hsb, (hs.clear ha).2⟩
    · obtain ⟨b, hb, hsb⟩ := hsource a (mem_append_left _ ha)
      exact ⟨hmine (mem_append_right _ hb) hsb, hrange a (mem_append_left _ ha)⟩
    · obtain ⟨hp, ho, ht, hstart, hend⟩ := hM.like a ha
      exact ⟨⟨⟨hp, ho⟩, ht ▸ hlock a ha⟩, by omega⟩
    · obtain ⟨b, hb, hsb⟩ := hsource a (mem_append_right _ ha)
      exact ⟨hmine (mem_append_right _ hb) hsb, hrange a (mem_append_right _ ha)⟩
  refine ⟨⟨fun a ha => (hall a ha).1.1, ?_, fun a ha => (hall a ha).2, fun a ha => (hall a ha).1.2,
    ?_⟩, fun t x ht => holds_pieces hG hs ?_ hin hout ht⟩
  · refine pairwise_append.mpr ⟨sorted_trimmed hG hs, hsorted, fun a ha c hc => ?_⟩
    have hside : c ∈ A ++ C → Before a c := fun hc => by
      obtain ⟨b, hb, hsb⟩ := mem_trimmed hG hs ha
      obtain ⟨b', hb', hsc⟩ := hsource c hc
      exact hsb.before hsc ((pairwise_append.mp hG.sorted).2.2 b hb b' hb')
    simp only [mem_append] at hc hside
    rcases hc with (hc | hc) | hc
    · exact hside (.inl hc)
    · obtain ⟨-, -, ht, hstart, -⟩ := hM.like c hc
      exact (hs.clear ha).1.mono le_rfl hstart.ge rfl (ht.trans hs.type.symm)
    · exact hside (.inr hc)
  · rwa [map_append, map_id_trimmed hG hs, ← map_append]
  · intro t x
    constructor
    · rintro ⟨m, hm, rfl, hx⟩
      obtain ⟨-, -, ht, hstart, hend⟩ := hM.like m hm
      rw [Covers, hstart, hend] at hx
      exact ⟨ht, ht ▸ hlock m hm, hx⟩
    · rintro ⟨rfl, ht, hx⟩
      obtain ⟨m, hm⟩ := exists_mem_of_ne_nil M fun h => ht (hM.nil_iff.mp h)
      obtain ⟨-, -, hty, hstart, hend⟩ := hM.like m hm
      refine ⟨m, hm, hty, ?_⟩
      rw [Covers, hstart, hend]
      exact hx

omit hG hs in
theorem Stands.sorted {q : FileLock ω} (h : Stands r q M) : M.Pairwise Before := by
  rcases M with _ | ⟨m, _ | ⟨m', M⟩⟩
  · exact .nil
  · exact pairwise_singleton _ _
  · have := h.length_le
    simp at this

theorem edited_clear (hr : r.flStart ≤ r.flEnd) (hM : Stands r st.request M)
    (hbehind : ∀ b ∈ R, Before st.request b)
    (hids : ((st.before ++ (M ++ R)).map (·.id)).Nodup) :
    Edited r (P ++ R) (st.trimmed ++ (M ++ R)) := by
  have hR := pairwise_append.mp hG.sorted
  refine edited_of_pieces (A := []) hG hs hr (fun c hc => ⟨c, hc, .refl c⟩) hM ?_ ?_ ?_
    (fun t x _ => Iff.rfl) hids
  · refine pairwise_append.mpr ⟨hM.sorted, hR.2.1, fun m hm c hc => ?_⟩
    obtain ⟨-, -, ht, -, hend⟩ := hM.like m hm
    exact (hbehind c hc).mono hend.le le_rfl (ht.trans hs.type.symm) rfl
  · exact fun a ha => hG.range a (mem_append_right _ ha)
  · rintro t x hx ⟨c, hc, -, hxc⟩
    exact (hbehind c hc).not_covers hx hxc

/-- The lock `b` reaches out of the request to the right, and perhaps also to the left. -/
theorem edited_right {R' : List (FileLock ω)} (hr : r.flStart ≤ r.flEnd)
    (hM : Stands r st.request M) (hR : R = b :: R') (hover : st.Over b)
    (hA : A = [] ∧ st.request.flStart ≤ b.flStart ∨
      A = [st.ahead b i] ∧ b.flStart < st.request.flStart)
    (hids : ((st.before ++ (A ++ M ++ st.behind b :: R')).map (·.id)).Nodup) :
    Edited r (P ++ R) (st.trimmed ++ (A ++ M ++ st.behind b :: R')) := by
  subst hR
  obtain ⟨ht, hstart, hend⟩ := hover
  have hq := hs.range hr
  have hty : b.flType ≠ r.flType := fun h => ht (hs.type.trans h.symm)
  have hrest : ∀ c ∈ R', Before b c := fun c hc => fl_before hG hc
  have hmemA : ∀ a ∈ A, a = st.ahead b i ∧ b.flStart < st.request.flStart := by
    rcases hA with ⟨rfl, -⟩ | ⟨rfl, hlt⟩
    · exact fun a ha => by cases ha
    · exact fun a ha => ⟨mem_singleton.mp ha, hlt⟩
  have hright : Shrinks b (st.behind b) :=
    ⟨rfl, rfl, rfl, by show b.flStart ≤ st.request.flEnd + 1; omega, le_rfl⟩
  refine edited_of_pieces hG hs hr (forall_mem_append.mpr ⟨fun a ha => ?_, fun c hc => ?_⟩) hM ?_ ?_
    ?_ (fun t x hx => ?_) hids
  · obtain ⟨rfl, hlt⟩ := hmemA a ha
    refine ⟨b, mem_cons_self, rfl, rfl, rfl, le_rfl, ?_⟩
    show st.request.flStart - 1 ≤ b.flEnd
    omega
  · rcases mem_cons.mp hc with rfl | hc
    · exact ⟨b, mem_cons_self, hright⟩
    · exact ⟨c, mem_cons_of_mem _ hc, .refl c⟩
  · have hAM : (A ++ M).Pairwise Before := by
      refine pairwise_append.mpr ⟨?_, hM.sorted, fun a ha m hm => ?_⟩
      · rcases hA with ⟨rfl, -⟩ | ⟨rfl, -⟩
        · exact .nil
        · exact pairwise_singleton _ _
      · obtain ⟨rfl, -⟩ := hmemA a ha
        obtain ⟨-, -, htm, hms, -⟩ := hM.like m hm
        refine ⟨?_, fun h => (hty (h.trans htm)).elim⟩
        show st.request.flStart - 1 < m.flStart
        omega
    refine pairwise_append.mpr ⟨hAM, ?_, fun a ha c hc => ?_⟩
    · refine pairwise_cons.mpr ⟨fun c hc => hright.before (.refl c) (hrest c hc), ?_⟩
      exact (pairwise_cons.mp (pairwise_append.mp hG.sorted).2.1).2
    · have hbc : c = st.behind b ∨ c ∈ R' ∧ b.flEnd < c.flStart := by
        rcases mem_cons.mp hc with rfl | hc
        · exact .inl rfl
        · exact .inr ⟨hc, (hrest c hc).1⟩
      rcases mem_append.mp ha with ha | ha
      · obtain ⟨rfl, -⟩ := hmemA a ha
        rcases hbc with rfl | ⟨-, hlt⟩
        · exact ⟨by show st.request.flStart - 1 < st.request.flEnd + 1; omega,
            fun _ => by show st.request.flStart - 1 + 1 < st.request.flEnd + 1; omega⟩
        · exact ⟨by show st.request.flStart - 1 < c.flStart; omega,
            fun _ => by show st.request.flStart - 1 + 1 < c.flStart; omega⟩
      · obtain ⟨-, -, htm, -, hme⟩ := hM.like a ha
        rcases hbc with rfl | ⟨-, hlt⟩
        · exact ⟨by show a.flEnd < st.request.flEnd + 1; omega,
            fun h => (hty (h.symm.trans htm)).elim⟩
        · exact ⟨by omega, fun _ => by omega⟩
  · intro a ha
    rcases mem_append.mp ha with ha | ha
    · obtain ⟨rfl, hlt⟩ := hmemA a ha
      show b.flStart ≤ st.request.flStart - 1
      omega
    · rcases mem_cons.mp ha with rfl | ha
      · show st.request.flEnd + 1 ≤ b.flEnd
        omega
      · exact hG.range a (mem_append_right _ (mem_cons_of_mem _ ha))
  · rintro t x ⟨hx, hx'⟩ ⟨c, hc, -, hxc, hxc'⟩
    rcases mem_append.mp hc with hc | hc
    · obtain ⟨rfl, hlt⟩ := hmemA c hc
      replace hxc' : x ≤ st.request.flStart - 1 := hxc'
      omega
    · rcases mem_cons.mp hc with rfl | hc
      · replace hxc : st.request.flEnd + 1 ≤ x := hxc
        omega
      · have := (hrest c hc).1
        omega
  · have hA' : Holds A t x ↔ b.flType = t ∧ b.flStart ≤ x ∧ x < st.request.flStart := by
      rcases hA with ⟨rfl, hle⟩ | ⟨rfl, -⟩
      · rw [iff_false_left holds_nil]
        omega
      · rw [holds_singleton]
        show b.flType = t ∧ b.flStart ≤ x ∧ x ≤ st.request.flStart - 1 ↔ _
        rw [Int.le_sub_one_iff]
    rw [holds_append, holds_cons, holds_cons, hA', ← or_assoc, ← and_or_left]
    refine or_congr_left (and_congr_right fun _ => ?_)
    simp only [Covers] at hx ⊢
    omega

end Scanned

section Splice

variable {l l' : List (FileLock ω)}

theorem notMem_right (h : ((l ++ l').map (·.id)).Nodup) (hi : i ∈ l.map (·.id)) :
    i ∉ l'.map (·.id) := by
  rw [map_append] at h
  exact fun hi' => (nodup_append.mp h).2.2 i hi i hi' rfl

theorem notMem_left (h : ((l ++ l').map (·.id)).Nodup) (hi : i ∈ l'.map (·.id)) :
    i ∉ l.map (·.id) := fun hi' => notMem_right h hi' hi

theorem setStart_middle (h : ((l ++ b :: l').map (·.id)).Nodup) :
    setStart b.id v (l ++ b :: l') = l ++ { b with flStart := v } :: l' := by
  have hkeep : ∀ m : List (FileLock ω), b.id ∉ m.map (·.id) → setStart b.id v m = m := by
    intro m hm
    refine (map_congr_left fun a ha => if_neg fun heq => hm ?_).trans m.map_id
    exact heq ▸ mem_map_of_mem ha
  have hr := h
  rw [append_cons] at hr
  rw [setStart, map_append, map_cons, if_pos rfl]
  refine congrArg₂ (· ++ _ :: ·) (hkeep l (notMem_left h (by simp))) (hkeep l' ?_)
  exact notMem_right hr (by simp)

theorem setEnd_middle (h : ((l ++ b :: l').map (·.id)).Nodup) :
    setEnd b.id v (l ++ b :: l') = l ++ { b with flEnd := v } :: l' := by
  have hr := h
  rw [append_cons] at hr
  rw [setEnd_append, setEnd_cons_self, setEnd_of_notMem (notMem_left h (by simp)),
    setEnd_of_notMem (notMem_right hr (by simp))]

theorem Scanned.trimLeft_eq (hs : Scanned r P R st)
    (h : ((l ++ (st.before ++ l')).map (·.id)).Nodup) :
    trimLeft st.request st.left (l ++ (st.before ++ l')) = l ++ (st.trimmed ++ l') := by
  rw [Scan.trimmed]
  rcases hl : st.left with _ | fl
  · rfl
  · have hmem : fl.id ∈ st.before.map (·.id) := mem_map_of_mem (hs.left hl).1
    have hl : fl.id ∉ l.map (·.id) := notMem_left h (by
      rw [map_append]
      exact mem_append_left _ hmem)
    have hl' : fl.id ∉ l'.map (·.id) := by
      rw [← append_assoc] at h
      exact notMem_right h (by
        rw [map_append]
        exact mem_append_right _ hmem)
    rw [trimLeft, trimLeft, setEnd_append, setEnd_append, setEnd_of_notMem hl, setEnd_of_notMem hl']

theorem Scanned.left_ne (hG : Group r.flOwner (P ++ R)) (hs : Scanned r P R st) (hb : b ∈ R) :
    st.left.map (·.id) ≠ some b.id := by
  intro h
  obtain ⟨a, ha, hid⟩ := Option.map_eq_some_iff.mp h
  have hmem : a.id ∈ P.map (·.id) := mem_map_of_mem (hs.sub.subset (hs.left ha).1)
  exact notMem_right hG.ids hmem (hid ▸ mem_map_of_mem hb)

end Splice

section Finish

variable {pre tail rest D X : List (FileLock ω)} {st' : Scan ω} {j : ℕ} {R' : List (FileLock ω)}

/-- The locks of the requester in a list are edited, and the addresses stay different. -/
def EditedIn (r : FileLock ω) (pre l tail l' : List (FileLock ω)) : Prop :=
  ∃ g, l' = pre ++ (g ++ tail) ∧ Edited r l g ∧ (l'.map (·.id)).Nodup

variable (hG : Group r.flOwner (P ++ R)) (hs : Scanned r P R st)
  (hr : r.flStart ≤ r.flEnd) (hM : Scanned.Stands r st.request (D ++ X))
  (hD : st.done = st.before ++ D)
  (hnd : ((pre ++ (st.before ++ (D ++ X ++ (R ++ tail)))).map (·.id)).Nodup)
include hG hs hr hM hD hnd

theorem split_clear (hbehind : ∀ b ∈ R, Before st.request b) :
    EditedIn r pre (P ++ R) tail (splitLocks st (pre ++ st.done) (X ++ (R ++ tail)) j) := by
  have hlist : pre ++ st.done ++ (X ++ (R ++ tail)) =
      pre ++ (st.before ++ (D ++ X ++ (R ++ tail))) := by
    rw [hD]
    simp only [append_assoc]
  have heq : splitLocks st (pre ++ st.done) (X ++ (R ++ tail)) j =
      pre ++ (st.trimmed ++ (D ++ X ++ R) ++ tail) := by
    rw [splitLocks, hs.right]
    show trimLeft st.request st.left (pre ++ st.done ++ (X ++ (R ++ tail))) = _
    rw [hlist, hs.trimLeft_eq hnd]
    simp only [append_assoc]
  have hids : ((pre ++ (st.trimmed ++ (D ++ X ++ R) ++ tail)).map (·.id)).Nodup := by
    simpa only [map_append, hs.map_id_trimmed hG, append_assoc] using hnd
  refine ⟨_, heq, hs.edited_clear hG hr hM hbehind ?_, heq ▸ hids⟩
  refine hnd.sublist (List.Sublist.map _ ?_)
  refine (Sublist.append_left ?_ st.before).trans (sublist_append_right pre _)
  rw [← append_assoc (D ++ X)]
  exact sublist_append_left _ tail

theorem split_right (hR : R = b :: R') (hover : st.Over b)
    (hle : st.request.flStart ≤ b.flStart) :
    EditedIn r pre (P ++ R) tail (splitLocks { st.note b with right := some b } (pre ++ st.done)
      (X ++ (R ++ tail)) j) := by
  have hne := hs.left_ne hG (hR ▸ mem_cons_self)
  have hleft : (st.note b).left = st.left := if_neg (not_lt.mpr hle)
  have hlist : pre ++ st.done ++ (X ++ (R ++ tail)) =
      pre ++ (st.before ++ (D ++ X)) ++ b :: (R' ++ tail) := by
    rw [hD, hR]
    simp only [append_assoc, cons_append]
  have hnd' : ((pre ++ (st.before ++ (D ++ X)) ++ b :: (R' ++ tail)).map (·.id)).Nodup := by
    simpa only [hR, append_assoc, cons_append] using hnd
  have hids : ∀ y, y.id = b.id →
      ((pre ++ (st.before ++ (D ++ X ++ y :: R') ++ tail)).map (·.id)).Nodup := by
    intro y hy
    simpa only [map_append, map_cons, append_assoc, cons_append, hy] using hnd'
  have heq : splitLocks { st.note b with right := some b } (pre ++ st.done) (X ++ (R ++ tail)) j =
      pre ++ (st.trimmed ++ (D ++ X ++ st.behind b :: R') ++ tail) := by
    rw [splitLocks]
    simp only [hleft, if_neg hne]
    show trimLeft st.request st.left (setStart b.id (st.request.flEnd + 1) _) = _
    rw [hlist, setStart_middle hnd']
    have h := hids (st.behind b) rfl
    simp only [append_assoc, cons_append] at h ⊢
    rw [hs.trimLeft_eq h]
  refine ⟨_, heq, ?_, heq ▸ ?_⟩
  · refine hs.edited_right (A := []) (i := j) hG hr hM hR hover (.inl ⟨rfl, hle⟩) ?_
    refine (hids (st.behind b) rfl).sublist (List.Sublist.map _ ?_)
    exact (sublist_append_left _ tail).trans (sublist_append_right pre _)
  · rw [map_append, map_append, map_append, hs.map_id_trimmed hG]
    simpa only [map_append] using hids (st.behind b) rfl

theorem split_both (hR : R = b :: R') (hover : st.Over b)
    (hlt : b.flStart < st.request.flStart)
    (hj : j ∉ (pre ++ (st.before ++ (D ++ X ++ (R ++ tail)))).map (·.id)) :
    EditedIn r pre (P ++ R) tail (splitLocks { st.note b with right := some b } (pre ++ st.done)
      (X ++ (R ++ tail)) j) := by
  subst hR
  obtain ⟨hnone, -, hbefore, haliased, -⟩ := hs.pristine (hs.untouched hlt)
  have hdone : st.done = st.before := by
    rw [Scan.done, haliased, hs.after]
    exact append_nil _
  have hnil : D = [] := by
    rw [hdone] at hD
    exact self_eq_append_right.mp hD
  subst hnil
  have htrim : st.trimmed = st.before := by
    rw [Scan.trimmed, hnone]
    rfl
  have hleft : (st.note b).left = some b := if_pos hlt
  have hids : ∀ y z : FileLock ω, y.id = j → z.id = b.id →
      ((pre ++ st.before ++ y :: (X ++ z :: (R' ++ tail))).map (·.id)).Nodup := by
    intro y z hy hz
    rw [map_append, map_cons, nodup_middle, nodup_cons, hy]
    constructor
    · simpa only [map_append, map_cons, append_assoc, cons_append, nil_append, hz] using hj
    · simpa only [map_append, map_cons, append_assoc, cons_append, nil_append, hz] using hnd
  have heq : splitLocks { st.note b with right := some b } (pre ++ st.done)
      (X ++ (b :: R' ++ tail)) j = pre ++ (st.trimmed ++
        ([st.ahead b j] ++ ([] ++ X) ++ st.behind b :: R') ++ tail) := by
    rw [splitLocks]
    simp only [hleft, Option.map_some]
    show setEnd j (st.request.flStart - 1) (setStart b.id (st.request.flEnd + 1) _) = _
    have h₁ := hids { b with id := j } b rfl rfl
    have h₂ := hids { b with id := j } (st.behind b) rfl rfl
    have hl : pre ++ st.done ++ { b with id := j } :: (X ++ (b :: R' ++ tail)) =
        pre ++ st.before ++ { b with id := j } :: X ++ b :: (R' ++ tail) := by
      rw [hdone]
      simp only [append_assoc, cons_append]
    rw [hl, setStart_middle (by simpa only [append_assoc, cons_append] using h₁)]
    simp only [append_assoc, cons_append] at h₂ ⊢
    rw [← append_assoc] at h₂ ⊢
    rw [setEnd_middle h₂, htrim]
    simp only [append_assoc, nil_append]
  have hlast := hids (st.ahead b j) (st.behind b) rfl rfl
  refine ⟨_, heq, ?_, heq ▸ ?_⟩
  · refine hs.edited_right hG hr hM rfl hover (.inr ⟨rfl, hlt⟩) ?_
    refine hlast.sublist (List.Sublist.map _ ?_)
    simp only [append_assoc]
    refine Sublist.trans ?_ (sublist_append_right pre _)
    refine Sublist.append_left (.cons_cons _ (Sublist.append_left (.cons_cons _ ?_) X)) _
    exact sublist_append_left R' tail
  · rw [htrim]
    simpa only [append_assoc, cons_append, nil_append] using hlast

theorem split_spec {newFl2 : Option ℕ} (he : Ends st R tail (st', rest))
    (hpiece : ¬ st'.Stuck newFl2)
    (hj : ∀ j, newFl2 = some j → j ∉ (pre ++ (st.before ++ (D ++ X ++ (R ++ tail)))).map (·.id)) :
    EditedIn r pre (P ++ R) tail (splitLocks st' (pre ++ st.done) (X ++ rest) (newFl2.getD 0)) := by
  cases he with
  | clear hbehind => exact split_clear hG hs hr hM hD hnd hbehind
  | @right b R' hR ht hn hn' hend =>
    have hstart : b.flStart ≤ st.request.flEnd := by
      by_contra h
      exact hn' ⟨not_le.mp h, fun heq => (ht heq).elim⟩
    by_cases hlt : b.flStart < st.request.flStart
    · have hleft : (st.note b).left = some b := if_pos hlt
      rcases newFl2 with _ | j
      · exact (hpiece ⟨rfl, congrArg (Option.map (·.id)) hleft, rfl⟩).elim
      · exact split_both hG hs hr hM hD hnd hR ⟨ht, hstart, hend⟩ hlt (hj j rfl)
    · exact split_right hG hs hr hM hD hnd hR ⟨ht, hstart, hend⟩ (not_lt.mp hlt)

end Finish

section FinishSpec

variable {pre tail rest : List (FileLock ω)} {st' : Scan ω}

theorem Ends.same (he : Ends st R tail (st', rest)) :
    rest = R ++ tail ∧ st'.request = st.request ∧ st'.done = st.done := by
  cases he with
  | clear hbehind => exact ⟨rfl, rfl, rfl⟩
  | right hR ht hn hn' hend => exact ⟨rfl, rfl, rfl⟩

theorem Scanned.done_eq (hs : Scanned r P R st) :
    st.done = st.before ++ if st.aliased then [st.request] else [] := by
  rw [Scan.done, hs.after]

theorem Scanned.stands_done (hs : Scanned r P R st)
    (hkind : st.aliased = true ↔ r.flType ≠ .unlck) :
    Stands r st.request ((if st.aliased then [st.request] else []) ++ []) := by
  rcases ha : st.aliased with _ | _
  · have ht : r.flType = .unlck := by
      by_contra h
      exact Bool.false_ne_true (ha.symm.trans (hkind.mpr h))
    exact ⟨fun m hm => (by cases hm), ⟨fun _ => ht, fun _ => rfl⟩, Nat.zero_le _⟩
  · refine ⟨fun m hm => ?_, ⟨fun h => ?_, fun h => (hkind.mp ha h).elim⟩, le_rfl⟩
    · rw [mem_singleton.mp hm]
      exact ⟨hs.posix, hs.owner, hs.type, rfl, rfl⟩
    · cases h

variable {newFl newFl2 : Option ℕ}

theorem Scanned.stands_new (hs : Scanned r P R st) (hr : r.flType ≠ .unlck) (i : ℕ) :
    Stands r st.request ([] ++ [{ st.request with id := i }]) := by
  refine ⟨fun m hm => ?_, ⟨fun h => (by cases h), fun h => (hr h).elim⟩, le_rfl⟩
  rw [mem_singleton.mp hm]
  exact ⟨hs.posix, hs.owner, hs.type, rfl, rfl⟩

theorem Scanned.ids_done (hs : Scanned r P R st) :
    (List.map (fun fl => fl.id) (pre ++ (st.before ++ ((if st.aliased then [st.request] else []) ++
      [] ++ (R ++ tail))))).Sublist ((pre ++ (P ++ R ++ tail)).map fun fl => fl.id) := by
  have hlist : pre ++ (st.before ++ ((if st.aliased then [st.request] else []) ++ [] ++
      (R ++ tail))) = pre ++ (st.done ++ (R ++ tail)) := by
    rw [hs.done_eq]
    simp only [append_nil, append_assoc]
  rw [hlist, append_assoc P]
  simp only [map_append]
  exact Sublist.append_left (Sublist.append_right hs.ids _) _

section Cases

variable (hG : Group r.flOwner (P ++ R)) (hs : Scanned r P R st) (hr : r.flStart ≤ r.flEnd)
  (he : Ends st R tail (st', rest))
  (hnd : ((pre ++ (P ++ R ++ tail)).map (·.id)).Nodup)
  (hnew : ∀ i, newFl = some i → i ∉ (pre ++ (P ++ R ++ tail)).map (·.id))
  (hnew2 : ∀ j, newFl2 = some j → j ∉ (pre ++ (P ++ R ++ tail)).map (·.id) ∧ newFl ≠ some j)
include hG hs

omit hG in
theorem unedited (h : st.added = false) :
    pre ++ st.done ++ (R ++ tail) = pre ++ (P ++ R ++ tail) := by
  obtain ⟨hbefore, haliased⟩ := hs.fresh h
  rw [hs.done_eq, haliased, hbefore]
  simp only [Bool.false_eq_true, if_false, append_nil, append_assoc]

include he

theorem finish_enolck (h : st'.right.isSome ∧ st'.left.map (·.id) = st'.right.map (·.id)) :
    pre ++ st'.done ++ rest = pre ++ (P ++ R ++ tail) := by
  cases he with
  | clear hbehind =>
    rw [hs.right] at h
    cases h.1
  | @right b R' hR ht hn hn' hend =>
    have hlt : b.flStart < st.request.flStart := by
      by_contra hle
      have hleft : (st.note b).left = st.left := if_neg hle
      exact hs.left_ne hG (hR ▸ mem_cons_self) ((congrArg (Option.map (·.id)) hleft).symm.trans h.2)
    subst hR
    show pre ++ st.done ++ (b :: R' ++ tail) = _
    exact unedited hs (hs.pristine (hs.untouched hlt)).2.1

omit hG in
theorem unedited_ends (hadded : st'.added = false) :
    st.added = false ∧ ∀ pre, pre ++ st'.done ++ rest = pre ++ (P ++ R ++ tail) := by
  obtain ⟨hrest, -, hdone⟩ := he.same
  have hst : st.added = false := by
    cases he with
    | clear hbehind => exact hadded
    | right hR ht hn hn' hend => exact (Bool.or_eq_false_iff.mp hadded).1
  rw [hdone, hrest]
  exact ⟨hst, fun pre => unedited hs hst⟩

/-- A failure comes before the first edit. -/
theorem finish_fail (h : (finish pre st' rest newFl newFl2).1 ≠ .ok) :
    (finish pre st' rest newFl newFl2).2.1 = pre ++ (P ++ R ++ tail) := by
  unfold finish at h ⊢
  by_cases hpiece : st'.Stuck newFl2
  · rw [if_pos hpiece]
    exact finish_enolck hG hs he ⟨hpiece.1, hpiece.2.1⟩
  rw [if_neg hpiece] at h ⊢
  rcases hadded : st'.added with _ | _
  · have hsame := (unedited_ends hs he hadded).2 pre
    simp only [hadded] at h
    by_cases ht : st'.request.flType = .unlck
    · rw [if_pos ht]
      exact hsame
    rw [if_neg ht] at h ⊢
    cases newFl with
    | none => exact hsame
    | some i => exact (h rfl).elim
  · simp only [hadded] at h
    exact (h rfl).elim

include hr hnd

theorem finish_unlck (hadded : st'.added = false) (ht : r.flType = .unlck) :
    EditedIn r pre (P ++ R) tail (pre ++ (P ++ R ++ tail)) := by
  cases he with
  | clear hbehind =>
    obtain ⟨hleft, -⟩ := hs.idle (hs.quiet ht hadded)
    have hkind : st.aliased = true ↔ r.flType ≠ .unlck := by
      rw [(hs.fresh hadded).2, ht]
      simp
    have h := split_clear (j := 0) hG hs hr (hs.stands_done hkind) hs.done_eq
      (hs.ids_done.nodup hnd) hbehind
    rw [splitLocks, hs.right, hleft] at h
    rwa [← unedited hs hadded]
  | right hR htb hn hn' hend =>
    exact (of_decide_eq_false (Bool.or_eq_false_iff.mp hadded).2 (hs.type.trans ht)).elim

include hnew2

theorem finish_added (hpiece : ¬ st'.Stuck newFl2) (hadded : st'.added = true) :
    EditedIn r pre (P ++ R) tail (splitLocks st' (pre ++ st'.done) rest (newFl2.getD 0)) := by
  have hkind : st.aliased = true ↔ r.flType ≠ .unlck := by
    rcases hst : st.added with _ | _
    · have ht : r.flType = .unlck := by
        cases he with
        | clear hbehind => exact (Bool.false_ne_true (hst.symm.trans hadded)).elim
        | @right b R' hR ht hn hn' hend =>
          have hor : (st.added || decide (st.request.flType = .unlck)) = true := hadded
          rw [hst, Bool.false_or, decide_eq_true_eq] at hor
          exact hs.type.symm.trans hor
      rw [(hs.fresh hst).2, ht]
      simp
    · exact hs.kind hst
  rw [he.same.2.2]
  exact split_spec hG hs hr (hs.stands_done hkind) hs.done_eq
    (hs.ids_done.nodup hnd) he hpiece fun j hj hmem =>
      (hnew2 j hj).1 (hs.ids_done.subset hmem)

include hnew

theorem finish_new {i : ℕ} (hpiece : ¬ st'.Stuck newFl2) (hadded : st.added = false)
    (ht : r.flType ≠ .unlck) (hi : newFl = some i) :
    EditedIn r pre (P ++ R) tail (splitLocks st' (pre ++ st'.done)
      ({ st'.request with id := i } :: rest) (newFl2.getD 0)) := by
  obtain ⟨hrest, hreq, hdone⟩ := he.same
  obtain ⟨hbefore, haliased⟩ := hs.fresh hadded
  have hids : map (fun fl => fl.id) (pre ++ (st.before ++
      ([] ++ [{ st.request with id := i }] ++ (R ++ tail)))) =
      (pre ++ P).map (·.id) ++ i :: (R ++ tail).map (·.id) := by
    rw [hbefore]
    simp
  have hwhole : (pre ++ P).map (·.id) ++ (R ++ tail).map (·.id) =
      (pre ++ (P ++ R ++ tail)).map (·.id) := by
    simp
  have hD : st.done = st.before ++ [] := by
    rw [hs.done_eq, haliased]
    rfl
  rw [hdone, hreq]
  refine split_spec hG hs hr (hs.stands_new ht i) hD ?_ he
    hpiece fun j hj => ?_
  · rw [hids, nodup_middle, nodup_cons, hwhole]
    exact ⟨hnew i hi, hnd⟩
  · rw [hids, (perm_middle).mem_iff, mem_cons, hwhole, not_or]
    refine ⟨fun hji => (hnew2 j hj).2 (hji ▸ hi), (hnew2 j hj).1⟩

theorem finish_ok (h : (finish pre st' rest newFl newFl2).1 = .ok) :
    EditedIn r pre (P ++ R) tail (finish pre st' rest newFl newFl2).2.1 := by
  obtain ⟨-, hreq, -⟩ := he.same
  unfold finish at h ⊢
  by_cases hpiece : st'.Stuck newFl2
  · rw [if_pos hpiece] at h
    cases h
  rw [if_neg hpiece] at h ⊢
  rcases hadded : st'.added with _ | _
  · obtain ⟨hst, hsame⟩ := unedited_ends hs he hadded
    simp only [hadded] at h
    by_cases ht : st'.request.flType = .unlck
    · rw [if_pos ht, hsame pre]
      rw [hreq, hs.type] at ht
      exact finish_unlck hG hs hr he hnd hadded ht
    rw [if_neg ht] at h ⊢
    rw [hreq, hs.type] at ht
    rcases hnewFl : newFl with _ | i
    · rw [hnewFl] at h
      cases h
    · exact finish_new hG hs hr he hnd hnew hnew2 hpiece hst ht hnewFl
  · exact finish_added hG hs hr he hnd hnew2 hpiece hadded

end Cases

end FinishSpec

end LinuxKernel.Locks
