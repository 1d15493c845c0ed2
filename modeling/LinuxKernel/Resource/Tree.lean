import LinuxKernel.Base.Forest
import LinuxKernel.Resource.Model

/-! # Well-formed trees of resources

The pointers lay out a tree in which the children of a node are sorted, disjoint and inside of it.
What an operation does to such a tree is to replace the children of one node.
-/

namespace LinuxKernel.Resource

open Forest List

variable {root r p q : ℕ} {F K a b : Forest ℕ} {lo hi lo' hi' : ℕ}
  {start stop start' stop' : ℕ → ℕ}

section Ordered

/-- The trees of a forest are not empty, inside of a range, sorted and disjoint, and so are the
trees below every node. -/
def Ordered (start stop : ℕ → ℕ) : ℕ → ℕ → Forest ℕ → Prop
  | _, _, .nil => True
  | lo, hi, .node p kids rest => (lo ≤ start p ∧ start p ≤ stop p ∧ stop p ≤ hi) ∧
      (∀ q ∈ rest.tops, stop p < start q) ∧ Ordered start stop (start p) (stop p) kids ∧
      Ordered start stop lo hi rest

namespace Ordered

theorem append_iff : Ordered start stop lo hi (a ++ b) ↔ Ordered start stop lo hi a ∧
    Ordered start stop lo hi b ∧ ∀ p ∈ a.tops, ∀ q ∈ b.tops, stop p < start q := by
  induction a with
  | nil => simp [Ordered]
  | node p kids rest _ ih =>
    rw [node_append, Ordered, Ordered, tops_append, tops_node]
    simp only [mem_append, forall_mem_cons, or_imp, forall_and]
    tauto

variable (h : Ordered start stop lo hi F)
include h

theorem congr (hsame : ∀ p ∈ F.nodes, start' p = start p ∧ stop' p = stop p) :
    Ordered start' stop' lo hi F := by
  induction F generalizing lo hi with
  | nil => trivial
  | node p kids rest ih₁ ih₂ =>
    obtain ⟨hp, hgap, hk, hr⟩ := h
    obtain ⟨⟨h₁, h₂⟩, hsk, hsr⟩ := forall_node.mp hsame
    refine ⟨by rwa [h₁, h₂], fun q hq => ?_, ?_, ih₂ hr hsr⟩
    · rw [h₂, (hsr q (mem_nodes_of_mem_tops hq)).1]
      exact hgap q hq
    · rw [h₁, h₂]
      exact ih₁ hk hsk

theorem range (hF : ∀ p ∈ F.tops, lo' ≤ start p ∧ stop p ≤ hi') : Ordered start stop lo' hi' F := by
  induction F with
  | nil => trivial
  | node p kids rest _ ih =>
    obtain ⟨hp, hgap, hk, hr⟩ := h
    obtain ⟨hp', hF⟩ := forall_mem_cons.mp hF
    exact ⟨⟨hp'.1, hp.2.1, hp'.2⟩, hgap, hk, ih hr hF⟩

theorem bounds (hp : p ∈ F.nodes) : lo ≤ start p ∧ start p ≤ stop p ∧ stop p ≤ hi := by
  induction F generalizing lo hi with
  | nil => simp at hp
  | node q kids rest ih₁ ih₂ =>
    obtain ⟨hq, -, hk, hr⟩ := h
    rcases mem_node.mp hp with rfl | hp | hp
    · exact hq
    · have := ih₁ hk hp
      omega
    · exact ih₂ hr hp

theorem kids (hr : r ∈ F.nodes) : Ordered start stop (start r) (stop r) (F.kids r) :=
  kids_ind (P := fun F => ∃ lo hi, Ordered start stop lo hi F)

    (fun ⟨_, _, _, _, hk, hb⟩ => ⟨hk, _, _, hb⟩) (fun h => ⟨_, _, h⟩) ⟨_, _, h⟩ hr

theorem exists_top (hF : F.nodes.Nodup) (hq : q ∈ F.nodes) :
    ∃ t ∈ F.tops, (q = t ∨ q ∈ (F.kids t).nodes) ∧ start t ≤ start q ∧ stop q ≤ stop t := by
  induction F with
  | nil => simp at hq
  | node p kids' rest _ ih =>
    obtain ⟨-, -, hk, hrest⟩ := h
    rcases mem_node.mp hq with rfl | hq | hq
    · exact ⟨q, by simp, .inl rfl, Nat.le_refl _, Nat.le_refl _⟩
    · obtain ⟨hlo, -, hhi⟩ := hk.bounds hq
      exact ⟨p, by simp, .inr (by rwa [Forest.kids, if_pos rfl]), hlo, hhi⟩
    · obtain ⟨t, ht, hqt, hrange⟩ := ih hrest (nodup_node.mp hF).2.2.2.1 hq
      exact ⟨t, by simp [ht], by rwa [kids_behind hF (mem_nodes_of_mem_tops ht)], hrange⟩

theorem tops_eq {x : ℕ} (hp : p ∈ F.tops) (hq : q ∈ F.tops)
    (hpx : start p ≤ x ∧ x ≤ stop p) (hqx : start q ≤ x ∧ x ≤ stop q) : p = q := by
  induction F with
  | nil => simp at hp
  | node t kids rest _ ih =>
    obtain ⟨-, hgap, -, hr⟩ := h
    rcases mem_cons.mp hp with hpt | hp' <;> rcases mem_cons.mp hq with hqt | hq'
    · exact hpt.trans hqt.symm
    · have := hgap q hq'
      rw [← hpt] at this
      omega
    · have := hgap p hp'
      rw [← hqt] at this
      omega
    · exact ih hr hp' hq'

theorem replace (hF : F.nodes.Nodup) (hr : r ∈ F.nodes)
    (hsame : ∀ p ∈ F.nodes, p ∉ (F.kids r).nodes → start' p = start p ∧ stop' p = stop p)
    (hK : Ordered start' stop' (start r) (stop r) K) :
    Ordered start' stop' lo hi (F.replace r K) := by
  refine replace_ind (R := fun F G => ∀ {lo hi}, Ordered start stop lo hi F →
    Ordered start' stop' lo hi G) hF hr hsame ?_ ?_ ?_ h
  · exact fun ha _ _ h => h.congr fun q hq => (ha q hq).2
  · rintro a b hs hsb hb lo hi ⟨hp, hgap, -, hrest⟩
    rw [← hs.1, ← hs.2] at hK hp
    refine ⟨hp, fun q hq => ?_, hK, hb hrest⟩
    rw [hs.2, (hsb q hq).1]
    exact hgap q hq
  · rintro p a a' b b' - hs hsb htops ha hb lo hi ⟨hp, hgap, hk, hrest⟩
    rw [← hs.1, ← hs.2] at hk hp
    refine ⟨hp, fun q hq => ?_, ha hk, hb hrest⟩
    rw [htops] at hq
    rw [hs.2, (hsb q hq).1]
    exact hgap q hq

end Ordered

end Ordered

section WellFormed

variable {h h' : Heap}

/-- The tree below `root`, laid out by the pointers. -/
structure WellFormed (h : Heap) (root : ℕ) (F : Forest ℕ) : Prop where
  tops : F.tops = [root]
  links : Seg h.child h.sibling (some root) F none
  parents : Parents h.parent none F
  nodup : F.nodes.Nodup
  ordered : Ordered h.start h.stop (h.start root) (h.stop root) F

namespace WellFormed

theorem root_mem (hw : WellFormed h root F) : root ∈ F.nodes :=
  mem_nodes_of_mem_tops (by rw [hw.tops]; exact mem_singleton_self root)

/-- The children of one node. -/
structure Level (h : Heap) (r : ℕ) (K : Forest ℕ) : Prop where
  links : Seg h.child h.sibling (h.child r) K none
  parents : Parents h.parent (some r) K
  ordered : Ordered h.start h.stop (h.start r) (h.stop r) K
  nodup : K.nodes.Nodup
  not_mem : r ∉ K.nodes

theorem level (hw : WellFormed h root F) (hr : r ∈ F.nodes) (hK : F.kids r = K) : Level h r K := by
  subst hK
  exact ⟨hw.links.kids hr, hw.parents.kids hr, hw.ordered.kids hr, kids_nodup hw.nodup,
    not_mem_kids hw.nodup⟩

/-- The children of one node are replaced, and nothing but them is changed. -/
theorem replace (h' : Heap) (hw : WellFormed h root F) (hr : r ∈ F.nodes)
    (hchild : ∀ p ∈ F.nodes, p ∉ (F.kids r).nodes → p ≠ r → h'.child p = h.child p)
    (hsame : ∀ p ∈ F.nodes, p ∉ (F.kids r).nodes → h'.sibling p = h.sibling p ∧
      h'.parent p = h.parent p ∧ h'.start p = h.start p ∧ h'.stop p = h.stop p)
    (hlinks : Seg h'.child h'.sibling (h'.child r) K none) (hparents : Parents h'.parent (some r) K)
    (hordered : Ordered h'.start h'.stop (h.start r) (h.stop r) K) (hnodup : K.nodes.Nodup)
    (hmem : ∀ p ∈ K.nodes, p ∈ F.nodes → p ∈ (F.kids r).nodes) :
    WellFormed h' root (F.replace r K) := by
  refine ⟨tops_replace.trans hw.tops, ?_, ?_, ?_, ?_⟩
  · exact hw.links.replace hw.nodup hr (fun p hp hk => ⟨hchild p hp hk, (hsame p hp hk).1⟩) hlinks
  · exact hw.parents.replace hw.nodup hr (fun p hp hk => (hsame p hp hk).2.1) hparents
  · obtain ⟨A, -, hA, hK⟩ := nodes_perm F r
    obtain ⟨hnA, -, hd⟩ := nodup_append'.mp (hA.nodup_iff.mp hw.nodup)
    refine ((hK hr).2 K).nodup_iff.mpr (nodup_append'.mpr ⟨hnA, hnodup, fun p hp hpK => ?_⟩)
    exact hd hp (hmem p hpK (hA.mem_iff.mpr (mem_append_left _ hp)))
  · have hroot := hsame root hw.root_mem
      (not_mem_kids_of_mem_tops hw.nodup (by rw [hw.tops]; exact mem_singleton_self root))
    rw [hroot.2.2.1, hroot.2.2.2]
    exact hw.ordered.replace hw.nodup hr (fun p hp hk => (hsame p hp hk).2.2) hordered

/-- Some neighbours among the children of a node are replaced. Besides them only the pointer to the
first of them is changed. -/
theorem splice (h' : Heap) {m : Option ℕ} {M N : Forest ℕ} (hw : WellFormed h root F)
    (hr : r ∈ F.nodes) (hK : F.kids r = a ++ (M ++ b))
    (hsame : ∀ p ∈ F.nodes, p ∉ M.nodes → (h'.parent p = h.parent p ∧ h'.start p = h.start p ∧
      h'.stop p = h.stop p) ∧ (p ≠ r → h'.child p = h.child p) ∧
      (p ∉ a.tops → h'.sibling p = h.sibling p))
    (hlead : Seg h'.child h'.sibling (h'.child r) a m)
    (hlinks : Seg h'.child h'.sibling m N b.tops.head?) (hparents : Parents h'.parent (some r) N)
    (hordered : Ordered h'.start h'.stop (h.start r) (h.stop r) N)
    (hbefore : ∀ p ∈ a.tops, ∀ q ∈ N.tops, h.stop p < h'.start q)
    (hbehind : ∀ p ∈ N.tops, ∀ q ∈ b.tops, h'.stop p < h.start q) (hnodup : N.nodes.Nodup)
    (hmem : ∀ p ∈ N.nodes, p ∈ F.nodes → p ∈ M.nodes) :
    WellFormed h' root (F.replace r (a ++ (N ++ b))) := by
  obtain ⟨hs, hp, ho, hnd, hrK⟩ := hw.level hr hK
  have hsub : ∀ p ∈ (F.kids r).nodes, p ∈ F.nodes := fun p => kids_subset
  rw [hK] at hsub
  rw [nodes_append, nodes_append] at hnd hrK hsub
  obtain ⟨_, -, hsm⟩ := seg_append.mp hs
  obtain ⟨_, -, hsb⟩ := seg_append.mp hsm
  obtain ⟨hpa, hpm⟩ := parents_append.mp hp
  obtain ⟨hoa, hom, hgap⟩ := Ordered.append_iff.mp ho
  obtain ⟨-, hob, -⟩ := Ordered.append_iff.mp hom
  obtain ⟨hna, hnm, hda⟩ := nodup_append'.mp hnd
  obtain ⟨-, hnb, hdb⟩ := nodup_append'.mp hnm
  have hina := fun p (hp : p ∈ a.nodes) => hsame p (hsub p (by simp [hp])) fun h =>
    hda hp (by simp [h])
  have hinb := fun p (hp : p ∈ b.nodes) => hsame p (hsub p (by simp [hp])) fun h => hdb h hp
  have hout : ∀ p ∉ (F.kids r).nodes, p ∉ a.nodes ∧ p ∉ M.nodes ∧ p ∉ b.nodes := by
    simp [hK]
  refine hw.replace _ hr ?_ ?_ ?_ ?_ ?_ ?_ ?_
  · exact fun p hp hpK => (hsame p hp (hout p hpK).2.1).2.1
  · intro p hp hpK
    obtain ⟨hpar, -, hsib⟩ := hsame p hp (hout p hpK).2.1
    exact ⟨hsib fun h => (hout p hpK).1 (mem_nodes_of_mem_tops h), hpar⟩
  · refine seg_append.mpr ⟨m, hlead, seg_append.mpr ⟨_, hlinks, ?_⟩⟩
    rw [← hsb.eq_head?]
    refine hsb.congr fun p hp => ⟨(hinb p hp).2.1 ?_, (hinb p hp).2.2 fun hpa => ?_⟩
    · exact fun heq => hrK (by simp [← heq, hp])
    · exact hda (mem_nodes_of_mem_tops hpa) (by simp [hp])
  · refine parents_append.mpr ⟨hpa.congr fun p hp => (hina p hp).1.1,
      parents_append.mpr ⟨hparents, ?_⟩⟩
    exact (parents_append.mp hpm).2.congr fun p hp => (hinb p hp).1.1
  · refine Ordered.append_iff.mpr ⟨hoa.congr fun p hp => (hina p hp).1.2,
      Ordered.append_iff.mpr ⟨hordered, hob.congr fun p hp => (hinb p hp).1.2,
      fun p hp q hq => ?_⟩, ?_⟩
    · rw [(hinb q (mem_nodes_of_mem_tops hq)).1.2.1]
      exact hbehind p hp q hq
    · intro p hp q hq
      rw [(hina p (mem_nodes_of_mem_tops hp)).1.2.2]
      rw [tops_append] at hq
      rcases mem_append.mp hq with hq | hq
      · exact hbefore p hp q hq
      · rw [(hinb q (mem_nodes_of_mem_tops hq)).1.2.1]
        exact hgap p hp q (by simp [hq])
  · rw [nodes_append, nodes_append]
    refine nodup_append'.mpr ⟨hna, nodup_append'.mpr ⟨hnodup, hnb, fun p hp hpb => ?_⟩, ?_⟩
    · exact hdb (hmem p hp (hsub p (by simp [hpb]))) hpb
    · intro p hp hp'
      rcases mem_append.mp hp' with hp' | hp'
      · exact hda hp (by simp [hmem p hp' (hsub p (by simp [hp]))])
      · exact hda hp (by simp [hp'])
  · intro p hp hpF
    rw [hK]
    simp only [nodes_append, mem_append] at hp ⊢
    rcases hp with hp | hp | hp
    · exact .inl hp
    · exact .inr (.inl (hmem p hp hpF))
    · exact .inr (.inr hp)

end WellFormed

end WellFormed

end LinuxKernel.Resource
