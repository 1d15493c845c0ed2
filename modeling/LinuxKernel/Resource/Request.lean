import LinuxKernel.Resource.Tree

/-! # Requesting and releasing resources

Both walk along the children of a node by the place that points to the next one, and write to the
place where they stop.
-/

namespace LinuxKernel.Resource

open Forest Function

variable {h : Heap} {root r p q new old fuel : ℕ} {F K a b : Forest ℕ}

section Place

/-- The place behind some of the children of a node. -/
def endPlace (r : ℕ) (a : Forest ℕ) : Place :=
  match a.last with
  | none => .child r
  | some t => .sibling t

theorem endPlace_node (k : Forest ℕ) : endPlace r (a ++ .node p k .nil) = .sibling p := by
  rw [endPlace, last_append_node]

theorem read_endPlace {m : Option ℕ} (hs : Seg h.child h.sibling (h.child r) a m) :
    h.read (endPlace r a) = m := by
  rw [endPlace]
  cases ht : a.last with
  | none =>
    rw [last_eq_none.mp ht] at hs
    exact hs
  | some t => exact hs.sibling_last ht

theorem seg_write {m m' : Option ℕ} (hs : Seg h.child h.sibling (h.child r) a m)
    (ha : a.nodes.Nodup) :
    Seg (h.write m' (endPlace r a)).child (h.write m' (endPlace r a)).sibling
      ((h.write m' (endPlace r a)).child r) a m' := by
  rw [endPlace]
  cases ht : a.last with
  | none =>
    rw [last_eq_none.mp ht]
    exact update_self r m' h.child
  | some t =>
    refine hs.relink ha (fun _ _ => rfl) (fun p _ hp => ?_) (fun t' ht' => ?_) (fun hn => ?_)
      fun _ => rfl
    · exact update_of_ne (fun hpt : p = t => hp (hpt ▸ ht)) _ _
    · rw [← Option.some.inj (ht.symm.trans ht')]
      exact update_self ..
    · rw [ht] at hn
      cases hn

theorem write_endPlace (m : Option ℕ) :
    (∀ q, q ≠ r → (h.write m (endPlace r a)).child q = h.child q) ∧
    (∀ q, q ∉ a.tops → (h.write m (endPlace r a)).sibling q = h.sibling q) ∧
    (h.write m (endPlace r a)).parent = h.parent ∧ (h.write m (endPlace r a)).start = h.start ∧
    (h.write m (endPlace r a)).stop = h.stop := by
  rw [endPlace]
  cases ht : a.last with
  | none => exact ⟨fun q hq => update_of_ne hq _ _, fun _ _ => rfl, rfl, rfl, rfl⟩
  | some t =>
    refine ⟨fun _ _ => rfl, fun q hq => update_of_ne ?_ _ _, rfl, rfl, rfl⟩
    exact fun hqt => hq (hqt ▸ mem_tops_of_last ht)

end Place

section Request

def linked (h : Heap) (r new : ℕ) (a : Forest ℕ) (next : Option ℕ) : Heap :=
  ((h.setSibling new next).write (some new) (endPlace r a)).setParent new (some r)

/-- What a request can find among the children of a node: a conflict, or room between them. -/
inductive Requested (h : Heap) (r new : ℕ) (K : Forest ℕ) : Option ℕ × Heap → Prop
  | conflict {a b k : Forest ℕ} {t : ℕ} : K = a ++ .node t k b →
      (∀ p ∈ a.tops, h.stop p < h.start new) → h.start t ≤ h.stop new → h.start new ≤ h.stop t →
      Requested h r new K (some t, h)
  | linked {a b : Forest ℕ} : K = a ++ b → (∀ p ∈ a.tops, h.stop p < h.start new) →
      (∀ p ∈ b.tops, h.stop new < h.start p) →
      Requested h r new K (none, linked h r new a b.tops.head?)

theorem requestLoop_spec (new : ℕ) {lo hi : ℕ}
    (hlinks : Seg h.child h.sibling (h.child r) (a ++ b) none)
    (hord : Ordered h.start h.stop lo hi (a ++ b)) (ha : ∀ p ∈ a.tops, h.stop p < h.start new)
    (hfuel : b.tops.length < fuel) :
    ∃ res, requestLoop h r new fuel (endPlace r a) = some res ∧ Requested h r new (a ++ b) res := by
  induction b generalizing a fuel with
  | nil =>
    obtain _ | fuel := fuel
    · cases hfuel
    rw [append_nil] at hlinks
    rw [requestLoop, read_endPlace hlinks]
    exact ⟨_, rfl, .linked rfl ha (by simp)⟩
  | node t k b _ ih =>
    obtain _ | fuel := fuel
    · cases hfuel
    obtain ⟨m, hm, ht, -, hb⟩ := seg_append.mp hlinks
    obtain ⟨-, ⟨⟨-, hle, -⟩, hgap, -, -⟩, -⟩ := Ordered.append_iff.mp hord
    rw [requestLoop, read_endPlace hm, ht]
    dsimp only
    split_ifs with h₁ h₂
    · refine ⟨_, rfl, .linked rfl ha (List.forall_mem_cons.mpr ⟨h₁, fun p hp => ?_⟩)⟩
      have := hgap p hp
      omega
    · have hassoc : a ++ .node t k b = a ++ .node t k .nil ++ b := by rw [append_assoc]; rfl
      rw [hassoc] at hlinks hord ⊢
      rw [← endPlace_node k]
      refine ih hlinks hord ?_ (by simpa using hfuel)
      rw [tops_append]
      exact List.forall_mem_append.mpr ⟨ha, List.forall_mem_singleton.mpr h₂⟩
    · exact ⟨_, rfl, .conflict rfl ha (by omega) (by omega)⟩

theorem requestResource_spec (new : ℕ) (hw : WellFormed h root F) (hr : r ∈ F.nodes)
    (hfuel : F.nodes.length < fuel) :
    ∃ res, requestResource fuel h r new = some res ∧
      (res = (some r, h) ∧ ¬ (h.start r ≤ h.start new ∧ h.start new ≤ h.stop new ∧
        h.stop new ≤ h.stop r) ∨
      (h.start r ≤ h.start new ∧ h.start new ≤ h.stop new ∧ h.stop new ≤ h.stop r) ∧
        Requested h r new (F.kids r) res) := by
  rw [requestResource]
  split_ifs with h₁ h₂ h₃
  · exact ⟨_, rfl, .inl ⟨rfl, by omega⟩⟩
  · exact ⟨_, rfl, .inl ⟨rfl, by omega⟩⟩
  · exact ⟨_, rfl, .inl ⟨rfl, by omega⟩⟩
  · have hlen := length_kids hr
    have := (F.kids r).length_tops_le
    obtain ⟨res, heq, hres⟩ := requestLoop_spec new (a := .nil) (hw.links.kids hr)
      (hw.ordered.kids hr) (by simp) (show _ < fuel by omega)
    exact ⟨res, heq, .inr ⟨by omega, hres⟩⟩

/-- The tree with a new resource between the children of a node. -/
theorem WellFormed.link (hw : WellFormed h root F) (hr : r ∈ F.nodes) (hnew : new ∉ F.nodes)
    (hchild : h.child new = none)
    (hin : h.start r ≤ h.start new ∧ h.start new ≤ h.stop new ∧ h.stop new ≤ h.stop r)
    (hK : F.kids r = a ++ b) (ha : ∀ p ∈ a.tops, h.stop p < h.start new)
    (hb : ∀ p ∈ b.tops, h.stop new < h.start p) :
    WellFormed (linked h r new a b.tops.head?) root (F.replace r (a ++ .node new .nil b)) := by
  have hsub : ∀ p ∈ (F.kids r).nodes, p ≠ new :=
    fun p hp => ne_of_mem_of_not_mem (kids_subset hp) hnew
  obtain ⟨hlinks, -, -, hna, -⟩ := hw.level hr hK
  rw [hK] at hsub
  rw [nodes_append] at hsub hna
  obtain ⟨m, hsa, -⟩ := seg_append.mp hlinks
  obtain ⟨hc, hs, hp, hst, hsp⟩ := write_endPlace
    (some new)
  have hst : (linked h r new a b.tops.head?).start = h.start := hst
  have hsp : (linked h r new a b.tops.head?).stop = h.stop := hsp
  refine hw.splice _ (M := .nil) (N := .node new .nil .nil) hr hK
    (fun p hpF _ => ?_) ?_ ⟨rfl, ?_, ?_⟩ ⟨update_self .., trivial, trivial⟩ ?_ ?_ ?_ (by simp) ?_
  · have hpn := ne_of_mem_of_not_mem hpF hnew
    refine ⟨⟨?_, congrFun hst p, congrFun hsp p⟩, hc p,
      fun hpa => (hs p hpa).trans (update_of_ne hpn ..)⟩
    exact (update_of_ne hpn ..).trans (congrFun hp p)
  · refine seg_write (hsa.congr fun p hp => ⟨rfl, ?_⟩)
      (List.nodup_append'.mp hna).1
    exact update_of_ne (hsub p (List.mem_append_left _ hp)) _ _
  · exact (hc new (ne_of_mem_of_not_mem hr hnew).symm).trans hchild
  · refine (hs new fun h => ?_).trans (update_self ..)
    exact hsub new (List.mem_append_left _ (mem_nodes_of_mem_tops h)) rfl
  · rw [hst, hsp]
    exact ⟨hin, by simp, trivial, trivial⟩
  · simpa [hst] using ha
  · simpa [hsp] using hb
  · simp [hnew]

end Request

section Release

/-- The heap after a child has been taken out of the list. -/
def unlinked (h : Heap) (r old : ℕ) (a : Forest ℕ) : Heap :=
  (h.write (h.sibling old) (endPlace r a)).setParent old none

theorem releaseLoop_spec {k : Forest ℕ} {c : Forest ℕ}
    (hlinks : Seg h.child h.sibling (h.child r) (a ++ (c ++ .node old k b)) none)
    (hc : old ∉ c.tops) (hfuel : c.tops.length < fuel) :
    releaseLoop h old fuel (endPlace r a) = some (none, unlinked h r old (a ++ c)) := by
  induction c generalizing a fuel with
  | nil =>
    obtain _ | fuel := fuel
    · cases hfuel
    obtain ⟨m, hm, ht, -⟩ := seg_append.mp hlinks
    rw [releaseLoop, read_endPlace hm, ht]
    dsimp only
    rw [if_pos rfl, append_nil, unlinked]
  | node t k' c _ ih =>
    obtain _ | fuel := fuel
    · cases hfuel
    obtain ⟨m, hm, ht, -⟩ := seg_append.mp hlinks
    obtain ⟨hne, hc⟩ := not_or.mp fun h => hc (List.mem_cons.mpr h)
    have hassoc (d : Forest ℕ) : a ++ .node t k' d = a ++ .node t k' .nil ++ d := by
      rw [append_assoc]
      rfl
    rw [node_append, hassoc] at hlinks
    rw [releaseLoop, read_endPlace hm, ht]
    dsimp only
    rw [if_neg (Ne.symm hne), ← endPlace_node k', hassoc c]
    exact ih hlinks hc (by simpa using hfuel)

variable (hw : WellFormed h root F)
include hw

theorem WellFormed.unlink {k : Forest ℕ} (hr : r ∈ F.nodes) (hK : F.kids r = a ++ .node old k b) :
    WellFormed (unlinked h r old a) root (F.replace r (a ++ b)) := by
  obtain ⟨hlinks, -, -, hna, -⟩ := hw.level hr hK
  rw [nodes_append] at hna
  obtain ⟨m, hsa, -, -, hsb⟩ := seg_append.mp hlinks
  obtain ⟨hc, hs, hp, hst, hsp⟩ := write_endPlace (h.sibling old)
  refine hw.splice _ (M := .node old k .nil) (N := .nil) hr hK (fun p _ hpm => ?_)
    (seg_write hsa (List.nodup_append'.mp hna).1) hsb.eq_head? trivial trivial (by simp) (by simp)
    (by simp) (by simp)
  have hne : p ≠ old := fun heq => hpm (by simp [heq])
  exact ⟨⟨(update_of_ne hne ..).trans (congrFun hp p), congrFun hst p, congrFun hsp p⟩, hc p, hs p⟩

theorem WellFormed.exists_parent (hp : p ∈ F.nodes) (hne : p ≠ root) :
    ∃ r ∈ F.nodes, h.parent p = some r ∧ ∃ a k b, F.kids r = a ++ .node p k b := by
  rcases Forest.exists_parent hw.nodup hp with ht | ⟨r, hr, ht⟩
  · rw [hw.tops] at ht
    exact absurd (List.mem_singleton.mp ht) hne
  · exact ⟨r, hr, (hw.parents.kids hr).of_mem_tops ht, split_of_mem_tops ht⟩

theorem releaseResource_spec (hold : old ∈ F.nodes) (hne : old ≠ root)
    (hfuel : F.nodes.length < fuel) :
    ∃ r a k b, r ∈ F.nodes ∧ F.kids r = a ++ .node old k b ∧
      releaseResource fuel h old = some (none, unlinked h r old a) ∧
      WellFormed (unlinked h r old a) root (F.replace r (a ++ b)) := by
  obtain ⟨r, hr, hpar, a, k, b, hK⟩ := hw.exists_parent hold hne
  refine ⟨r, a, k, b, hr, hK, ?_, hw.unlink hr hK⟩
  obtain ⟨hlinks, -, -, hnodup, -⟩ := hw.level hr hK
  have hlen := length_kids hr
  rw [hK] at hlen
  rw [nodes_append] at hnodup hlen
  rw [releaseResource, hpar]
  refine releaseLoop_spec (a := .nil) hlinks (fun hmem => ?_) ?_
  · exact (List.nodup_append'.mp hnodup).2.2 (mem_nodes_of_mem_tops hmem) (by simp)
  · have := a.length_tops_le
    rw [List.length_append] at hlen
    omega

end Release

end LinuxKernel.Resource
