import LinuxKernel.Resource.Insert

/-! # Every operation keeps the tree well formed

With the expansion of resources and the adjustment of their ranges, which change ranges as well as
links.
-/

namespace LinuxKernel.Resource

open Forest Function List Option

variable {h h' : Heap} {root r p q new res fuel s e size : ℕ} {F K a b mid k : Forest ℕ} {lo hi : ℕ}

section Expand

theorem setRange_setRange {s' e' : ℕ} :
    (h.setRange p s e).setRange p s' e' = h.setRange p s' e' := by
  simp [Heap.setRange]

theorem setRange_self : h.setRange p (h.start p) (h.stop p) = h := by
  simp [Heap.setRange]

theorem WellFormed.congr (hw : WellFormed h root F) (hsame : ∀ p ∈ F.nodes,
    (h'.child p = h.child p ∧ h'.sibling p = h.sibling p) ∧ h'.parent p = h.parent p ∧
      h'.start p = h.start p ∧ h'.stop p = h.stop p) : WellFormed h' root F := by
  obtain ⟨-, -, h₁, h₂⟩ := hsame root hw.root_mem
  refine ⟨hw.tops, hw.links.congr fun p hp => (hsame p hp).1,
    hw.parents.congr fun p hp => (hsame p hp).2.1, hw.nodup, ?_⟩
  rw [h₁, h₂]
  exact hw.ordered.congr fun p hp => (hsame p hp).2.2

theorem WellFormed.setRange (hw : WellFormed h root F) (hp : p ∉ F.nodes) :
    WellFormed (h.setRange p s e) root F := by
  refine hw.congr fun q hq => ?_
  have hne := ne_of_mem_of_not_mem hq hp
  exact ⟨⟨rfl, rfl⟩, rfl, update_of_ne hne .., update_of_ne hne ..⟩

/-- The result of an expansion: the resource is in the tree with a range that covers its own, or
its range is outside of the node and nothing but it has changed. -/
inductive Expanded (h : Heap) (root : ℕ) (F : Forest ℕ) (r new : ℕ) : Heap → Prop
  | outside (s e : ℕ) : Expanded h root F r new (h.setRange new s e)
  | placed {s e parent : ℕ} {a mid b : Forest ℕ} {h' : Heap} : s ≤ h.start new → h.stop new ≤ e →
      Placed (h.setRange new s e) F r new parent a mid b →
      WellFormed h' root (F.replace parent (a ++ .node new mid b)) → Expanded h root F r new h'

theorem Expanded.widen {s e : ℕ} (hs : s ≤ h.start new) (he : h.stop new ≤ e)
    (hx : Expanded (h.setRange new s e) root F r new h') : Expanded h root F r new h' := by
  cases hx with
  | outside s' e' =>
    rw [setRange_setRange]
    exact .outside s' e'
  | @placed s' e' r a mid b h' hs' he' hp hw =>
    rw [setRange_setRange] at hp
    simp only [Heap.setRange, update_self] at hs' he'
    exact .placed (by omega) (by omega) hp hw

/-- Every round that ends with a conflict leaves less of the node uncovered. -/
theorem expandLoop_spec {n : ℕ} (hw : WellFormed h root F) (hr : r ∈ F.nodes) (hnew : new ∉ F.nodes)
    (hchild : h.child new = none) (hfuel : F.nodes.length < fuel) (hpos : 0 < n)
    (hn : h.start r ≤ h.start new → h.start new ≤ h.stop new → h.stop new ≤ h.stop r →
      (h.start new - h.start r) + (h.stop r - h.stop new) < n) :
    ∃ h', expandLoop fuel r new n h = some h' ∧ Expanded h root F r new h' := by
  induction n generalizing h with
  | zero => omega
  | succ n ih =>
    have hlen := Nat.lt_trans (length_kids hr) hfuel
    obtain ⟨res, heq, hres⟩ := insertLoop_spec hw hr hnew hchild hfuel hlen
    rw [expandLoop, insertResource, heq, bind_some]
    cases hres with
    | outside _ =>
      dsimp only
      rw [if_pos rfl]
      refine ⟨_, rfl, ?_⟩
      nth_rewrite 2 [← setRange_self (h := h)]
      exact .outside _ _
    | placed hp hw' =>
      refine ⟨_, rfl, .placed (Nat.le_refl _) (Nat.le_refl _) ?_ hw'⟩
      rwa [setRange_self]
    | @conflict t ht hin hout =>
      have hne : t ≠ r := ne_of_mem_of_not_mem ht (not_mem_kids hw.nodup)
      obtain ⟨hlo, -, hhi⟩ := (hw.ordered.kids hr).bounds ht
      have hrne : r ≠ new := ne_of_mem_of_not_mem hr hnew
      dsimp only
      rw [if_neg hne]
      generalize hs : (if h.start t < h.start new then h.start t else h.start new) = s
      generalize he : (if h.stop t > h.stop new then h.stop t else h.stop new) = e
      have hse : s ≤ h.start new ∧ h.stop new ≤ e ∧ h.start r ≤ s ∧ e ≤ h.stop r ∧
          (s < h.start new ∨ h.stop new < e) := by
        split_ifs at hs he <;> omega
      have hless : (h.setRange new s e).start new - (h.setRange new s e).start r +
          ((h.setRange new s e).stop r - (h.setRange new s e).stop new) < n := by
        simp only [Heap.setRange, update_self, update_of_ne hrne]
        omega
      obtain ⟨h', heq', hx⟩ := ih (hw.setRange hnew) hchild (by omega) fun _ _ _ => hless
      exact ⟨h', heq', hx.widen hse.1 hse.2.1⟩

end Expand

section Adjust

theorem childrenFit_spec (s e : ℕ) {ptr : Option ℕ} (hlinks : Seg h.child h.sibling ptr K none)
    (hfuel : K.tops.length ≤ fuel) : childrenFit h s e fuel ptr =
      some (decide (∀ p ∈ K.tops, s ≤ h.start p ∧ h.stop p ≤ e)) := by
  induction K generalizing ptr fuel with
  | nil =>
    obtain rfl : ptr = none := hlinks
    rw [childrenFit]
    simp
  | node t k rest _ ih =>
    obtain ⟨rfl, -, hrest⟩ := hlinks
    obtain _ | fuel := fuel
    · cases hfuel
    rw [childrenFit, ih hrest (by simpa using hfuel), tops_node]
    simp only [forall_mem_cons]
    split_ifs with hout
    · rw [decide_eq_false (by omega)]
    · congr 1
      exact decide_eq_decide.mpr ⟨fun h => ⟨by omega, h⟩, fun h => h.2⟩

theorem Ordered.stop_le_last {t : ℕ} (ho : Ordered h.start h.stop lo hi a) (ht : a.last = some t)
    (hp : p ∈ a.tops) : h.stop p ≤ h.stop t := by
  obtain ⟨a, k, rfl⟩ := eq_append_of_last ht
  obtain ⟨-, ⟨⟨-, hle, -⟩, -⟩, hgap⟩ := Ordered.append_iff.mp ho
  rw [tops_append] at hp
  rcases mem_append.mp hp with hp | hp
  · have := hgap p hp t (by simp)
    omega
  · exact Nat.le_of_eq (congrArg h.stop (mem_singleton.mp hp))

theorem Ordered.head_le_start {t : ℕ} (ho : Ordered h.start h.stop lo hi b)
    (ht : b.tops.head? = some t) (hp : p ∈ b.tops) : h.start t ≤ h.start p := by
  cases b with
  | nil => simp at hp
  | node q k rest =>
    obtain ⟨hq, hgap, -, -⟩ := ho
    obtain rfl : q = t := by simpa using ht
    rcases mem_cons.mp hp with rfl | hp
    · exact Nat.le_refl _
    · have := hgap p hp
      omega

/-- The range of a child is changed, with room for it and for what is below it. -/
theorem WellFormed.adjust (hw : WellFormed h root F) (hr : r ∈ F.nodes)
    (hK : F.kids r = a ++ .node res k b) (hse : h.start r ≤ s ∧ s ≤ e ∧ e ≤ h.stop r)
    (hkids : ∀ p ∈ k.tops, s ≤ h.start p ∧ h.stop p ≤ e) (ha : ∀ p ∈ a.tops, h.stop p < s)
    (hb : ∀ p ∈ b.tops, e < h.start p) : WellFormed (h.setRange res s e) root F := by
  obtain ⟨hlinks, hparents, hord, hnodup, -⟩ := hw.level hr hK
  obtain ⟨m, hsa, hm, hsk, hsb⟩ := seg_append.mp hlinks
  obtain ⟨-, hpar, hpk, -⟩ := parents_append.mp hparents
  obtain ⟨-, ⟨-, -, hok, -⟩, -⟩ := Ordered.append_iff.mp hord
  rw [nodes_append, nodup_append', nodup_node] at hnodup
  obtain ⟨-, ⟨hres, -, hnk, -⟩, -⟩ := hnodup
  have hsame {q : ℕ} (hq : q ≠ res) : (h.setRange res s e).start q = h.start q ∧
      (h.setRange res s e).stop q = h.stop q := ⟨update_of_ne hq _ _, update_of_ne hq _ _⟩
  have hstart : (h.setRange res s e).start res = s := update_self ..
  have hstop : (h.setRange res s e).stop res = e := update_self ..
  have key := hw.splice (h.setRange res s e) (N := .node res k .nil) hr hK
    (fun p _ hp => ⟨⟨rfl, hsame fun heq => hp (by simp [heq])⟩, fun _ => rfl, fun _ => rfl⟩) hsa
    ⟨hm, hsk, hsb.eq_head?⟩ ⟨hpar, hpk, trivial⟩ ⟨by rwa [hstart, hstop], by simp, ?_, trivial⟩
    (by simpa [hstart] using ha) (by simpa [hstop] using hb) (by simp [hres, hnk]) fun p hp _ => hp
  · rwa [node_append, Forest.nil_append, ← hK, replace_kids] at key
  · rw [hstart, hstop]
    exact (hok.range hkids).congr fun q hq => hsame (ne_of_mem_of_not_mem hq hres)

theorem adjustResource_spec (hw : WellFormed h root F) (hres : res ∈ F.nodes) (hne : res ≠ root)
    (hsize : 0 < size) (hwrap : s + size ≤ 2 ^ 64) (hfuel : F.nodes.length < fuel) :
    adjustResource fuel h res s size = some (some .ebusy, h) ∨
    adjustResource fuel h res s size = some (none, h.setRange res s (s + size - 1)) ∧
      WellFormed (h.setRange res s (s + size - 1)) root F := by
  obtain ⟨r, hr, hpar, a, k, b, hK⟩ := hw.exists_parent hres hne
  obtain ⟨hlinks, -, hord, hnodup, -⟩ := hw.level hr hK
  have hkids : F.kids res = k := by
    rw [kids_kids hw.nodup (r := r) (by simp [hK]), hK, kids_of_mem_tops hnodup rfl]
  have hseg := hw.links.kids hres
  have hlen := length_kids hr
  have hlenk := length_kids hres
  rw [hkids] at hseg hlenk
  rw [hK] at hlen
  rw [nodes_append] at hnodup
  have hstop : (s + size + 2 ^ 64 - 1) % 2 ^ 64 = s + size - 1 := by omega
  obtain ⟨m, hsa, hm, -, hsb⟩ := seg_append.mp hlinks
  obtain ⟨hoa, ⟨-, -, -, hob⟩, -⟩ := Ordered.append_iff.mp hord
  have hfit := childrenFit_spec s (s + size - 1) hseg
    (show k.tops.length ≤ fuel by have := k.length_tops_le; omega)
  have hsib : h.sibling res = b.tops.head? := hsb.eq_head?
  -- the range that was asked for, once everything that can be in its way has been looked at
  have hdone (hse : h.start r ≤ s ∧ s + size - 1 ≤ h.stop r)
      (hk : ∀ p ∈ k.tops, s ≤ h.start p ∧ h.stop p ≤ s + size - 1)
      (hb : ¬ (h.sibling res).any (h.start · ≤ s + size - 1)) (ha : ∀ p ∈ a.tops, h.stop p < s) :
      WellFormed (h.setRange res s (s + size - 1)) root F := by
    refine hw.adjust hr hK ⟨hse.1, by omega, hse.2⟩ hk ha fun p hp => ?_
    cases hhead : b.tops.head? with
    | none =>
      rw [head?_eq_none_iff.mp hhead] at hp
      cases hp
    | some t =>
      rw [hsib, hhead] at hb
      have := hob.head_le_start hhead hp
      have : ¬ h.start t ≤ s + size - 1 := by simpa using hb
      omega
  simp only [adjustResource, hpar, hstop, hfit, bind_eq_bind, bind_some]
  split_ifs with h₁ h₂ h₃
  · exact .inl rfl
  · exact .inl rfl
  · exact .inl rfl
  · have hk : ∀ p ∈ k.tops, s ≤ h.start p ∧ h.stop p ≤ s + size - 1 := by simpa using h₂
    cases hl : a.last with
    | none =>
      obtain rfl := last_eq_none.mp hl
      have hc : h.child r = some res := hsa.trans hm
      rw [hc, bind_some, if_pos rfl]
      exact .inr ⟨rfl, hdone (by omega) hk h₃ (by simp)⟩
    | some t =>
      obtain ⟨hna, -, hdis⟩ := nodup_append'.mp hnodup
      have hres' : res ∉ a.tops := fun h => hdis (mem_nodes_of_mem_tops h) (by simp)
      obtain ⟨head, hhead, hc⟩ := hsa.exists_head hl
      have hlena : a.tops.length ≤ fuel := by
        have := a.length_tops_le
        simp only [nodes_append, length_append] at hlen
        omega
      rw [hc, hm] at hsa
      rw [hc, bind_some, if_neg (ne_of_mem_of_not_mem hhead hres'),
        previous_spec hsa hl hres' hlena, bind_some]
      split_ifs with h₄
      · exact .inl rfl
      · refine .inr ⟨rfl, hdone (by omega) hk h₃ fun p hp => ?_⟩
        have := hoa.stop_le_last hl hp
        omega

end Adjust

/-- Every operation keeps a tree well formed. A conflict leaves it as it was. An insertion puts the
resource under the deepest node that it is inside of, with exactly the former children that are
inside of it below it; the node from which the search starts may also have the same range. -/
theorem resource_tree_operations (hw : WellFormed h root F) (hfuel : F.nodes.length < fuel) :
    -- `__request_resource`
    (∀ r ∈ F.nodes, ∀ new ∉ F.nodes, h.child new = none →
      ∃ conflict h', requestResource fuel h r new = some (conflict, h') ∧
        (conflict ≠ none → h' = h) ∧
        (conflict = none → ∃ a b, F.kids r = a ++ b ∧
          WellFormed h' root (F.replace r (a ++ .node new .nil b)))) ∧
    -- `__insert_resource`
    (∀ r ∈ F.nodes, ∀ new ∉ F.nodes, h.child new = none →
      ∃ conflict h', insertResource fuel h r new = some (conflict, h') ∧
        (conflict ≠ none → h' = h) ∧
        (conflict = none → ∃ parent a mid b, Placed h F r new parent a mid b ∧
          WellFormed h' root (F.replace parent (a ++ .node new mid b)))) ∧
    -- `__release_resource`
    (∀ old ∈ F.nodes, old ≠ root →
      ∃ h' parent a k b, releaseResource fuel h old = some (none, h') ∧
        F.kids parent = a ++ .node old k b ∧ WellFormed h' root (F.replace parent (a ++ b))) ∧
    -- `adjust_resource`
    (∀ res ∈ F.nodes, res ≠ root → ∀ start size, 0 < size → start + size ≤ 2 ^ 64 →
      ∃ err h', adjustResource fuel h res start size = some (err, h') ∧
        (err ≠ none → h' = h) ∧ WellFormed h' root F) ∧
    -- `insert_resource_expand_to_fit`
    (∀ r ∈ F.nodes, ∀ new ∉ F.nodes, h.child new = none → h.stop r - h.start r < fuel →
      ∃ h', insertResourceExpandToFit fuel h r new = some h' ∧ ∃ start stop,
        ((h' = h.setRange new start stop ∧ WellFormed h' root F) ∨ ∃ parent a mid b,
          start ≤ h.start new ∧ h.stop new ≤ stop ∧
          Placed (h.setRange new start stop) F r new parent a mid b ∧
          WellFormed h' root (F.replace parent (a ++ .node new mid b)))) := by
  refine ⟨fun r hr new hnew hchild => ?_, fun r hr new hnew hchild => ?_, fun old hold hne => ?_,
    fun res hres hne start size hsize hwrap => ?_, fun r hr new hnew hchild hfuel' => ?_⟩
  · obtain ⟨res, heq, hcases⟩ := requestResource_spec new hw hr hfuel
    obtain ⟨conflict, h'⟩ := res
    refine ⟨conflict, h', heq, ?_⟩
    rcases hcases with ⟨⟨⟩, -⟩ | ⟨hin, hreq⟩
    · exact ⟨fun _ => rfl, nofun⟩
    · cases hreq with
      | conflict => exact ⟨fun _ => rfl, nofun⟩
      | linked hK ha hb =>
        exact ⟨fun hc => absurd rfl hc, fun _ => ⟨_, _, hK, hw.link hr hnew hchild hin hK ha hb⟩⟩
  · have hlen := Nat.lt_trans (length_kids hr) hfuel
    obtain ⟨⟨conflict, h'⟩, heq, hres⟩ := insertLoop_spec hw hr hnew hchild hfuel hlen
    refine ⟨conflict, h', heq, ?_⟩
    cases hres with
    | outside => exact ⟨fun _ => rfl, nofun⟩
    | conflict => exact ⟨fun _ => rfl, nofun⟩
    | placed hp hw' => exact ⟨fun hc => absurd rfl hc, fun _ => ⟨_, _, _, _, hp, hw'⟩⟩
  · obtain ⟨r, a, k, b, -, hK, heq, hw'⟩ := releaseResource_spec hw hold hne hfuel
    exact ⟨_, r, a, k, b, heq, hK, hw'⟩
  · rcases adjustResource_spec hw hres hne hsize hwrap hfuel with heq | ⟨heq, hw'⟩
    · exact ⟨_, _, heq, fun _ => rfl, hw⟩
    · exact ⟨_, _, heq, fun hc => absurd rfl hc, hw'⟩
  · rw [insertResourceExpandToFit]
    split_ifs
    · exact ⟨h, rfl, _, _, .inl ⟨setRange_self.symm, hw⟩⟩
    · obtain ⟨h', heq, hx⟩ := expandLoop_spec hw hr hnew hchild hfuel (Nat.zero_lt_of_lt hfuel)
        fun _ _ _ => by omega
      refine ⟨h', heq, ?_⟩
      cases hx with
      | outside s e => exact ⟨s, e, .inl ⟨rfl, hw.setRange hnew⟩⟩
      | placed hs he hp hw' => exact ⟨_, _, .inr ⟨_, _, _, _, hs, he, hp, hw'⟩⟩

/-- A tree with the root 0 and its children 1 and 2; 3 overlaps both and is not in it. -/
def smallHeap : Heap where
  start := fun p => [0, 0, 20, 5].getD p 0
  stop := fun p => [29, 9, 29, 24].getD p 0
  parent := fun p => [none, some 0, some 0].getD p none
  sibling := fun p => [none, some 2].getD p none
  child := fun p => [some 1].getD p none

theorem smallHeap_wellFormed :
    WellFormed smallHeap 0 (.node 0 (.node 1 .nil (.node 2 .nil .nil)) .nil) where
  tops := rfl
  links := by simp [Seg, smallHeap]
  parents := by simp [Parents, smallHeap]
  nodup := by decide
  ordered := by simp [Ordered, smallHeap]

theorem resource_tree_operations_small :
    WellFormed smallHeap 0 (.node 0 (.node 1 .nil (.node 2 .nil .nil)) .nil) ∧
      ∃ h', insertResourceExpandToFit 40 smallHeap 0 3 = some h' ∧ h'.child 3 = some 1 := by
  obtain ⟨-, -, -, -, hexpand⟩ :=
    resource_tree_operations smallHeap_wellFormed (show _ < 40 by decide)
  obtain ⟨h', heq, -⟩ := hexpand 0 (by decide) 3 (by decide) rfl (by decide)
  exact ⟨smallHeap_wellFormed, h', heq, by cases heq; decide⟩

/-- A resource with the range of the root is put under it, though it is not strictly inside. -/
theorem same_range_under_root :
    WellFormed (smallHeap.setRange 3 0 29) 0 (.node 0 (.node 1 .nil (.node 2 .nil .nil)) .nil) ∧
      ¬ Inside (smallHeap.setRange 3 0 29) 3 0 ∧
      ∃ h', insertResource 4 (smallHeap.setRange 3 0 29) 0 3 = some (none, h') ∧
        h'.parent 3 = some 0 :=
  ⟨smallHeap_wellFormed.setRange (by decide), by simp [Inside, smallHeap, Heap.setRange],
    _, rfl, by decide⟩

end LinuxKernel.Resource
