import LinuxKernel.Resource.Request

/-! # Inserting resources

An insertion goes down to the node under which the resource belongs. There it is linked in between
the children, or becomes the parent of those that are inside of it.
-/

namespace LinuxKernel.Resource

open Forest Function Option

variable {h h' : Heap} {root r p q new fuel : ℕ} {F K a b mid k : Forest ℕ}

section Enclosed

/-- The children from the first one on that overlaps: one of them is not inside, or all of them
are. -/
inductive Covered (h : Heap) (new : ℕ) (K : Forest ℕ) : Except ℕ ℕ → Prop
  | conflict {t : ℕ} : t ∈ K.tops → h.start t ≤ h.stop new → h.start new ≤ h.stop t →
      (h.start t < h.start new ∨ h.stop t > h.stop new) → Covered h new K (.error t)
  | all {mid b : Forest ℕ} {t : ℕ} : K = mid ++ b → mid.last = some t →
      (∀ p ∈ mid.tops, h.start new ≤ h.start p ∧ h.stop p ≤ h.stop new) →
      (∀ p ∈ b.tops, h.stop new < h.start p) → Covered h new K (.ok t)

theorem enclosed_spec {t lo hi : ℕ} {ptr : Option ℕ}
    (hlinks : Seg h.child h.sibling ptr (.node t k b) none)
    (hord : Ordered h.start h.stop lo hi (.node t k b)) (h₁ : h.start t ≤ h.stop new)
    (h₂ : h.start new ≤ h.stop t) (hfuel : b.tops.length < fuel) :
    ∃ res, enclosed h new fuel t = some res ∧ Covered h new (.node t k b) res := by
  induction b generalizing t k ptr fuel with
  | nil =>
    obtain _ | fuel := fuel
    · cases hfuel
    obtain ⟨-, -, hsib⟩ := hlinks
    rw [enclosed, hsib]
    split_ifs with hout
    · exact ⟨_, rfl, .conflict (by simp) h₁ h₂ hout⟩
    · exact ⟨_, rfl, .all (append_nil).symm rfl (by simp; omega) (by simp)⟩
  | node t' k' b' _ ih =>
    obtain _ | fuel := fuel
    · cases hfuel
    obtain ⟨-, -, hrest⟩ := hlinks
    obtain ⟨hbt, hgap, -, hord'⟩ := hord
    obtain ⟨⟨-, hle, -⟩, hgap', -, -⟩ := id hord'
    obtain ⟨hsib, -, -⟩ := id hrest
    rw [enclosed, hsib]
    dsimp only
    split_ifs with hout hbehind
    · exact ⟨_, rfl, .conflict (by simp) h₁ h₂ hout⟩
    · have hsplit : Forest.node t k (.node t' k' b') = .node t k .nil ++ .node t' k' b' := rfl
      refine ⟨_, rfl, .all hsplit rfl (by simp; omega) ?_⟩
      refine List.forall_mem_cons.mpr ⟨hbehind, fun p hp => ?_⟩
      have := hgap' p hp
      omega
    · have := hgap t' (by simp)
      obtain ⟨res, heq, hres⟩ := ih hrest hord' (by omega) (by omega) (by simpa using hfuel)
      refine ⟨res, heq, ?_⟩
      cases hres with
      | conflict ht hc₁ hc₂ hc => exact .conflict (by simp at ht ⊢; tauto) hc₁ hc₂ hc
      | @all mid b t'' hsplit hlast hin hb =>
        have hsplit' : Forest.node t k (.node t' k' b') = .node t k mid ++ b := by
          rw [hsplit, node_append]
        refine .all hsplit' (by rw [last, hlast]) ?_ hb
        exact List.forall_mem_cons.mpr ⟨by omega, hin⟩

end Enclosed

section Adopt

def setParents (h : Heap) (l : List ℕ) (v : Option ℕ) : Heap :=
  { h with parent := fun p => if p ∈ l then v else h.parent p }

theorem reparent_spec {ptr : Option ℕ} (hlinks : Seg h.child h.sibling ptr mid none)
    (hfuel : mid.tops.length ≤ fuel) :
    reparent new fuel ptr h = some (setParents h mid.tops (some new)) := by
  induction mid generalizing ptr fuel h with
  | nil =>
    obtain rfl : ptr = none := hlinks
    rw [reparent, setParents]
    simp
  | node t k rest _ ih =>
    obtain ⟨rfl, -, hrest⟩ := hlinks
    obtain _ | fuel := fuel
    · cases hfuel
    rw [reparent, ih (h := h.setParent t (some new)) hrest (by simpa using hfuel)]
    rw [setParents]
    congr 2
    funext p
    by_cases hp : p = t
    · simp [Heap.setParent, hp]
    · simp [Heap.setParent, hp]

theorem previous_spec {head first t : ℕ} (hlinks : Seg h.child h.sibling (some head) a (some first))
    (ht : a.last = some t) (hfirst : first ∉ a.tops) (hfuel : a.tops.length ≤ fuel) :
    previous h first fuel head = some t := by
  obtain ⟨a, k, rfl⟩ := eq_append_of_last ht
  induction a generalizing head fuel with
  | nil =>
    obtain _ | fuel := fuel
    · cases hfuel
    obtain ⟨⟨⟩, -, hsib⟩ := hlinks
    exact if_pos hsib
  | node p k' rest _ ih =>
    obtain _ | fuel := fuel
    · cases hfuel
    obtain ⟨⟨⟩, -, hrest⟩ := hlinks
    obtain ⟨q, hq, heq⟩ := hrest.exists_head last_append_node
    have hfirst' := fun hmem => hfirst (List.mem_cons_of_mem _ hmem)
    have hne : some q ≠ some first := by
      rintro ⟨⟩
      exact hfirst' hq
    rw [heq] at hrest
    rw [previous, heq, if_neg hne]
    exact ih hrest last_append_node hfirst' (by simpa using hfuel)

/-- The heap after a resource has been set up and the list of its children been cut off. -/
def detached (h : Heap) (r new first next : ℕ) : Heap :=
  (((h.setParent new (some r)).setSibling new (h.sibling next)).setChild new
    (some first)).setSibling next none

theorem detached_child {first next : ℕ} (hp : p ≠ new) :
    (detached h r new first next).child p = h.child p := update_of_ne hp _ _

theorem detached_sibling {first next : ℕ} (hp : p ≠ new) (hnext : p ≠ next) :
    (detached h r new first next).sibling p = h.sibling p :=
  (update_of_ne hnext _ _).trans (update_of_ne hp _ _)

/-- The heap after a resource has become the parent of the children `mid`, which stand behind
`a`. -/
def adopted (h : Heap) (r new : ℕ) (a mid : Forest ℕ) (first next : ℕ) : Heap :=
  (setParents (detached h r new first next) mid.tops (some new)).write (some new) (endPlace r a)

/-- The children of a node that one of them and its neighbours are taken from. -/
structure Between (h : Heap) (r new : ℕ) (a mid b : Forest ℕ) (first next : ℕ) : Prop where
  links : Seg h.child h.sibling (h.child r) (a ++ (mid ++ b)) none
  nodup : (r :: (a ++ (mid ++ b)).nodes).Nodup
  new_not_mem : new ∉ r :: (a ++ (mid ++ b)).nodes
  first_eq : mid.tops.head? = some first
  next_eq : mid.last = some next

namespace Between

variable {first next : ℕ} (hB : Between h r new a mid b first next)
include hB

theorem apart : mid.nodes.Nodup ∧ a.nodes.Disjoint mid.nodes := by
  have hnodup := (List.nodup_cons.mp hB.nodup).2
  rw [nodes_append, nodes_append] at hnodup
  obtain ⟨-, hmb, hd⟩ := List.nodup_append'.mp hnodup
  exact ⟨(List.nodup_append'.mp hmb).1, (List.disjoint_append_right.mp hd).1⟩

theorem segs : Seg h.child h.sibling (h.child r) a (some first) ∧
    Seg h.child h.sibling (some first) mid (h.sibling next) ∧
    Seg h.child h.sibling (h.sibling next) b none := by
  obtain ⟨m₁, hsa, hsmb⟩ := seg_append.mp hB.links
  obtain ⟨m₂, hsm, hsb⟩ := seg_append.mp hsmb
  have hm₁ : m₁ = some first := by
    have := hsmb.eq_head?
    rw [tops_append, List.head?_append, hB.first_eq] at this
    exact this
  rw [hm₁] at hsa hsm
  rw [hsm.sibling_last hB.next_eq]
  exact ⟨hsa, hsm, hsb⟩

theorem seg_mid : Seg (detached h r new first next).child (detached h r new first next).sibling
    (some first) mid none := by
  have hsub : ∀ p ∈ mid.nodes, p ≠ new := fun p hp heq => hB.new_not_mem (by simp [← heq, hp])
  refine hB.segs.2.1.relink hB.apart.1 (fun p hp => detached_child (hsub p hp))
    (fun p hp hl => ?_) (fun t ht => ?_) (fun hn => ?_) fun _ => rfl
  · exact detached_sibling (hsub p hp) fun heq => hl (heq ▸ hB.next_eq)
  · rw [← some.inj (hB.next_eq.symm.trans ht)]
    exact update_self ..
  · rw [hB.next_eq] at hn
    cases hn

theorem seg_lead : Seg (detached h r new first next).child (detached h r new first next).sibling
    ((detached h r new first next).child r) a (some first) := by
  have hr : r ≠ new := fun heq => hB.new_not_mem (by simp [heq])
  have hnext := mem_nodes_of_mem_tops (mem_tops_of_last hB.next_eq)
  rw [detached_child hr]
  refine hB.segs.1.congr fun p hp => ?_
  have hpn : p ≠ new := fun heq => hB.new_not_mem (by simp [← heq, hp])
  exact ⟨detached_child hpn, detached_sibling hpn fun heq => hB.apart.2 hp (heq ▸ hnext)⟩

theorem adopt_eq (hfuel : (a ++ (mid ++ b)).nodes.length ≤ fuel) :
    adopt fuel h r new first next = some (adopted h r new a mid first next) := by
  have hlen : mid.tops.length ≤ fuel ∧ a.tops.length ≤ fuel := by
    have h₁ := mid.length_tops_le
    have h₂ := a.length_tops_le
    rw [nodes_append, nodes_append, List.length_append, List.length_append] at hfuel
    omega
  have hfirst : first ∉ a.tops := fun hmem => hB.apart.2 (mem_nodes_of_mem_tops hmem)
    (mem_nodes_of_mem_tops (List.mem_of_mem_head? hB.first_eq))
  have hrep : reparent new fuel (some first) (detached h r new first next) = _ :=
    reparent_spec hB.seg_mid hlen.1
  change (reparent new fuel (some first) (detached h r new first next)).bind _ = _
  rw [hrep]
  change (if (detached h r new first next).child r = some first then _ else _) = _
  have hlead := hB.seg_lead
  rw [adopted, endPlace]
  cases ha : a.last with
  | none =>
    rw [last_eq_none.mp ha] at hlead
    rw [if_pos (show (detached h r new first next).child r = some first from hlead)]
    rfl
  | some t =>
    obtain ⟨head, hhead, hchild⟩ := hlead.exists_head ha
    rw [hchild] at hlead
    have hne : some head ≠ some first := by
      rintro ⟨⟩
      exact hfirst hhead
    rw [hchild, if_neg hne]
    have hprev : previous (setParents (detached h r new first next) mid.tops (some new)) first fuel
        head = some t := previous_spec hlead ha hfirst hlen.2
    change (Option.bind ((detached h r new first next).child r) _) = _
    rw [hchild, bind_some]
    rw [hprev]
    rfl

end Between

/-- The range of a resource is inside of that of another one, and not the same. -/
def Inside (h : Heap) (new q : ℕ) : Prop :=
  (h.start q ≤ h.start new ∧ h.stop new ≤ h.stop q) ∧
    ¬ (h.start q = h.start new ∧ h.stop q = h.stop new)

/-- The resource is put under `r`, which is the deepest node from `s` on that it is inside of, with
exactly the former children that are inside of it below it. -/
structure Placed (h : Heap) (F : Forest ℕ) (s new r : ℕ) (a mid b : Forest ℕ) : Prop where
  mem : r ∈ F.nodes
  from_start : r = s ∨ r ∈ (F.kids s).nodes ∧ Inside h new r
  in_range : h.start r ≤ h.start new ∧ h.start new ≤ h.stop new ∧ h.stop new ≤ h.stop r
  deepest : ∀ q, q = s ∨ q ∈ (F.kids s).nodes → Inside h new q → q = r ∨ r ∈ (F.kids q).nodes
  split : F.kids r = a ++ (mid ++ b)
  before : ∀ p ∈ a.tops, h.stop p < h.start new
  inside : ∀ p ∈ mid.tops, h.start new ≤ h.start p ∧ h.stop p ≤ h.stop new
  behind : ∀ p ∈ b.tops, h.stop new < h.start p

/-- The tree in which a resource has become the parent of some of the children of a node. -/
theorem WellFormed.adopt {s first next : ℕ} (hw : WellFormed h root F) (hnew : new ∉ F.nodes)
    (hplaced : Placed h F s new r a mid b) (hfirst : mid.tops.head? = some first)
    (hnext : mid.last = some next) :
    Between h r new a mid b first next ∧ WellFormed (adopted h r new a mid first next) root
      (F.replace r (a ++ .node new mid b)) := by
  obtain ⟨hr, -, hin, -, hK, ha, hmid, hb⟩ := hplaced
  obtain ⟨hlinks, hparents, hord, hnodup, hrK⟩ := hw.level hr hK
  have hsub : ∀ p ∈ (F.kids r).nodes, p ≠ new :=
    fun p hp => ne_of_mem_of_not_mem (kids_subset hp) hnew
  have hrne : r ≠ new := ne_of_mem_of_not_mem hr hnew
  rw [hK] at hsub
  have hB : Between h r new a mid b first next := by
    refine ⟨hlinks, List.nodup_cons.mpr ⟨hrK, hnodup⟩, fun hmem => ?_, hfirst, hnext⟩
    rcases List.mem_cons.mp hmem with heq | hmem
    · exact hrne heq.symm
    · exact hsub new hmem rfl
  refine ⟨hB, ?_⟩
  simp only [nodes_append, List.mem_append] at hrK hsub
  rw [nodes_append] at hnodup
  obtain ⟨hnm, hdis⟩ := hB.apart
  obtain ⟨hpm, -⟩ := parents_append.mp (parents_append.mp hparents).2
  obtain ⟨hom, -⟩ := Ordered.append_iff.mp (Ordered.append_iff.mp hord).2.1
  obtain ⟨hc, hs, hp, hst, hsp⟩ := write_endPlace
    (some new)
  have hst : (adopted h r new a mid first next).start = h.start := hst
  have hsp : (adopted h r new a mid first next).stop = h.stop := hsp
  have hnextm := mem_nodes_of_mem_tops (mem_tops_of_last hnext)
  have hpar : ∀ q, q ∉ mid.tops → q ≠ new →
      (adopted h r new a mid first next).parent q = h.parent q := by
    intro q hq hqn
    rw [adopted, hp]
    exact (if_neg hq).trans (update_of_ne hqn _ _)
  have hnewm : new ∉ mid.nodes := fun h => hsub new (.inr (.inl h)) rfl
  refine hw.splice _ (N := .node new mid .nil) hr hK (fun p hpF hpm => ?_)
    (seg_write hB.seg_lead (List.nodup_append'.mp hnodup).1) ⟨rfl, ?_, ?_⟩
      ⟨?_, ?_, trivial⟩ ?_ ?_ ?_ ?_ ?_
  · have hpn := ne_of_mem_of_not_mem hpF hnew
    refine ⟨⟨hpar p (fun h => hpm (mem_nodes_of_mem_tops h)) hpn, congrFun hst p, congrFun hsp p⟩,
      fun hpr => (hc p hpr).trans (detached_child hpn), fun hpa => (hs p hpa).trans ?_⟩
    exact detached_sibling hpn fun heq => hpm (heq ▸ hnextm)
  · have hcn : (adopted h r new a mid first next).child new = some first :=
      (hc new hrne.symm).trans (update_self ..)
    rw [hcn]
    refine hB.seg_mid.congr fun p hp => ⟨hc p ?_, hs p fun hpa => ?_⟩
    · exact fun heq => hrK (.inr (.inl (heq ▸ hp)))
    · exact hdis (mem_nodes_of_mem_tops hpa) hp
  · refine (hs new fun h => hsub new (.inl (mem_nodes_of_mem_tops h)) rfl).trans ?_
    have hne : new ≠ next := (ne_of_mem_of_not_mem hnextm hnewm).symm
    exact (update_of_ne hne ..).trans ((update_self ..).trans hB.segs.2.2.eq_head?)
  · rw [adopted, hp]
    exact (if_neg fun h => hnewm (mem_nodes_of_mem_tops h)).trans (update_self ..)
  · refine hpm.set_parent (fun p hpt => ?_) (fun p hpm hpt => ?_) hnm
    · rw [adopted, hp]
      exact if_pos hpt
    · exact hpar p hpt (hsub p (.inr (.inl hpm)))
  · rw [hst, hsp]
    exact ⟨hin, by simp, hom.range hmid, trivial⟩
  · simpa [hst] using ha
  · simpa [hsp] using hb
  · rw [nodes_node, nodes_nil, List.append_nil]
    exact List.nodup_cons.mpr ⟨hnewm, hnm⟩
  · intro p hp hpF
    rw [nodes_node, nodes_nil, List.append_nil] at hp
    exact (List.mem_cons.mp hp).resolve_left (ne_of_mem_of_not_mem hpF hnew)

end Adopt

section Loop

inductive Inserted (h : Heap) (root : ℕ) (F : Forest ℕ) (s new : ℕ) : Option ℕ × Heap → Prop
  | outside : ¬ (h.start s ≤ h.start new ∧ h.start new ≤ h.stop new ∧ h.stop new ≤ h.stop s) →
      Inserted h root F s new (some s, h)
  | conflict {t : ℕ} : t ∈ (F.kids s).nodes →
      (h.start s ≤ h.start new ∧ h.start new ≤ h.stop new ∧ h.stop new ≤ h.stop s) →
      (h.start t < h.start new ∨ h.stop t > h.stop new) → Inserted h root F s new (some t, h)
  | placed {r : ℕ} {a mid b : Forest ℕ} {h' : Heap} : Placed h F s new r a mid b →
      WellFormed h' root (F.replace r (a ++ .node new mid b)) → Inserted h root F s new (none, h')

variable (hw : WellFormed h root F) (hr : r ∈ F.nodes)
include hw hr

/-- There is no deeper node than the one whose children are before, inside of or behind a range. -/
theorem placed_here
    (hin : h.start r ≤ h.start new ∧ h.start new ≤ h.stop new ∧ h.stop new ≤ h.stop r)
    (hK : F.kids r = a ++ (mid ++ b)) (ha : ∀ p ∈ a.tops, h.stop p < h.start new)
    (hmid : ∀ p ∈ mid.tops, h.start new ≤ h.start p ∧ h.stop p ≤ h.stop new)
    (hb : ∀ p ∈ b.tops, h.stop new < h.start p) : Placed h F r new r a mid b := by
  refine ⟨hr, .inl rfl, hin, fun q hq hqin => ?_, hK, ha, hmid, hb⟩
  rcases hq with rfl | hq
  · exact .inl rfl
  · obtain ⟨⟨hq₁, hq₂⟩, hne⟩ := hqin
    obtain ⟨t, ht, -, ht₁, ht₂⟩ := (hw.ordered.kids hr).exists_top (kids_nodup hw.nodup) hq
    rw [hK, tops_append, tops_append] at ht
    simp only [List.mem_append] at ht
    rcases ht with ht | ht | ht
    · have := ha t ht
      omega
    · have := hmid t ht
      omega
    · have := hb t ht
      omega

theorem Inserted.descend {t : ℕ} {res : Option ℕ × Heap} (ht : t ∈ (F.kids r).tops)
    (hin : h.start r ≤ h.start new ∧ h.start new ≤ h.stop new ∧ h.stop new ≤ h.stop r)
    (htin : Inside h new t) (hres : Inserted h root F t new res) : Inserted h root F r new res := by
  have htK := mem_nodes_of_mem_tops ht
  have hkids : F.kids t = (F.kids r).kids t := kids_kids hw.nodup htK
  have hsub : ∀ q ∈ (F.kids t).nodes, q ∈ (F.kids r).nodes := fun q hq => by
    rw [hkids] at hq
    exact kids_subset hq
  obtain ⟨⟨ht₁, ht₂⟩, hne⟩ := id htin
  cases hres with
  | outside hout => exact absurd ⟨ht₁, hin.2.1, ht₂⟩ hout
  | conflict hmem _ hout => exact .conflict (hsub _ hmem) hin hout
  | @placed r' a mid b h' hp hw' =>
    have hr' : r' ∈ (F.kids r).nodes ∧ Inside h new r' := by
      rcases hp.from_start with rfl | ⟨hmem, hinr⟩
      · exact ⟨htK, htin⟩
      · exact ⟨hsub _ hmem, hinr⟩
    refine .placed ⟨hp.mem, .inr hr', hp.in_range, fun q hq hqin => ?_, hp.split, hp.before,
      hp.inside, hp.behind⟩ hw'
    rcases hq with rfl | hq
    · exact .inr hr'.1
    · -- the child that the other node is below is the one that was taken
      obtain ⟨t', ht', hqt, hle, hge⟩ := (hw.ordered.kids hr).exists_top (kids_nodup hw.nodup) hq
      obtain ⟨⟨hq₁, hq₂⟩, -⟩ := id hqin
      obtain rfl : t' = t := (hw.ordered.kids hr).tops_eq ht' ht (x := h.start new)
        (by omega) (by omega)
      rw [← hkids] at hqt
      exact hp.deepest q hqt hqin

theorem insertLoop_spec {n : ℕ} (hnew : new ∉ F.nodes) (hchild : h.child new = none)
    (hfuel : F.nodes.length < fuel) (hn : (F.kids r).nodes.length < n) :
    ∃ res, insertLoop fuel h new n r = some res ∧ Inserted h root F r new res := by
  induction n generalizing r with
  | zero => omega
  | succ n ih =>
    obtain ⟨res, heq, hres⟩ := requestResource_spec new hw hr hfuel
    rw [insertLoop, heq, bind_some]
    rcases hres with ⟨rfl, hout⟩ | ⟨hin, hreq⟩
    · dsimp only
      rw [if_pos (.inl rfl)]
      exact ⟨_, rfl, .outside hout⟩
    · cases hreq with
      | @linked a b hK ha hb =>
        have hp : Placed h F r new r a .nil b := placed_here hw hr hin hK ha (by simp) hb
        exact ⟨_, rfl, .placed hp (hw.link hr hnew hchild hin hK ha hb)⟩
      | @conflict a b k t hK ha h₁ h₂ =>
        have ht : t ∈ (F.kids r).tops := by
          rw [hK]
          simp
        have htK := mem_nodes_of_mem_tops ht
        obtain ⟨hlinks, -, hord, -⟩ := hw.level hr hK
        have hlen := length_kids hr
        rw [hK] at hlen
        dsimp only
        rw [if_neg (not_or.mpr ⟨ne_of_mem_of_not_mem htK (not_mem_kids hw.nodup),
          ne_of_mem_of_not_mem (kids_subset htK) hnew⟩)]
        split_ifs with hcond
        · obtain ⟨m, -, hseg⟩ := seg_append.mp hlinks
          obtain ⟨-, hord', -⟩ := Ordered.append_iff.mp hord
          have hb : b.tops.length < fuel := by
            have := b.length_tops_le
            simp only [nodes_append, nodes_node, List.length_append, List.length_cons] at hlen
            omega
          obtain ⟨res, heq, hcov⟩ := enclosed_spec hseg hord' h₁ h₂ hb
          rw [heq, bind_some]
          cases hcov with
          | @conflict t' ht' _ _ hout =>
            refine ⟨_, rfl, .conflict ?_ hin hout⟩
            rw [hK, nodes_append]
            exact List.mem_append_right _ (mem_nodes_of_mem_tops ht')
          | @all mid b' next hsplit hlast hmid hb' =>
            rw [hsplit] at hK hlen
            have hfirst : mid.tops.head? = some t := by
              cases mid with
              | nil => simp [last] at hlast
              | node p k' rest =>
                cases hsplit
                rfl
            have hplaced := placed_here hw hr hin hK ha hmid hb'
            obtain ⟨hB, hw'⟩ := hw.adopt hnew hplaced hfirst hlast
            dsimp only
            rw [hB.adopt_eq (by omega)]
            exact ⟨_, rfl, .placed hplaced hw'⟩
        · have htin : Inside h new t := by
            unfold Inside
            omega
          have hlt : (F.kids t).nodes.length < n := by
            rw [kids_kids hw.nodup htK]
            have := length_kids htK
            omega
          obtain ⟨res, heq, hres⟩ := ih (kids_subset htK) hlt
          exact ⟨res, heq, hres.descend hw hr ht hin htin⟩

end Loop

end LinuxKernel.Resource
