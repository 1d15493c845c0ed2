import Mathlib.Data.List.Nodup
import Mathlib.Data.List.Perm.Basic

/-! # Forests that are linked by pointers

An ordered forest in which every node has a pointer to its first child and one to its next sibling,
and possibly one to its parent. The children of one node can be replaced, which only changes the
links at that node and below it.
-/

namespace LinuxKernel

open List

/-- A list of trees: the first node, the trees below it and the trees behind it. -/
inductive Forest (α : Type*) where
  | nil
  | node (p : α) (kids rest : Forest α)

namespace Forest

variable {α : Type*} {F G a b K : Forest α} {p q r t : α}

def nodes : Forest α → List α
  | nil => []
  | node p kids rest => p :: (kids.nodes ++ rest.nodes)

def tops : Forest α → List α
  | nil => []
  | node p _ rest => p :: rest.tops

def append : Forest α → Forest α → Forest α
  | nil, b => b
  | node p kids rest, b => node p kids (rest.append b)

instance : Append (Forest α) := ⟨append⟩

@[simp] theorem nil_append : nil ++ b = b := rfl

@[simp] theorem node_append : node p a F ++ b = node p a (F ++ b) := rfl

@[simp] theorem append_nil : F ++ nil = F := by
  induction F with
  | nil => rfl
  | node p kids rest _ ih => rw [node_append, ih]

theorem append_assoc : a ++ b ++ F = a ++ (b ++ F) := by
  induction a with
  | nil => rfl
  | node p kids rest _ ih => rw [node_append, node_append, node_append, ih]

@[simp] theorem nodes_nil : (nil : Forest α).nodes = [] := rfl

@[simp] theorem nodes_node : (node p a F).nodes = p :: (a.nodes ++ F.nodes) := rfl

@[simp] theorem tops_nil : (nil : Forest α).tops = [] := rfl

@[simp] theorem tops_node : (node p a F).tops = p :: F.tops := rfl

@[simp] theorem nodes_append : (a ++ b).nodes = a.nodes ++ b.nodes := by
  induction a with
  | nil => rfl
  | node p kids rest _ ih =>
    rw [node_append, nodes_node, nodes_node, ih, cons_append, List.append_assoc]

@[simp] theorem tops_append : (a ++ b).tops = a.tops ++ b.tops := by
  induction a with
  | nil => rfl
  | node p kids rest _ ih => rw [node_append, tops_node, tops_node, ih, cons_append]

theorem tops_sublist : F.tops.Sublist F.nodes := by
  induction F with
  | nil => exact Sublist.refl _
  | node q kids rest _ ih => exact (ih.trans (sublist_append_right _ _)).cons_cons q

theorem mem_nodes_of_mem_tops (h : p ∈ F.tops) : p ∈ F.nodes := tops_sublist.subset h

theorem length_tops_le (F : Forest α) : F.tops.length ≤ F.nodes.length := tops_sublist.length_le

theorem split_of_mem_tops (h : p ∈ F.tops) : ∃ a kids b, F = a ++ node p kids b := by
  induction F with
  | nil => simp at h
  | node q kids rest _ ih =>
    rcases mem_cons.mp h with rfl | h
    · exact ⟨nil, kids, rest, rfl⟩
    · obtain ⟨a, k, b, rfl⟩ := ih h
      exact ⟨node q kids a, k, b, rfl⟩

theorem nodup_node : (node p a F).nodes.Nodup ↔ p ∉ a.nodes ∧ p ∉ F.nodes ∧ a.nodes.Nodup ∧
    F.nodes.Nodup ∧ a.nodes.Disjoint F.nodes := by
  rw [nodes_node, nodup_cons, nodup_append', mem_append]
  tauto

theorem mem_node : q ∈ (node p a F).nodes ↔ q = p ∨ q ∈ a.nodes ∨ q ∈ F.nodes := by
  rw [nodes_node, mem_cons, mem_append]

theorem forall_node {P : α → Prop} : (∀ q ∈ (node p a F).nodes, P q) ↔
    P p ∧ (∀ q ∈ a.nodes, P q) ∧ ∀ q ∈ F.nodes, P q := by
  rw [nodes_node, forall_mem_cons, forall_mem_append]

theorem mem_rest (h : r ∈ (node p a F).nodes) (hp : p ≠ r) (ha : r ∉ a.nodes) : r ∈ F.nodes :=
  ((mem_node.mp h).resolve_left hp.symm).resolve_left ha

section Kids

variable [DecidableEq α]

def kids (r : α) : Forest α → Forest α
  | nil => nil
  | node p kids' rest =>
    if p = r then kids' else if r ∈ kids'.nodes then kids'.kids r else rest.kids r

def replace : Forest α → α → Forest α → Forest α
  | nil, _, _ => nil
  | node p kids' rest, r, K =>
    if p = r then node p K rest
    else if r ∈ kids'.nodes then node p (kids'.replace r K) rest
    else node p kids' (rest.replace r K)

/-- The nodes that are not below `r`. -/
theorem nodes_perm (F : Forest α) (r : α) : ∃ A, F.tops ⊆ A ∧ F.nodes.Perm (A ++ (F.kids r).nodes) ∧
    (r ∈ F.nodes → r ∈ A ∧ ∀ K, (F.replace r K).nodes.Perm (A ++ K.nodes)) := by
  induction F with
  | nil => exact ⟨[], nil_subset _, .nil, fun h => by cases h⟩
  | node p kids' rest ih₁ ih₂ =>
    have htops : rest.tops ⊆ rest.nodes := tops_sublist.subset
    rw [kids]
    simp only [replace]
    split_ifs with hp hk
    · refine ⟨p :: rest.nodes, cons_subset_cons p htops, perm_append_comm.cons p, fun _ => ?_⟩
      exact ⟨by simp [hp], fun K => perm_append_comm.cons p⟩
    · obtain ⟨A, -, hA, hK⟩ := ih₁
      have hmove {l K : List α} (h : l.Perm (A ++ K)) :
          (p :: (l ++ rest.nodes)).Perm (p :: (A ++ rest.nodes) ++ K) := by
        rw [cons_append, List.append_assoc]
        refine ((h.append_right _).trans ?_).cons p
        rw [List.append_assoc]
        exact perm_append_comm.append_left A
      exact ⟨p :: (A ++ rest.nodes), cons_subset_cons p (subset_append_of_subset_right _ htops),
        hmove hA, fun _ => ⟨by simp [(hK hk).1], fun K => hmove ((hK hk).2 K)⟩⟩
    · obtain ⟨A, ht, hA, hK⟩ := ih₂
      have hmove {l K : List α} (h : l.Perm (A ++ K)) :
          (p :: (kids'.nodes ++ l)).Perm (p :: (kids'.nodes ++ A) ++ K) := by
        rw [cons_append, List.append_assoc]
        exact (h.append_left _).cons p
      refine ⟨p :: (kids'.nodes ++ A), cons_subset_cons p (subset_append_of_subset_right _ ht),
        hmove hA, fun h => ?_⟩
      obtain ⟨hr, hK⟩ := hK (mem_rest h hp hk)
      exact ⟨by simp [hr], fun K => hmove (hK K)⟩

theorem kids_subset (h : q ∈ (F.kids r).nodes) : q ∈ F.nodes := by
  obtain ⟨A, -, hA, -⟩ := nodes_perm F r
  exact hA.mem_iff.mpr (mem_append_right A h)

theorem length_kids (h : r ∈ F.nodes) : (F.kids r).nodes.length < F.nodes.length := by
  obtain ⟨A, -, hA, hr⟩ := nodes_perm F r
  have := length_pos_of_mem (hr h).1
  rw [hA.length_eq, length_append]
  omega

theorem kids_nodup (hF : F.nodes.Nodup) : (F.kids r).nodes.Nodup := by
  obtain ⟨A, -, hA, -⟩ := nodes_perm F r
  exact (nodup_append'.mp (hA.nodup_iff.mp hF)).2.1

theorem not_mem_kids (hF : F.nodes.Nodup) : r ∉ (F.kids r).nodes := fun h => by
  obtain ⟨A, -, hA, hr⟩ := nodes_perm F r
  exact (nodup_append'.mp (hA.nodup_iff.mp hF)).2.2 (hr (kids_subset h)).1 h

theorem not_mem_kids_of_mem_tops (hF : F.nodes.Nodup) (ht : t ∈ F.tops) : t ∉ (F.kids r).nodes := by
  obtain ⟨A, htops, hA, -⟩ := nodes_perm F r
  exact (nodup_append'.mp (hA.nodup_iff.mp hF)).2.2 (htops ht)

theorem tops_replace : (F.replace r K).tops = F.tops := by
  induction F with
  | nil => rfl
  | node p kids' rest _ ih =>
    rw [replace]
    split_ifs
    · rfl
    · rfl
    · rw [tops_node, tops_node, ih]

theorem replace_kids : F.replace r (F.kids r) = F := by
  induction F with
  | nil => rfl
  | node p kids' rest ih₁ ih₂ =>
    rw [replace, kids]
    split_ifs
    · rfl
    · rw [ih₁]
    · rw [ih₂]

section Node

variable (hF : (node p a F).nodes.Nodup)
include hF

theorem kids_below (hq : q ∈ a.nodes) : (node p a F).kids q = a.kids q := by
  rw [kids, if_neg (ne_of_mem_of_not_mem hq (nodup_node.mp hF).1).symm, if_pos hq]

theorem kids_behind (hq : q ∈ F.nodes) : (node p a F).kids q = F.kids q := by
  obtain ⟨-, hp, -, -, hd⟩ := nodup_node.mp hF
  rw [kids, if_neg (ne_of_mem_of_not_mem hq hp).symm, if_neg fun h => hd h hq]

end Node

theorem kids_kids (hF : F.nodes.Nodup) (h : q ∈ (F.kids r).nodes) :
    F.kids q = (F.kids r).kids q := by
  induction F with
  | nil => rfl
  | node p kids' rest ih₁ ih₂ =>
    obtain ⟨-, -, h₁, h₂, -⟩ := nodup_node.mp hF
    rw [kids] at h
    nth_rewrite 2 [kids]
    split_ifs at h ⊢
    · exact kids_below hF h
    · rw [kids_below hF (kids_subset h), ih₁ h₁ h]
    · rw [kids_behind hF (kids_subset h), ih₂ h₂ h]

theorem kids_of_mem_tops (hF : F.nodes.Nodup) (h : F = a ++ node r K b) : F.kids r = K := by
  subst h
  induction a with
  | nil => rw [nil_append, kids, if_pos rfl]
  | node p kids' rest _ ih =>
    rw [node_append] at hF ⊢
    rw [kids_behind hF (by simp), ih (nodup_node.mp hF).2.2.2.1]

theorem exists_parent (hF : F.nodes.Nodup) (hq : q ∈ F.nodes) :
    q ∈ F.tops ∨ ∃ r ∈ F.nodes, q ∈ (F.kids r).tops := by
  induction F with
  | nil => cases hq
  | node p kids' rest ih₁ ih₂ =>
    obtain ⟨-, -, h₁, h₂, -⟩ := nodup_node.mp hF
    rcases mem_node.mp hq with rfl | hq | hq
    · exact .inl (by simp)
    · right
      rcases ih₁ h₁ hq with ht | ⟨r, hr, ht⟩
      · exact ⟨p, by simp, by rwa [kids, if_pos rfl]⟩
      · exact ⟨r, by simp [hr], by rwa [kids_below hF hr]⟩
    · rcases ih₂ h₂ hq with ht | ⟨r, hr, ht⟩
      · exact .inl (by simp [ht])
      · exact .inr ⟨r, by simp [hr], by rwa [kids_behind hF hr]⟩

/-- A property of the trees below a node, from one that goes down the forest. -/
theorem kids_ind {P : Forest α → Prop} {D : α → Forest α → Prop}
    (hnode : ∀ {p a b}, P (node p a b) → D p a ∧ P b) (hdown : ∀ {p a}, D p a → P a) (h : P F)
    (hr : r ∈ F.nodes) : D r (F.kids r) := by
  induction F with
  | nil => cases hr
  | node p kids' rest ih₁ ih₂ =>
    obtain ⟨hk, hrest⟩ := hnode h
    rw [kids]
    split_ifs with hp hmem
    · exact hp ▸ hk
    · exact ih₁ (hdown hk) hmem
    · exact ih₂ hrest (mem_rest hr hp hmem)

/-- A relation between a forest and the one with other children of `r`: the nodes that are not
below `r` have the property `P`. -/
theorem replace_ind {P : α → Prop} {R : Forest α → Forest α → Prop} (hF : F.nodes.Nodup)
    (hr : r ∈ F.nodes) (hP : ∀ q ∈ F.nodes, q ∉ (F.kids r).nodes → P q)
    (same : ∀ {a}, (∀ q ∈ a.nodes, q ≠ r ∧ P q) → R a a)
    (here : ∀ {a b}, P r → (∀ q ∈ b.tops, P q) → R b b → R (node r a b) (node r K b))
    (step : ∀ {p a a' b b'}, p ≠ r → P p → (∀ q ∈ b.tops, P q) → b'.tops = b.tops → R a a' →
      R b b' → R (node p a b) (node p a' b')) : R F (F.replace r K) := by
  induction F with
  | nil => cases hr
  | node p a b ih₁ ih₂ =>
    obtain ⟨hp₁, hp₂, h₁, h₂, hd⟩ := nodup_node.mp hF
    have htops : ∀ q ∈ b.tops, P q := fun q hq =>
      hP q (by simp [mem_nodes_of_mem_tops hq]) (not_mem_kids_of_mem_tops hF (by simp [hq]))
    obtain ⟨hPp, hPa, hPb⟩ := forall_node.mp hP
    rw [kids] at hPp hPa hPb
    rw [replace]
    split_ifs at hPp hPa hPb ⊢ with hpr hmem
    · subst hpr
      refine here (hPp hp₁) htops (same fun q hq => ⟨ne_of_mem_of_not_mem hq hp₂, hPb q hq ?_⟩)
      exact fun h => hd h hq
    · refine step hpr (hPp fun h => hp₁ (kids_subset h)) htops rfl (ih₁ h₁ hmem hPa)
        (same fun q hq => ⟨fun h => hd (h ▸ hmem) hq, hPb q hq fun h => hd (kids_subset h) hq⟩)
    · refine step hpr (hPp fun h => hp₂ (kids_subset h)) htops tops_replace (same fun q hq => ?_)
        (ih₂ h₂ (mem_rest hr hpr hmem) hPb)
      exact ⟨ne_of_mem_of_not_mem hq hmem, hPa q hq fun h => hd hq (kids_subset h)⟩

end Kids

section Links

variable {child sibling child' sibling' : α → Option α} {ptr ptr' : Option α}

/-- The pointers from `ptr` on lead through the roots of a forest to `ptr'`, and from every node to
the trees below it. -/
def Seg (child sibling : α → Option α) : Option α → Forest α → Option α → Prop
  | ptr, nil, ptr' => ptr = ptr'
  | ptr, node p kids rest, ptr' => ptr = some p ∧ Seg child sibling (child p) kids none ∧
      Seg child sibling (sibling p) rest ptr'

theorem Seg.congr (h : Seg child sibling ptr F ptr')
    (hsame : ∀ p ∈ F.nodes, child' p = child p ∧ sibling' p = sibling p) :
    Seg child' sibling' ptr F ptr' := by
  induction F generalizing ptr ptr' with
  | nil => exact h
  | node p kids rest ih₁ ih₂ =>
    obtain ⟨hp, hk, hr⟩ := h
    obtain ⟨⟨hc, hs⟩, hsk, hsr⟩ := forall_node.mp hsame
    exact ⟨hp, ih₁ (hc ▸ hk) hsk, ih₂ (hs ▸ hr) hsr⟩

theorem seg_append : Seg child sibling ptr (a ++ b) ptr' ↔
    ∃ m, Seg child sibling ptr a m ∧ Seg child sibling m b ptr' := by
  induction a generalizing ptr with
  | nil => exact ⟨fun h => ⟨ptr, rfl, h⟩, fun ⟨m, hm, h⟩ => by rw [hm]; exact h⟩
  | node p kids rest _ ih =>
    constructor
    · rintro ⟨hp, hk, hr⟩
      obtain ⟨m, hm, hb⟩ := ih.mp hr
      exact ⟨m, ⟨hp, hk, hm⟩, hb⟩
    · rintro ⟨m, ⟨hp, hk, hm⟩, hb⟩
      exact ⟨hp, hk, ih.mpr ⟨m, hm, hb⟩⟩

def last : Forest α → Option α
  | nil => none
  | node p _ rest => match rest.last with
    | none => some p
    | some q => some q

theorem last_append_node : (a ++ node p F nil).last = some p := by
  induction a with
  | nil => rfl
  | node q kids rest _ ih => rw [node_append, last, ih]

theorem last_eq_none : F.last = none ↔ F = nil := by
  cases F with
  | nil => simp [last]
  | node p kids rest =>
    rw [last]
    cases rest.last <;> simp

theorem eq_append_of_last (h : F.last = some t) : ∃ a kids, F = a ++ node t kids nil := by
  induction F with
  | nil => simp [last] at h
  | node p kids rest _ ih =>
    rw [last] at h
    cases hr : rest.last with
    | none =>
      rw [hr] at h
      exact ⟨nil, kids, by rw [last_eq_none.mp hr, Option.some.inj h, nil_append]⟩
    | some q =>
      rw [hr] at h
      obtain ⟨a, k, rfl⟩ := ih (hr.trans h)
      exact ⟨node p kids a, k, rfl⟩

theorem mem_tops_of_last (h : F.last = some t) : t ∈ F.tops := by
  obtain ⟨a, kids, rfl⟩ := eq_append_of_last h
  simp

/-- A list of trees whose last pointer is overwritten: it is the pointer to the list if there are no
trees. -/
theorem Seg.relink {m m' : Option α} (h : Seg child sibling ptr F m) (hF : F.nodes.Nodup)
    (hchild : ∀ p ∈ F.nodes, child' p = child p)
    (hsib : ∀ p ∈ F.nodes, F.last ≠ some p → sibling' p = sibling p)
    (hlast : ∀ t, F.last = some t → sibling' t = m') (hnil : F.last = none → ptr' = m')
    (hptr : F.last ≠ none → ptr' = ptr) : Seg child' sibling' ptr' F m' := by
  cases hl : F.last with
  | none =>
    rw [last_eq_none.mp hl]
    exact hnil hl
  | some t =>
    obtain ⟨a, kids, rfl⟩ := eq_append_of_last hl
    rw [nodes_append, nodup_append', nodup_node] at hF
    obtain ⟨-, ⟨ht, -⟩, hd⟩ := hF
    obtain ⟨_, ha, rfl, hk, -⟩ := seg_append.mp h
    have hkeep q (hq : q ∈ (a ++ node t kids nil).nodes) (hne : q ≠ t) :
        child' q = child q ∧ sibling' q = sibling q :=
      ⟨hchild q hq, hsib q hq fun h => hne (Option.some.inj (h.symm.trans hl))⟩
    rw [hptr (by simp [hl])]
    refine seg_append.mpr ⟨_, ha.congr fun q hq => ?_, rfl, ?_, hlast t hl⟩
    · exact hkeep q (by simp [hq]) fun h => hd (h ▸ hq) (by simp)
    · rw [hchild t (by simp)]
      exact hk.congr fun q hq => hkeep q (by simp [hq]) (ne_of_mem_of_not_mem hq ht)

theorem Seg.sibling_last {m : Option α} (h : Seg child sibling ptr F m) (ht : F.last = some t) :
    sibling t = m := by
  obtain ⟨a, kids, rfl⟩ := eq_append_of_last ht
  obtain ⟨_, -, -, -, hm⟩ := seg_append.mp h
  exact hm

theorem Seg.exists_head {m : Option α} (h : Seg child sibling ptr F m) (ht : F.last = some t) :
    ∃ head ∈ F.tops, ptr = some head := by
  cases F with
  | nil => simp [last] at ht
  | node p kids rest => exact ⟨p, by simp, h.1⟩

theorem Seg.eq_head? (h : Seg child sibling ptr F none) : ptr = F.tops.head? := by
  cases F with
  | nil => exact h
  | node p kids rest => exact h.1

variable [DecidableEq α]

theorem Seg.kids (h : Seg child sibling ptr F ptr') (hr : r ∈ F.nodes) :
    Seg child sibling (child r) (F.kids r) none :=
  kids_ind (P := fun F => ∃ ptr ptr', Seg child sibling ptr F ptr')
    (fun ⟨_, _, _, hk, hb⟩ => ⟨hk, _, _, hb⟩)
    (fun h => ⟨_, _, h⟩) ⟨_, _, h⟩ hr

/-- The links after the children of a node have been replaced. -/
theorem Seg.replace (h : Seg child sibling ptr F ptr') (hF : F.nodes.Nodup) (hr : r ∈ F.nodes)
    (hsame : ∀ p ∈ F.nodes, p ∉ (F.kids r).nodes →
      (p ≠ r → child' p = child p) ∧ sibling' p = sibling p)
    (hK : Seg child' sibling' (child' r) K none) :
    Seg child' sibling' ptr (F.replace r K) ptr' := by
  refine replace_ind (R := fun F G => ∀ {ptr ptr'}, Seg child sibling ptr F ptr' →
    Seg child' sibling' ptr G ptr') hF hr hsame ?_ ?_ ?_ h
  · exact fun ha _ _ h => h.congr fun q hq => (ha q hq).2.imp_left (· (ha q hq).1)
  · rintro a b hs - hb ptr ptr' ⟨hp, -, hrest⟩
    exact ⟨hp, hK, hb (hs.2 ▸ hrest)⟩
  · rintro p a a' b b' hne hs - - ha hb ptr ptr' ⟨hp, hk, hrest⟩
    exact ⟨hp, ha (hs.1 hne ▸ hk), hb (hs.2 ▸ hrest)⟩

end Links

section Parents

variable {parent parent' : α → Option α} {par : Option α}

/-- Every node points to the one that it is below. -/
def Parents (parent : α → Option α) : Option α → Forest α → Prop
  | _, nil => True
  | par, node p kids rest => parent p = par ∧ Parents parent (some p) kids ∧ Parents parent par rest

theorem Parents.congr (h : Parents parent par F) (hsame : ∀ p ∈ F.nodes, parent' p = parent p) :
    Parents parent' par F := by
  induction F generalizing par with
  | nil => trivial
  | node p kids rest ih₁ ih₂ =>
    obtain ⟨hp, hk, hr⟩ := h
    obtain ⟨hsp, hsk, hsr⟩ := forall_node.mp hsame
    exact ⟨hsp.trans hp, ih₁ hk hsk, ih₂ hr hsr⟩

theorem parents_append :
    Parents parent par (a ++ b) ↔ Parents parent par a ∧ Parents parent par b := by
  induction a with
  | nil => exact ⟨fun h => ⟨trivial, h⟩, fun h => h.2⟩
  | node p kids rest _ ih =>
    rw [node_append, Parents, Parents, ih, and_assoc, and_assoc]

theorem Parents.of_mem_tops (h : Parents parent par F) (hp : p ∈ F.tops) : parent p = par := by
  induction F with
  | nil => simp at hp
  | node q kids rest _ ih =>
    rcases mem_cons.mp hp with rfl | hp
    · exact h.1
    · exact ih h.2.2 hp

theorem Parents.set_parent {par' : Option α} (h : Parents parent par F)
    (htops : ∀ p ∈ F.tops, parent' p = par')
    (hsame : ∀ p ∈ F.nodes, p ∉ F.tops → parent' p = parent p) (hF : F.nodes.Nodup) :
    Parents parent' par' F := by
  induction F generalizing par with
  | nil => trivial
  | node p kids rest _ ih =>
    obtain ⟨-, hk, hr⟩ := h
    obtain ⟨hp₁, hp₂, h₁, h₂, hd⟩ := nodup_node.mp hF
    refine ⟨htops p (by simp), hk.congr fun q hq => hsame q (by simp [hq]) ?_, ?_⟩
    · rw [tops_node, mem_cons, not_or]
      exact ⟨ne_of_mem_of_not_mem hq hp₁, fun h => hd hq (mem_nodes_of_mem_tops h)⟩
    · refine ih hr (fun q hq => htops q (by simp [hq]))
        (fun q hq hqt => hsame q (by simp [hq]) ?_) h₂
      rw [tops_node, mem_cons, not_or]
      exact ⟨ne_of_mem_of_not_mem hq hp₂, hqt⟩

variable [DecidableEq α]

theorem Parents.kids (h : Parents parent par F) (hr : r ∈ F.nodes) :
    Parents parent (some r) (F.kids r) :=
  kids_ind (P := fun F => ∃ par, Parents parent par F)
    (fun ⟨_, _, hk, hb⟩ => ⟨hk, _, hb⟩) (fun h => ⟨_, h⟩) ⟨_, h⟩ hr

theorem Parents.replace (h : Parents parent par F) (hF : F.nodes.Nodup) (hr : r ∈ F.nodes)
    (hsame : ∀ p ∈ F.nodes, p ∉ (F.kids r).nodes → parent' p = parent p)
    (hK : Parents parent' (some r) K) : Parents parent' par (F.replace r K) := by
  refine replace_ind (R := fun F G => ∀ {par}, Parents parent par F → Parents parent' par G) hF hr
    hsame ?_ ?_ ?_ h
  · exact fun ha _ h => h.congr fun q hq => (ha q hq).2
  · rintro a b hs - hb par ⟨hp, -, hrest⟩
    exact ⟨hs.trans hp, hK, hb hrest⟩
  · rintro p a a' b b' - hs - - ha hb par ⟨hp, hk, hrest⟩
    exact ⟨hs.trans hp, ha hk, hb hrest⟩

end Parents

end Forest

end LinuxKernel
