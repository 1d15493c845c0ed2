import Mathlib.Data.List.Nodup
import Mathlib.Data.List.Pairwise
import LinuxKernel.Plist.Model

/-! # The order of a priority list

The nodes fall into groups of equal priority. `node_list` links all of them in the order of the
groups, and `prio_list` links the first node of every group.
-/

namespace LinuxKernel.Plist

open Function List Prod Nat Option

section Groups

/-- The first node of a group and the others. -/
abbrev Group := ℕ × List ℕ

def members (gs : List Group) : List ℕ := gs.flatMap fun g => g.1 :: g.2

variable {gs ga gb : List Group} {g : Group} {x : ℕ}

@[simp] theorem members_nil : members [] = [] := rfl

@[simp] theorem members_cons : members (g :: gs) = g.1 :: (g.2 ++ members gs) := rfl

@[simp] theorem members_append : members (ga ++ gb) = members ga ++ members gb := flatMap_append ..

theorem head?_members : (members gs).head? = (gs.map fst).head? := by
  cases gs <;> rfl

theorem mem_members : x ∈ members gs ↔ ∃ g ∈ gs, x ∈ g.1 :: g.2 := mem_flatMap

theorem mem_members_of_head (h : x ∈ gs.map fst) : x ∈ members gs := by
  obtain ⟨g, hg, rfl⟩ := mem_map.mp h
  exact mem_members.mpr ⟨g, hg, mem_cons_self⟩

theorem heads_sublist (gs : List Group) : (gs.map fst).Sublist (members gs) := by
  induction gs with
  | nil => exact .slnil
  | cons g gs ih =>
    exact (ih.trans (sublist_append_right ..)).cons_cons _

theorem not_mem_heads (hnd : (members gs).Nodup) (hg : g ∈ gs) (hx : x ∈ g.2) : x ∉ gs.map fst := by
  obtain ⟨ga, gb, rfl⟩ := append_of_mem hg
  rw [members_append, members_cons, perm_middle.nodup_iff, nodup_cons] at hnd
  obtain ⟨hfirst, hnd⟩ := hnd
  have hdisj : x ∉ members ga ∧ x ∉ members gb := by
    simp only [nodup_append, mem_append] at hnd
    exact ⟨fun hmem => hnd.2.2 x hmem x (.inl hx) rfl, fun hmem => hnd.2.1.2.2 x hx x hmem rfl⟩
  rw [map_append, map_cons, mem_append, mem_cons]
  rintro (hmem | rfl | hmem)
  · exact hdisj.1 (mem_members_of_head hmem)
  · exact hfirst (by simp [hx])
  · exact hdisj.2 (mem_members_of_head hmem)

end Groups

/-- The lists have the nodes of the groups. -/
structure Grouped (t : Traced) (gs : List Group) : Prop where
  nodes : t.list.nodeList.Cycle (none :: (members gs).map some)
  nodup : (members gs).Nodup
  heads : t.list.prioList.Cycle (gs.map fst)
  alone : ∀ x ∉ gs.map fst, t.list.prioList.next x = x ∧ t.list.prioList.prev x = x
  prio : ∀ g ∈ gs, ∀ x ∈ g.2, t.list.prio x = t.list.prio g.1
  increasing : (gs.map fst).Pairwise fun x y => t.list.prio x < t.list.prio y
  live : ∀ x, x ∈ t.live ↔ x ∈ members gs
  stamp : ∀ g ∈ gs, (g.1 :: g.2).Pairwise fun x y => t.stamp x < t.stamp y
  clock : ∀ x ∈ members gs, t.stamp x < t.clock

section Add

variable {s : Lists} {p : ℤ} {first y : ℕ} {a b l : List ℕ} {gs' : List Group}

/-- The loop stops before the first node of a greater priority. -/
theorem findPlace_spec (p : ℤ) (first : ℕ) : ∀ {b a : List ℕ} {y fuel : ℕ},
    s.prioList.Path y b first → first ∉ b → (∀ x ∈ a, s.prio x ≤ p) → b.length < fuel →
    ∃ a' b', a ++ y :: b = a' ++ b' ∧ (∀ x ∈ a', s.prio x ≤ p) ∧ (∀ x ∈ b'.head?, p < s.prio x) ∧
      findPlace s p first fuel y a.getLast? = some (a'.getLast?, b'.headD first, b'.head?)
  | b, a, y, fuel + 1, hpath, hfirst, ha, hfuel => by
    rw [findPlace]
    split
    · rename_i hlt
      exact ⟨a, y :: b, rfl, ha, by simpa using hlt, rfl⟩
    · rename_i hge
      have ha' : ∀ x ∈ a ++ [y], s.prio x ≤ p := fun x hx => by
        rcases mem_append.mp hx with hx | hx
        · exact ha x hx
        · rw [mem_singleton.mp hx]
          exact not_lt.mp hge
      cases b with
      | nil =>
        refine ⟨a ++ [y], [], by simp, ha', by simp, ?_⟩
        simp [hpath.1]
      | cons z b =>
        have hz : z ≠ first := fun heq => hfirst (heq ▸ mem_cons_self)
        obtain ⟨a', b', heq, h1, h2, h3⟩ := findPlace_spec p first hpath.2
          (fun hmem => hfirst (mem_cons_of_mem z hmem)) ha' (lt_of_succ_lt_succ hfuel)
        refine ⟨a', b', by simpa using heq, h1, h2, ?_⟩
        rw [getLast?_concat] at h3
        simp only [hpath.1.1, ne_eq, hz]
        exact h3

theorem findPlace_mono {place : Option ℕ × ℕ × Option ℕ} :
    ∀ {fuel fuel' y : ℕ} {prev : Option ℕ}, fuel ≤ fuel' →
      findPlace s p first fuel y prev = some place → findPlace s p first fuel' y prev = some place
  | fuel + 1, fuel' + 1, y, prev, hle, h => by
    rw [findPlace] at h ⊢
    split
    · rename_i hlt
      rwa [if_pos hlt] at h
    · rename_i hge
      rw [if_neg hge] at h
      dsimp only at h ⊢
      split
      · rename_i hne
        rw [if_pos hne] at h
        exact findPlace_mono (le_of_succ_le_succ hle) h
      · rename_i heq
        rwa [if_neg heq] at h

theorem plistAdd_mono {list : Lists} {node fuel fuel' : ℕ} (hle : fuel ≤ fuel')
    (h : plistAdd s node fuel = some list) : plistAdd s node fuel' = some list := by
  rw [plistAdd] at h ⊢
  cases hfirst : plistFirst s with
  | none => rwa [hfirst] at h
  | some first =>
    rw [hfirst] at h
    obtain ⟨place, hplace, hlist⟩ := bind_eq_some_iff.mp h
    exact bind_eq_some_iff.mpr ⟨place, findPlace_mono hle hplace, hlist⟩

variable {t : Traced} {gs ga gb : List Group} {g : Group} {node : ℕ} {A B : List ℕ}

theorem Grouped.plistFirst_eq (h : Grouped t gs) : plistFirst t.list = (members gs).head? := by
  rw [plistFirst, Links.Path.next_eq h.nodes]
  cases members gs <;> rfl

theorem Grouped.only (h : Grouped t gs) : t.list.prioList.Only (gs.map fst) :=
  ⟨h.heads, h.nodup.sublist (heads_sublist gs), h.alone⟩

theorem nodup_nodes (h : A.Nodup) : (none :: A.map some).Nodup :=
  nodup_cons.mpr ⟨by simp, h.map fun _ _ => some.inj⟩

theorem nodes_addTail {r : Links (Option ℕ)} (h : r.Cycle (none :: (A ++ B).map some))
    (hnd : (A ++ B).Nodup) (hnode : node ∉ A ++ B) :
    (r.addTail (some node) B.head?).Cycle (none :: (A ++ node :: B).map some) := by
  have hnd' := nodup_nodes hnd
  have hnew : some node ∉ none :: (A ++ B).map some := by
    simpa using fun hmem => hnode (mem_append.mpr hmem)
  have hhead : B.head? = (B.map some).headD none := by cases B <;> rfl
  rw [map_append] at h hnd' hnew ⊢
  rw [hhead]
  exact h.addTail_headD hnd' hnew

theorem heads_addTail {r : Links ℕ} (h : r.Only (a ++ b)) (hne : a ++ b ≠ [])
    (hnode : node ∉ a ++ b) : (r.addTail node (b.headD (a.headD 0))).Only (a ++ node :: b) := by
  cases a with
  | cons y a => exact h.addTail_headD hnode
  | nil =>
    cases b with
    | nil => exact absurd rfl hne
    | cons y b => exact h.addTail hnode

theorem Grouped.nodeInit (h : Grouped t gs) (hnode : node ∉ members gs) (p : ℤ) :
    Grouped { t with list := plistNodeInit t.list node p } gs := by
  have hne : ∀ x ∈ members gs, x ≠ node := fun x hx heq => hnode (heq ▸ hx)
  have hhead : ∀ g ∈ gs, g.1 ≠ node := fun g hg =>
    hne _ (mem_members.mpr ⟨g, hg, mem_cons_self⟩)
  have hprio : ∀ x, x ≠ node → (plistNodeInit t.list node p).prio x = t.list.prio x :=
    fun x hx => update_of_ne hx ..
  refine ⟨?_, h.nodup, ?_, ?_, ?_, ?_, h.live, h.stamp, h.clock⟩
  · exact h.nodes.init (by simpa using hnode)
  · exact h.heads.init fun hmem => hnode (mem_members_of_head hmem)
  · intro x hx
    by_cases hxn : x = node
    · subst hxn
      exact Links.path_init _ x
    · have := h.alone x hx
      exact ⟨(Links.join_next_of_ne hxn).trans this.1, (Links.join_prev_of_ne hxn).trans this.2⟩
  · intro g hg x hx
    have hxm := mem_members.mpr ⟨g, hg, mem_cons_of_mem _ hx⟩
    rw [hprio _ (hhead g hg), hprio x (hne x hxm)]
    exact h.prio g hg x hx
  · refine h.increasing.imp_of_mem fun hx hy hxy => ?_
    rwa [hprio _ (hne _ (mem_members_of_head hx)), hprio _ (hne _ (mem_members_of_head hy))]

/-- The groups below a priority and those above it, as the loop of `plist_add` finds them. -/
theorem Grouped.split (h : Grouped t gs) (p : ℤ) {first fuel : ℕ}
    (hfirst : plistFirst t.list = some first) (hfuel : gs.length ≤ fuel) :
    ∃ ga gb, gs = ga ++ gb ∧ ga ++ gb ≠ [] ∧ (∀ g ∈ ga, t.list.prio g.1 ≤ p) ∧
      (∀ g ∈ gb, p < t.list.prio g.1) ∧
      findPlace t.list p first fuel first none = some ((ga.map fst).getLast?,
        (gb.map fst).headD ((ga.map fst).headD 0), (gb.map fst).head?) := by
  have hhead : (gs.map fst).head? = some first := by
    rw [← head?_members, ← h.plistFirst_eq, hfirst]
  obtain ⟨m, hm⟩ := head?_eq_some_iff.mp hhead
  have hring := h.heads
  have hnd : (gs.map fst).Nodup := h.nodup.sublist (heads_sublist gs)
  have hlen : m.length < fuel := by
    have := congrArg length hm
    simp only [length_map, length_cons] at this
    omega
  rw [hm] at hring hnd
  obtain ⟨a, b, heq, ha, hb, hfind⟩ := findPlace_spec p first (a := []) hring
    (nodup_cons.mp hnd).1 (by simp) hlen
  obtain ⟨ga, gb, rfl, rfl, rfl⟩ := map_eq_append_iff.mp (hm.trans heq)
  have hfirst' : (gb.map fst).headD first = (gb.map fst).headD ((ga.map fst).headD 0) := by
    cases gb with
    | nil =>
      rw [map_nil, append_nil] at heq
      rw [← heq]
      rfl
    | cons g gb => rfl
  refine ⟨ga, gb, rfl, ?_, fun g hg => ha _ (mem_map_of_mem hg), fun g hg => ?_, ?_⟩
  · rintro hnil
    rw [hnil] at hm
    exact absurd hm (by simp)
  · cases gb with
    | nil => exact (nomatch hg)
    | cons g' gb =>
      have h1 : p < t.list.prio g'.1 := by simpa using hb
      rcases mem_cons.mp hg with rfl | hg
      · exact h1
      · have hinc := h.increasing
        rw [map_append] at hinc
        have := (pairwise_cons.mp (pairwise_append.mp hinc).2.1).1 g.1 (mem_map_of_mem hg)
        omega
  · rw [← hfirst']
    exact hfind

inductive Placed (prio : ℕ → ℤ) (node : ℕ) : List Group → List Group → Prop
  | group {ga gb : List Group} : (∀ g ∈ ga, prio g.1 < prio node) →
      (∀ g ∈ gb, prio node < prio g.1) → Placed prio node (ga ++ gb) (ga ++ (node, []) :: gb)
  | last {ga gb : List Group} {g : Group} : prio g.1 = prio node →
      Placed prio node (ga ++ g :: gb) (ga ++ (g.1, g.2 ++ [node]) :: gb)

theorem Placed.perm {prio : ℕ → ℤ} (h : Placed prio node gs gs') :
    (members gs').Perm (node :: members gs) := by
  cases h with
  | group h1 h2 =>
    simp only [members_append]
    exact perm_middle
  | @last ga gb g h1 =>
    have heq : members (ga ++ (g.1, g.2 ++ [node]) :: gb) =
        (members ga ++ g.1 :: g.2) ++ node :: members gb := by simp
    have heq' : members (ga ++ g :: gb) = (members ga ++ g.1 :: g.2) ++ members gb := by simp
    rw [heq, heq']
    exact perm_middle

theorem Placed.forall {prio : ℕ → ℤ} {P : Group → Prop} (hp : Placed prio node gs gs')
    (h : ∀ g ∈ gs, P g) (hnew : P (node, []))
    (hlast : ∀ g ∈ gs, prio g.1 = prio node → P g → P (g.1, g.2 ++ [node])) : ∀ g ∈ gs', P g := by
  cases hp with
  | group =>
    simp only [forall_mem_append, forall_mem_cons] at h ⊢
    exact ⟨h.1, hnew, h.2⟩
  | @last ga gb g heq =>
    have hg := hlast g (by simp) heq
    simp only [forall_mem_append, forall_mem_cons] at h ⊢
    exact ⟨h.1, hg h.2.1, h.2.2⟩

theorem Grouped.place (h : Grouped t gs) (hnode : node ∉ members gs)
    (hp : Placed t.list.prio node gs gs') {list : Lists} (hprio : list.prio = t.list.prio)
    (hnodes : list.nodeList.Cycle (none :: (members gs').map some))
    (honly : list.prioList.Only (gs'.map fst)) :
    Grouped ⟨list, insert node t.live, update t.stamp node t.clock, t.clock + 1⟩ gs' := by
  have hperm := hp.perm
  have hold : ∀ x ∈ members gs, update t.stamp node t.clock x = t.stamp x :=
    fun x hx => update_of_ne (ne_of_mem_of_not_mem hx hnode) ..
  have hnew : update t.stamp node t.clock node = t.clock := update_self ..
  -- what holds of the groups that were there holds of them still
  have hstamp : ∀ g ∈ gs, (g.1 :: g.2).Pairwise
      fun x y => update t.stamp node t.clock x < update t.stamp node t.clock y := fun g hg =>
    (h.stamp g hg).imp_of_mem fun hx hy hxy => by
      rwa [hold _ (mem_members.mpr ⟨g, hg, hx⟩), hold _ (mem_members.mpr ⟨g, hg, hy⟩)]
  refine ⟨hnodes, ?_, honly.cycle, honly.alone, ?_, ?_, fun x => ?_, ?_, fun x hx => ?_⟩
  · exact hperm.nodup_iff.mpr (nodup_cons.mpr ⟨hnode, h.nodup⟩)
  · simp only [hprio]
    refine hp.forall h.prio nofun fun g _ heq hg x hx => ?_
    rcases mem_append.mp hx with hx | hx
    · exact hg x hx
    · rw [mem_singleton.mp hx]
      exact heq.symm
  · simp only [hprio]
    have hinc := h.increasing
    cases hp with
    | group h1 h2 =>
      simp only [map_append, map_cons, pairwise_append, pairwise_cons] at hinc ⊢
      refine ⟨hinc.1, ⟨fun x hx => ?_, hinc.2.1⟩, fun x hx y hy => ?_⟩
      · obtain ⟨g, hg, rfl⟩ := mem_map.mp hx
        exact h2 g hg
      · rcases mem_cons.mp hy with rfl | hy
        · obtain ⟨g, hg, rfl⟩ := mem_map.mp hx
          exact h1 g hg
        · exact hinc.2.2 x hx y hy
    | last h1 => simpa using hinc
  · rw [hperm.mem_iff, mem_cons, ← h.live]
    exact Set.mem_insert_iff
  · refine hp.forall hstamp (pairwise_singleton ..) fun g hg _ hpair => ?_
    refine pairwise_append.mpr ⟨hpair, pairwise_singleton .., fun x hx y hy => ?_⟩
    have hxm := mem_members.mpr ⟨g, hg, hx⟩
    dsimp only
    rw [mem_singleton.mp hy, hnew, hold x hxm]
    exact h.clock x hxm
  · change update t.stamp node t.clock x < t.clock + 1
    rcases mem_cons.mp (hperm.mem_iff.mp hx) with rfl | hx
    · rw [hnew]
      exact lt_succ_self _
    · rw [hold x hx]
      exact (h.clock x hx).trans (lt_succ_self _)

theorem Grouped.add (h : Grouped t gs) (hnode : node ∉ members gs) {fuel : ℕ}
    (hfuel : gs.length ≤ fuel) : ∃ list gs', plistAdd t.list node fuel = some list ∧
      Grouped ⟨list, insert node t.live, update t.stamp node t.clock, t.clock + 1⟩ gs' := by
  have hhead : node ∉ gs.map fst := fun hmem => hnode (mem_members_of_head hmem)
  have honly := h.only
  cases hfirst : plistFirst t.list with
  | none =>
    obtain rfl : gs = [] := by
      rw [h.plistFirst_eq] at hfirst
      cases gs with
      | nil => rfl
      | cons g gs => cases hfirst
    refine ⟨_, [(node, [])], by rw [plistAdd]; simp only [hfirst]; rfl, ?_⟩
    exact h.place hnode (@Placed.group _ node [] [] (by simp) (by simp)) rfl
      (nodes_addTail (A := []) h.nodes h.nodup hnode) (honly.single node)
  | some first =>
    obtain ⟨ga, gb, rfl, hne, ha, hb, hfind⟩ := h.split (t.list.prio node) hfirst hfuel
    have hnodes : (t.list.nodeList.addTail (some node) (gb.map fst).head?).Cycle
        (none :: (members ga ++ node :: members gb).map some) := by
      rw [← head?_members]
      refine nodes_addTail ?_ ?_ ?_
      · simpa using h.nodes
      · simpa using h.nodup
      · simpa using hnode
    rw [plistAdd]
    simp only [hfirst, hfind]
    by_cases hlast : ((ga.map fst).getLast?).all fun q => t.list.prio q ≠ t.list.prio node
    · -- a group of its own
      refine ⟨_, ga ++ (node, []) :: gb, rfl, ?_⟩
      simp only [hlast]
      rw [map_append] at hhead honly
      have hring := heads_addTail honly (by simpa using hne) hhead
      refine h.place hnode (.group (fun g hg => ?_) hb) rfl (by simpa using hnodes)
        (by simpa using hring)
      · -- the last of the groups below has another priority, and those before it a smaller one
        rcases eq_nil_or_concat ga with rfl | ⟨ga', g', rfl⟩
        · exact (nomatch hg)
        · have hne' : t.list.prio g'.1 ≠ t.list.prio node := by simpa using hlast
          have hg' := ha g' (by simp)
          rcases (show g ∈ ga' ∨ g = g' by simpa using hg) with hg | rfl
          · have hinc := h.increasing
            simp only [concat_eq_append, map_append, pairwise_append] at hinc
            have := hinc.1.2.2 g.1 (mem_map_of_mem hg) g'.1 (by simp)
            omega
          · omega
    · -- at the end of a group
      rcases eq_nil_or_concat ga with rfl | ⟨ga', g', rfl⟩
      · exact absurd rfl hlast
      · have heq : t.list.prio g'.1 = t.list.prio node := by simpa using hlast
        rw [concat_eq_append, append_assoc] at h hnode
        refine ⟨_, ga' ++ (g'.1, g'.2 ++ [node]) :: gb, rfl, ?_⟩
        refine h.place hnode (.last heq) rfl (by simpa using hnodes) ?_
        rw [if_neg hlast]
        simpa using honly

end Add

section Del

variable {t : Traced} {gs ga gb : List Group} {g : Group} {node : ℕ} {gs' : List Group}

inductive Removed (node : ℕ) : List Group → List Group → Prop
  | group {ga gb : List Group} : Removed node (ga ++ (node, []) :: gb) (ga ++ gb)
  | first {ga gb : List Group} {x : ℕ} {l : List ℕ} :
      Removed node (ga ++ (node, x :: l) :: gb) (ga ++ (x, l) :: gb)
  | other {ga gb : List Group} {x : ℕ} {l m : List ℕ} :
      Removed node (ga ++ (x, l ++ node :: m) :: gb) (ga ++ (x, l ++ m) :: gb)

theorem exists_removed (h : node ∈ members gs) : ∃ gs', Removed node gs gs' := by
  obtain ⟨⟨x, l⟩, hg, hnode⟩ := mem_members.mp h
  obtain ⟨ga, gb, rfl⟩ := append_of_mem hg
  rcases mem_cons.mp hnode with rfl | hnode
  · cases l with
    | nil => exact ⟨_, .group⟩
    | cons y l => exact ⟨_, .first⟩
  · obtain ⟨l, m, rfl⟩ := append_of_mem hnode
    exact ⟨_, .other⟩

theorem Removed.members_eq (h : Removed node gs gs') :
    ∃ A B, members gs = A ++ node :: B ∧ members gs' = A ++ B := by
  cases h with
  | @group ga gb => exact ⟨members ga, members gb, by simp, by simp⟩
  | @first ga gb x l => exact ⟨members ga, x :: (l ++ members gb), by simp, by simp⟩
  | @other ga gb x l m =>
    exact ⟨members ga ++ x :: l, m ++ members gb, by simp, by simp⟩

theorem Removed.forall {P : Group → Prop} (hr : Removed node gs gs') (h : ∀ g ∈ gs, P g)
    (hfirst : ∀ x l, P (node, x :: l) → P (x, l))
    (hother : ∀ x l m, P (x, l ++ node :: m) → P (x, l ++ m)) : ∀ g ∈ gs', P g := by
  cases hr with
  | group =>
    simp only [forall_mem_append, forall_mem_cons] at h ⊢
    exact ⟨h.1, h.2.2⟩
  | first =>
    simp only [forall_mem_append, forall_mem_cons] at h ⊢
    exact ⟨h.1, hfirst _ _ h.2.1, h.2.2⟩
  | other =>
    simp only [forall_mem_append, forall_mem_cons] at h ⊢
    exact ⟨h.1, hother _ _ _ h.2.1, h.2.2⟩

variable (h : Grouped t gs)
include h

theorem Grouped.remove (hr : Removed node gs gs') {list : Lists} (hprio : list.prio = t.list.prio)
    (hnodes : list.nodeList.Cycle (none :: (members gs').map some))
    (honly : list.prioList.Only (gs'.map fst)) :
    Grouped { t with list, live := t.live \ {node} } gs' := by
  obtain ⟨A, B, hgs, hgs'⟩ := hr.members_eq
  have hsub : (members gs').Sublist (members gs) := by
    rw [hgs, hgs']
    exact (sublist_cons_self node B).append_left A
  have hmem : ∀ x, x ∈ members gs' ↔ x ∈ members gs ∧ x ≠ node := by
    have hnd := h.nodup
    rw [hgs] at hnd
    have hnode : node ∉ A ++ B := (nodup_cons.mp (perm_middle.nodup_iff.mp hnd)).1
    intro x
    rw [hgs, hgs', perm_middle.mem_iff, mem_cons]
    refine ⟨fun hx => ⟨.inr hx, fun heq => hnode (heq ▸ hx)⟩, fun ⟨hx, hne⟩ => ?_⟩
    exact hx.resolve_left hne
  refine ⟨hnodes, h.nodup.sublist hsub, honly.cycle, honly.alone, ?_, ?_, fun x => ?_, ?_,
    fun x hx => h.clock x (hsub.subset hx)⟩
  · simp only [hprio]
    refine hr.forall h.prio (fun x l hx y hy => ?_) fun x l m hx y hy => hx y ?_
    · exact (hx y (mem_cons_of_mem _ hy)).trans (hx x mem_cons_self).symm
    · exact perm_middle.mem_iff.mpr (mem_cons_of_mem _ hy)
  · simp only [hprio]
    have hinc := h.increasing
    cases hr with
    | @group ga gb => exact hinc.sublist (by simp)
    | @first ga gb x l =>
      have hx := h.prio (node, x :: l) (by simp) x mem_cons_self
      simp only [map_append, map_cons, pairwise_append, pairwise_cons,
        mem_cons, forall_eq_or_imp] at hinc hx ⊢
      simpa only [hx] using hinc
    | other => simpa using hinc
  · rw [hmem, ← h.live]
    exact Iff.rfl
  · refine hr.forall h.stamp (fun x l hx => (pairwise_cons.mp hx).2) fun x l m hx => ?_
    exact hx.sublist (((sublist_cons_self node m).append_left l).cons_cons x)

theorem Grouped.next_eq {A B : List ℕ} (heq : members gs = A ++ node :: B) :
    t.list.nodeList.next (some node) = B.head? := by
  have hnodes := h.nodes
  rw [heq] at hnodes
  cases B with
  | nil =>
    have : t.list.nodeList.Cycle ((none :: A.map some) ++ [some node]) := by simpa using hnodes
    rw [Links.cycle_rotate] at this
    exact this.1.1
  | cons y B =>
    exact Links.Cycle.next_eq (a := none :: A.map some) (by simpa using hnodes)

theorem Grouped.unlinkPrio (hr : Removed node gs gs') :
    (unlinkPrio t.list node).Only (gs'.map fst) := by
  have honly := h.only
  rw [Plist.unlinkPrio]
  cases hr with
  | @group ga gb =>
    have hnext : t.list.nodeList.next (some node) = (members gb).head? :=
      h.next_eq (A := members ga) (by simp)
    rw [map_append, map_cons] at honly
    rw [map_append]
    split
    · rename_i hempty
      obtain ⟨hga, hgb⟩ := (honly.cycle.next_eq_self honly.nodup).mp (Links.isEmpty_iff.mp hempty)
      rw [hga, hgb] at honly ⊢
      exact honly.forget
    · have hnew : addNext t.list node = t.list.prioList := by
        rw [addNext, hnext, head?_members]
        cases hgb : gb.map fst with
        | nil => rfl
        | cons y b =>
          rw [hgb, ← singleton_append, ← append_assoc] at honly
          refine if_neg ?_
          rw [Links.isEmpty_iff, honly.cycle.next_eq_self honly.nodup]
          simp
      rw [hnew]
      exact honly.delInit
  | @first ga gb x l =>
    have hnext : t.list.nodeList.next (some node) = (x :: (l ++ members gb)).head? :=
      h.next_eq (A := members ga) (by simp)
    have hx : x ∉ (ga ++ (node, x :: l) :: gb).map fst :=
      not_mem_heads h.nodup (g := (node, x :: l)) (by simp) mem_cons_self
    have hxself := h.alone x hx
    rw [map_append, map_cons] at honly hx
    rw [map_append, map_cons]
    split
    · rename_i hempty
      obtain ⟨hga, hgb⟩ := (honly.cycle.next_eq_self honly.nodup).mp (Links.isEmpty_iff.mp hempty)
      rw [hga, hgb] at honly ⊢
      exact honly.forget.single x
    · have hnew : addNext t.list node = t.list.prioList.add x node := by
        rw [addNext, hnext]
        exact if_pos (Links.isEmpty_iff.mpr hxself.1)
      rw [hnew]
      exact (honly.add hx).delInit
  | @other ga gb x l m =>
    have hnode : node ∉ (ga ++ (x, l ++ node :: m) :: gb).map fst :=
      not_mem_heads h.nodup (g := (x, l ++ node :: m)) (by simp) (by simp)
    rw [if_pos (Links.isEmpty_iff.mpr (h.alone node hnode).1)]
    simpa using honly

theorem Grouped.del (hnode : node ∈ members gs) : ∃ gs',
    Grouped { t with list := plistDel t.list node, live := t.live \ {node} } gs' := by
  obtain ⟨gs', hr⟩ := exists_removed hnode
  refine ⟨gs', h.remove hr rfl ?_ (h.unlinkPrio hr)⟩
  obtain ⟨A, B, hgs, hgs'⟩ := hr.members_eq
  have hnodes := h.nodes
  have hnd := nodup_nodes h.nodup
  rw [hgs, map_append, ← cons_append] at hnodes hnd
  rw [hgs', map_append, ← cons_append]
  exact hnodes.delInit hnd

end Del

section Order

variable {t : Traced} {gs : List Group} {prio₀ : ℕ → ℤ} {actions : List Action} {x : ℕ}

theorem Grouped.step {t' : Traced} {action : Action} (h : ∃ gs, Grouped t gs)
    (hstep : Step t action t') : ∃ gs, Grouped t' gs := by
  obtain ⟨gs, h⟩ := h
  cases hstep with
  | @add node p fuel list hnode hadd =>
    have hnode' : node ∉ members gs := fun hmem => hnode ((h.live node).mpr hmem)
    obtain ⟨list', gs', hadd', h'⟩ := (h.nodeInit hnode' p).add hnode' (le_max_right fuel gs.length)
    rw [plistAdd_mono (le_max_left fuel gs.length) hadd] at hadd'
    obtain rfl := some.inj hadd'
    exact ⟨gs', h'⟩
  | del hnode => exact h.del ((h.live _).mp hnode)

/-- The nodes of equal priority in the order in which they came. -/
def Before (t : Traced) (x y : ℕ) : Prop :=
  t.list.prio x < t.list.prio y ∨ t.list.prio x = t.list.prio y ∧ t.stamp x < t.stamp y

theorem grouped_initial (prio₀ : ℕ → ℤ) : Grouped (initial prio₀) [] where
  nodes := ⟨rfl, rfl⟩
  nodup := .nil
  heads := trivial
  alone _ _ := ⟨rfl, rfl⟩
  prio := nofun
  increasing := .nil
  live _ := by simp [initial]
  stamp := nofun
  clock := nofun

theorem Grouped.prio_eq {g : Group} (h : Grouped t gs) (hg : g ∈ gs) (hx : x ∈ g.1 :: g.2) :
    t.list.prio x = t.list.prio g.1 := by
  rcases mem_cons.mp hx with rfl | hx
  · rfl
  · exact h.prio g hg x hx

theorem Grouped.sorted (h : Grouped t gs) : (members gs).Pairwise (Before t) := by
  rw [members, pairwise_flatMap]
  constructor
  · intro g hg
    refine (h.stamp g hg).imp_of_mem fun {x y} hx hy hlt => .inr ⟨?_, hlt⟩
    rw [h.prio_eq hg hx, h.prio_eq hg hy]
  · refine (pairwise_map.mp h.increasing).imp_of_mem fun {g g'} hg hg' hlt x hx y hy => .inl ?_
    rw [h.prio_eq hg hx, h.prio_eq hg' hy]
    exact hlt

def Oldest (t : Traced) (x : ℕ) : Prop :=
  ∀ y ∈ t.live, t.list.prio y = t.list.prio x → t.stamp x ≤ t.stamp y

theorem Grouped.eq_of_prio_eq {g g' : Group} (h : Grouped t gs) (hg : g ∈ gs) (hg' : g' ∈ gs)
    (heq : t.list.prio g.1 = t.list.prio g'.1) : g = g' := by
  have hne : gs.Pairwise fun g g' => t.list.prio g.1 ≠ t.list.prio g'.1 :=
    (pairwise_map.mp h.increasing).imp fun hlt => hlt.ne
  have : Std.Symm fun g g' : Group => t.list.prio g.1 ≠ t.list.prio g'.1 := ⟨fun _ _ => Ne.symm⟩
  by_contra hdiff
  exact hne.forall hg hg' hdiff heq

/-- `prio_list` has the oldest node of every priority. -/
theorem Grouped.mem_heads (h : Grouped t gs) : x ∈ gs.map fst ↔ x ∈ t.live ∧ Oldest t x := by
  constructor
  · intro hx
    obtain ⟨g, hg, rfl⟩ := mem_map.mp hx
    refine ⟨(h.live _).mpr (mem_members_of_head hx), fun y hy heq => ?_⟩
    obtain ⟨g', hg', hy'⟩ := mem_members.mp ((h.live y).mp hy)
    obtain rfl := h.eq_of_prio_eq hg hg' (heq.symm.trans (h.prio_eq hg' hy'))
    rcases mem_cons.mp hy' with rfl | hy'
    · exact le_rfl
    · exact ((pairwise_cons.mp (h.stamp g hg)).1 y hy').le
  · rintro ⟨hx, hold⟩
    obtain ⟨g, hg, hx⟩ := mem_members.mp ((h.live x).mp hx)
    have hfirst : g.1 ∈ gs.map fst := mem_map_of_mem hg
    rcases mem_cons.mp hx with rfl | hx
    · exact hfirst
    · have hlt := (pairwise_cons.mp (h.stamp g hg)).1 x hx
      have hle := hold g.1 ((h.live _).mpr (mem_members_of_head hfirst)) (h.prio g hg x hx).symm
      omega

theorem Before.asymm {x y : ℕ} (h : Before t x y) : ¬ Before t y x := by
  rcases h with h | h <;> rintro (h' | h') <;> omega

/-- `plist_first` gives the oldest node of the smallest priority. -/
theorem Grouped.plistFirst_eq_some (h : Grouped t gs) :
    plistFirst t.list = some x ↔ x ∈ t.live ∧ ∀ y ∈ t.live, y = x ∨ Before t x y := by
  have hsorted := h.sorted
  have hlive := h.live
  rw [h.plistFirst_eq]
  cases hm : members gs with
  | nil =>
    rw [hm] at hlive
    simp [hlive]
  | cons z l =>
    rw [hm] at hsorted hlive
    have hz := (pairwise_cons.mp hsorted).1
    rw [head?_cons, some_inj]
    constructor
    · rintro rfl
      refine ⟨(hlive z).mpr mem_cons_self, fun y hy => ?_⟩
      exact (mem_cons.mp ((hlive y).mp hy)).imp_right (hz y)
    · rintro ⟨hx, hmin⟩
      rcases hmin z ((hlive z).mpr mem_cons_self) with heq | hbefore
      · exact heq
      · rcases mem_cons.mp ((hlive x).mp hx) with heq | hx
        · exact heq.symm
        · exact absurd hbefore (hz x hx).asymm

/-- The two lists of a priority list after any additions and deletions, and an addition ends. -/
theorem plist_sorted (hrun : Run Step (initial prio₀) actions t) :
    ∃ nodes heads : List ℕ,
      (t.list.nodeList.Cycle (none :: nodes.map some) ∧ nodes.Nodup ∧
        (∀ x, x ∈ nodes ↔ x ∈ t.live) ∧ nodes.Pairwise (Before t)) ∧
      (t.list.prioList.Cycle heads ∧ (∀ x, x ∈ heads ↔ x ∈ t.live ∧ Oldest t x) ∧
        heads.Pairwise (fun x y => t.list.prio x < t.list.prio y) ∧
        ∀ x ∉ heads, t.list.prioList.next x = x ∧ t.list.prioList.prev x = x) ∧
      (∀ x, plistFirst t.list = some x ↔ x ∈ t.live ∧ ∀ y ∈ t.live, y = x ∨ Before t x y) ∧
      ∀ node ∉ t.live, ∀ prio, ∀ fuel ≥ heads.length,
        (plistAdd (plistNodeInit t.list node prio) node fuel).isSome := by
  obtain ⟨gs, h⟩ := hrun.invariant (I := fun t => ∃ gs, Grouped t gs) Grouped.step
    ⟨[], grouped_initial prio₀⟩
  refine ⟨members gs, gs.map fst, ⟨h.nodes, h.nodup, fun x => (h.live x).symm, h.sorted⟩,
    ⟨h.heads, fun x => h.mem_heads, h.increasing, h.alone⟩, fun x => h.plistFirst_eq_some,
    fun node hnode prio fuel hfuel => ?_⟩
  have hnode' : node ∉ members gs := fun hmem => hnode ((h.live node).mpr hmem)
  rw [length_map] at hfuel
  obtain ⟨list, _, hadd, -⟩ := (h.nodeInit hnode' prio).add hnode' hfuel
  exact isSome_iff_exists.mpr ⟨list, hadd⟩

/-- A node, one before it and one of the same priority, where the first one is deleted. -/
theorem plist_sorted_three :
    ∃ t, Run Step (initial fun _ => 0) [.add 0 5, .add 1 3, .add 2 5, .del 0] t ∧
      plistFirst t.list = some 1 ∧ t.list.prioList.next 1 = 2 ∧
      ∀ x, plistFirst t.list = some x ↔ x ∈ t.live ∧ ∀ y ∈ t.live, y = x ∨ Before t x y := by
  have hrun : ∃ t, Run Step (initial fun _ => 0) [.add 0 5, .add 1 3, .add 2 5, .del 0] t ∧
      plistFirst t.list = some 1 ∧ t.list.prioList.next 1 = 2 := by
    refine ⟨_, .cons (@Step.add _ 0 5 0 _ (by simp [initial]) rfl)
      (.cons (@Step.add _ 1 3 1 _ (by simp [initial]) rfl)
      (.cons (@Step.add _ 2 5 2 _ (by simp [initial]) rfl)
      (.cons (.del (by simp)) (.nil _)))), ?_, ?_⟩
    · decide
    · decide
  obtain ⟨t, hrun, hfirst, hnext⟩ := hrun
  obtain ⟨-, -, -, -, hiff, -⟩ := plist_sorted hrun
  exact ⟨t, hrun, hfirst, hnext, hiff⟩

end Order

end LinuxKernel.Plist
