import Mathlib.Data.List.Basic

/-! # Circular lists

Every node of a circular list has a pointer to the next node and one to the node before, and the
list can be read from any of its nodes. A node that points to itself is a list of its own.
-/

namespace LinuxKernel

open Function List

structure Links (ι : Type) where
  next : ι → ι
  prev : ι → ι

namespace Links

variable {ι : Type} {r : Links ι} {x y z : ι} {l m : List ι}

section Path

/-- The nodes between two nodes, in both directions. -/
def Path (r : Links ι) : ι → List ι → ι → Prop
  | x, [], y => r.next x = y ∧ r.prev y = x
  | x, z :: l, y => (r.next x = z ∧ r.prev z = x) ∧ Path r z l y

@[simp] theorem path_cons : r.Path x (z :: l) y ↔ (r.next x = z ∧ r.prev z = x) ∧ r.Path z l y :=
  Iff.rfl

theorem path_append : r.Path x (l ++ y :: m) z ↔ r.Path x l y ∧ r.Path y m z := by
  induction l generalizing x with
  | nil => rfl
  | cons w l ih => rw [cons_append, path_cons, path_cons, ih, ← and_assoc]

/-- A circular list can be read from any of its nodes. -/
theorem path_rotate : r.Path x (l ++ y :: m) x ↔ r.Path y (m ++ x :: l) y := by
  rw [path_append, path_append, and_comm]

section

variable (h : r.Path x l y)
include h

theorem Path.next_eq : r.next x = (l ++ [y]).head (by simp) := by
  cases l with
  | nil => exact h.1
  | cons z l => exact h.1.1

theorem Path.prev_eq : r.prev y = (x :: l).getLast (by simp) := by
  induction l generalizing x with
  | nil => exact h.2
  | cons z l ih => rw [ih h.2, getLast_cons (cons_ne_nil z l)]

theorem Path.prev_mem : r.prev y ∈ x :: l := by
  rw [h.prev_eq]
  exact getLast_mem _

theorem Path.next_mem : r.next x ∈ l ++ [y] := by
  rw [h.next_eq]
  exact head_mem _

end

theorem Path.next_mem_cons (h : r.Path x l x) : r.next x ∈ x :: l :=
  (perm_append_singleton x l).mem_iff.mp h.next_mem

theorem Path.congr {r' : Links ι} (h : r.Path x l y) (hn : ∀ z ∈ x :: l, r'.next z = r.next z)
    (hp : ∀ z ∈ l ++ [y], r'.prev z = r.prev z) : r'.Path x l y := by
  induction l generalizing x with
  | nil => exact ⟨(hn x (by simp)).trans h.1, (hp y (by simp)).trans h.2⟩
  | cons w l ih =>
    refine ⟨⟨(hn x (by simp)).trans h.1.1, (hp w (by simp)).trans h.1.2⟩, ih h.2 ?_ ?_⟩
    · exact fun z hz => hn z (mem_cons_of_mem _ hz)
    · exact fun z hz => hp z (mem_cons_of_mem _ hz)

/-- A node points to itself exactly if it is the only node of its list. -/
theorem Path.next_eq_self (h : r.Path x l x) (hx : x ∉ l) : r.next x = x ↔ l = [] := by
  cases l with
  | nil => exact ⟨fun _ => rfl, fun _ => h.1⟩
  | cons z l =>
    refine ⟨fun hself => ?_, fun hnil => (nomatch hnil)⟩
    rw [h.1.1] at hself
    exact absurd (hself ▸ mem_cons_self) hx

end Path

section Edit

variable [DecidableEq ι] {new : ι}

def join (r : Links ι) (p n : ι) : Links ι := ⟨update r.next p n, update r.prev n p⟩

/-- `__list_add`. -/
def insert (r : Links ι) (new p n : ι) : Links ι := (r.join new n).join p new

/-- `list_add` puts a node behind another one. -/
def add (r : Links ι) (new head : ι) : Links ι := r.insert new head (r.next head)

/-- `list_add_tail` puts a node before another one. -/
def addTail (r : Links ι) (new head : ι) : Links ι := r.insert new (r.prev head) head

/-- `INIT_LIST_HEAD`. -/
def init (r : Links ι) (x : ι) : Links ι := r.join x x

/-- `list_del`, where the pointers of the node are not used any more. -/
def del (r : Links ι) (x : ι) : Links ι := r.join (r.prev x) (r.next x)

/-- `list_del_init`. -/
def delInit (r : Links ι) (x : ι) : Links ι := (r.del x).init x

/-- `list_empty`. -/
def isEmpty (r : Links ι) (x : ι) : Bool := r.next x = x

theorem isEmpty_iff : r.isEmpty x ↔ r.next x = x := decide_eq_true_iff

theorem join_next_self (p n : ι) : (r.join p n).next p = n := update_self ..

theorem join_prev_self (p n : ι) : (r.join p n).prev n = p := update_self ..

theorem join_next_of_ne {p n : ι} (h : z ≠ p) : (r.join p n).next z = r.next z := update_of_ne h ..

theorem join_prev_of_ne {p n : ι} (h : z ≠ n) : (r.join p n).prev z = r.prev z := update_of_ne h ..

theorem Path.join (h : r.Path x l y) (hnd : (x :: l).Nodup) (hz : z ∉ l) :
    (r.join (r.prev y) z).Path x l z := by
  induction l generalizing x with
  | nil =>
    rw [h.2]
    exact ⟨join_next_self .., join_prev_self ..⟩
  | cons w l ih =>
    obtain ⟨hx, hnd'⟩ := nodup_cons.mp hnd
    refine ⟨⟨?_, ?_⟩, ih h.2 hnd' fun hmem => hz (mem_cons_of_mem w hmem)⟩
    · rw [join_next_of_ne, h.1.1]
      rintro rfl
      exact hx h.2.prev_mem
    · rw [join_prev_of_ne, h.1.2]
      rintro rfl
      exact hz mem_cons_self

theorem Path.join_of_not_mem {p n : ι} (h : r.Path x l y) (hp : p ∉ x :: l) (hn : n ∉ l ++ [y]) :
    (r.join p n).Path x l y :=
  h.congr (fun _ hz => join_next_of_ne (ne_of_mem_of_not_mem hz hp))
    fun _ hz => join_prev_of_ne (ne_of_mem_of_not_mem hz hn)

theorem path_init (r : Links ι) (x : ι) : (r.init x).Path x [] x :=
  ⟨join_next_self .., join_prev_self ..⟩

theorem Path.addTail (h : r.Path x l x) (hnd : (x :: l).Nodup) (hnew : new ∉ x :: l) :
    (r.addTail new x).Path x (l ++ [new]) x := by
  have hlast : r.prev x ≠ new := fun heq => hnew (heq ▸ h.prev_mem)
  have hne : x ≠ new := fun heq => hnew (heq ▸ mem_cons_self)
  have hx : x ∉ l ++ [new] := by
    rw [mem_append, mem_singleton, not_or]
    exact ⟨(nodup_cons.mp hnd).1, hne⟩
  -- the two edges of the new node can be made in any order
  have heq : r.addTail new x = (r.join (r.prev x) new).join new x := by
    rw [Links.addTail, insert, Links.join, Links.join, Links.join, Links.join,
      update_comm hlast.symm, update_comm hne]
  rw [heq, path_append]
  have hpath := h.join hnd fun hmem => hnew (mem_cons_of_mem x hmem)
  exact ⟨hpath.join_of_not_mem hnew hx, join_next_self .., join_prev_self ..⟩

/-- To put a node behind another one is to put it before its successor. -/
theorem Path.add_eq (h : r.Path x l y) (new : ι) : r.add new x = r.addTail new (l.headD y) := by
  cases l with
  | nil => rw [add, Links.addTail, headD_nil, h.1, h.2]
  | cons z l => rw [add, Links.addTail, headD_cons, h.1.1, h.1.2]

theorem Path.del (h : r.Path x (y :: l) x) (hnd : (x :: y :: l).Nodup) : (r.del x).Path y l y := by
  obtain ⟨-, hnd'⟩ := nodup_cons.mp hnd
  rw [Links.del, h.1.1]
  exact h.2.join hnd' (nodup_cons.mp hnd').1

end Edit

section Cycle

/-- The nodes of a circular list from one of them on. -/
def Cycle (r : Links ι) : List ι → Prop
  | [] => True
  | x :: l => r.Path x l x

variable {a b : List ι} {new : ι}

theorem cycle_rotate : r.Cycle (a ++ b) ↔ r.Cycle (b ++ a) := by
  cases a with
  | nil => rw [nil_append, append_nil]
  | cons x a =>
    cases b with
    | nil => rw [nil_append, append_nil]
    | cons y b => exact path_rotate

theorem Cycle.congr {r' : Links ι} (h : r.Cycle l)
    (heq : ∀ z ∈ l, r'.next z = r.next z ∧ r'.prev z = r.prev z) : r'.Cycle l := by
  cases l with
  | nil => trivial
  | cons x l =>
    refine Path.congr h (fun z hz => (heq z hz).1) fun z hz => (heq z ?_).2
    simp only [mem_append, mem_cons, not_mem_nil, or_false] at hz ⊢
    exact hz.symm

theorem Cycle.next_eq (h : r.Cycle (a ++ x :: y :: b)) : r.next x = y := by
  rw [cycle_rotate] at h
  exact h.1.1

theorem Cycle.next_eq_self (h : r.Cycle (a ++ x :: b)) (hnd : (a ++ x :: b).Nodup) :
    r.next x = x ↔ a = [] ∧ b = [] := by
  have hpath : r.Path x (b ++ a) x := cycle_rotate.mp h
  have hperm : (a ++ x :: b).Perm (x :: (b ++ a)) := perm_append_comm
  have hx : x ∉ b ++ a := (nodup_cons.mp (hperm.nodup_iff.mp hnd)).1
  rw [hpath.next_eq_self hx, append_eq_nil_iff, and_comm]

theorem Cycle.prev_mem (h : r.Cycle (a ++ x :: b)) : r.prev x ∈ a ++ x :: b := by
  rw [cycle_rotate] at h
  exact perm_append_comm.mem_iff.mp (Path.prev_mem h)

theorem Cycle.next_mem (h : r.Cycle (a ++ x :: b)) : r.next x ∈ a ++ x :: b := by
  rw [cycle_rotate] at h
  exact perm_append_comm.mem_iff.mp (Path.next_mem_cons h)

variable [DecidableEq ι]

theorem Cycle.init (h : r.Cycle l) (hx : x ∉ l) : (r.init x).Cycle l := by
  refine h.congr fun z hz => ?_
  have hne := ne_of_mem_of_not_mem hz hx
  exact ⟨join_next_of_ne hne, join_prev_of_ne hne⟩

theorem Cycle.addTail (h : r.Cycle (a ++ y :: b)) (hnd : (a ++ y :: b).Nodup)
    (hnew : new ∉ a ++ y :: b) : (r.addTail new y).Cycle (a ++ new :: y :: b) := by
  have hperm : (a ++ y :: b).Perm (y :: (b ++ a)) := perm_append_comm
  rw [cycle_rotate] at h ⊢
  have htail := Path.addTail h (hperm.nodup_iff.mp hnd) fun hmem => hnew (hperm.mem_iff.mpr hmem)
  have : (r.addTail new y).Cycle ((y :: (b ++ a)) ++ [new]) := htail
  rw [cycle_rotate] at this
  exact this

theorem Cycle.addTail_headD (h : r.Cycle (x :: (a ++ b))) (hnd : (x :: (a ++ b)).Nodup)
    (hnew : new ∉ x :: (a ++ b)) : (r.addTail new (b.headD x)).Cycle (x :: (a ++ new :: b)) := by
  cases b with
  | nil =>
    have := Cycle.addTail (a := []) h hnd hnew
    rw [nil_append, ← singleton_append, cycle_rotate] at this
    simpa using this
  | cons y b => exact Cycle.addTail (a := x :: a) h hnd hnew

section

variable (h : r.Cycle (a ++ x :: b))
include h

theorem Cycle.del (hnd : (a ++ x :: b).Nodup) : (r.del x).Cycle (a ++ b) := by
  have hperm : (a ++ x :: b).Perm (x :: (b ++ a)) := perm_append_comm
  have hnd' := hperm.nodup_iff.mp hnd
  rw [cycle_rotate] at h ⊢
  rw [cons_append] at h
  cases hba : b ++ a with
  | nil => trivial
  | cons y l =>
    rw [hba] at h hnd'
    exact Path.del h hnd'

theorem Cycle.delInit (hnd : (a ++ x :: b).Nodup) : (r.delInit x).Cycle (a ++ b) :=
  (h.del hnd).init (nodup_cons.mp (perm_middle.nodup_iff.mp hnd)).1

end

end Cycle

section Only

/-- The nodes of a circular list, where each other node is a list of its own. -/
structure Only (r : Links ι) (l : List ι) : Prop where
  cycle : r.Cycle l
  nodup : l.Nodup
  alone : ∀ x ∉ l, r.next x = x ∧ r.prev x = x

namespace Only

variable {a b : List ι} {new : ι}

theorem rotate (h : r.Only (a ++ b)) : r.Only (b ++ a) :=
  ⟨cycle_rotate.mp h.cycle, perm_append_comm.nodup_iff.mp h.nodup,
    fun x hx => h.alone x (mt perm_append_comm.mem_iff.mp hx)⟩

theorem forget [DecidableEq ι] (h : r.Only [x]) : r.Only [] := by
  refine ⟨trivial, .nil, fun y _ => ?_⟩
  by_cases hy : y = x
  · exact hy ▸ h.cycle
  · exact h.alone y (by simpa using hy)

theorem single (h : r.Only []) (x : ι) : r.Only [x] :=
  ⟨h.alone x not_mem_nil, by simp, fun y _ => h.alone y not_mem_nil⟩

variable [DecidableEq ι] (h : r.Only (a ++ x :: b))
include h

theorem addTail (hnew : new ∉ a ++ x :: b) : (r.addTail new x).Only (a ++ new :: x :: b) := by
  refine ⟨h.cycle.addTail h.nodup hnew,
    perm_middle.nodup_iff.mpr (nodup_cons.mpr ⟨hnew, h.nodup⟩), fun z hz => ?_⟩
  rw [perm_middle.mem_iff, mem_cons, not_or] at hz
  have hzp : z ≠ r.prev x := fun heq => hz.2 (heq ▸ h.cycle.prev_mem)
  have hzx : z ≠ x := fun heq => hz.2 (heq ▸ mem_append_right a mem_cons_self)
  obtain ⟨hnext, hprev⟩ := h.alone z hz.2
  exact ⟨((join_next_of_ne hzp).trans (join_next_of_ne hz.1)).trans hnext,
    ((join_prev_of_ne hz.1).trans (join_prev_of_ne hzx)).trans hprev⟩

omit h in
theorem addTail_headD (h : r.Only (x :: (a ++ b))) (hnew : new ∉ x :: (a ++ b)) :
    (r.addTail new (b.headD x)).Only (x :: (a ++ new :: b)) := by
  cases b with
  | nil => simpa using (Only.addTail (a := []) h hnew).rotate (a := [new])
  | cons y b => exact Only.addTail (a := x :: a) h hnew

theorem add (hnew : new ∉ a ++ x :: b) : (r.add new x).Only (a ++ x :: new :: b) := by
  have hrot : r.Only (x :: ([] ++ (b ++ a))) := h.rotate
  rw [Path.add_eq hrot.cycle]
  have hadd := hrot.addTail_headD fun hmem => hnew (perm_append_comm.mem_iff.mp hmem)
  exact rotate hadd

theorem delInit : (r.delInit x).Only (a ++ b) := by
  refine ⟨h.cycle.delInit h.nodup,
    (nodup_cons.mp (perm_middle.nodup_iff.mp h.nodup)).2, fun z hz => ?_⟩
  by_cases hzx : z = x
  · exact hzx ▸ path_init _ x
  · have hz' : z ∉ a ++ x :: b := by
      rw [perm_middle.mem_iff, mem_cons]
      exact fun hmem => hmem.elim hzx hz
    have hzp : z ≠ r.prev x := fun heq => hz' (heq ▸ h.cycle.prev_mem)
    have hzn : z ≠ r.next x := fun heq => hz' (heq ▸ h.cycle.next_mem)
    obtain ⟨hnext, hprev⟩ := h.alone z hz'
    exact ⟨((join_next_of_ne hzx).trans (join_next_of_ne hzp)).trans hnext,
      ((join_prev_of_ne hzx).trans (join_prev_of_ne hzn)).trans hprev⟩

end Only

end Only

end Links

end LinuxKernel
