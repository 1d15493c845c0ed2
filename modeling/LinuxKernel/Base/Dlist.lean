import Mathlib.Data.List.Basic

/-! # Doubly linked lists

The nodes of a list have a pointer to the next node and one to the node before. Cutting nodes out
and linking a node in change the pointers at the two ends of the gap only.
-/

namespace LinuxKernel.Dlist

open Function List

variable {ι : Type} {next prev next' prev' : ι → Option ι} {p p' q q' : Option ι} {a b : List ι}

/-- A part of a list, with the node before it and the node behind it. -/
def Seg (next prev : ι → Option ι) : Option ι → List ι → Option ι → Prop
  | _, [], _ => True
  | p, x :: l, q => prev x = p ∧ next x = l.head?.or q ∧ Seg next prev (some x) l q

theorem seg_append : Seg next prev p (a ++ b) q ↔
    Seg next prev p a (b.head?.or q) ∧ Seg next prev (a.getLast?.or p) b q := by
  induction a generalizing p with
  | nil => simp [Seg]
  | cons x a ih =>
    have hlast : (x :: a).getLast?.or p = a.getLast?.or (some x) := by
      cases a <;> simp [getLast?_cons]
    rw [cons_append, Seg, Seg, ih, hlast, head?_append, Option.or_assoc, and_assoc, and_assoc]

theorem Seg.congr {l : List ι} (h : Seg next prev p l q) (hnext : ∀ x ∈ l, next' x = next x)
    (hprev : ∀ x ∈ l, prev' x = prev x) : Seg next' prev' p l q := by
  induction l generalizing p with
  | nil => trivial
  | cons x l ih =>
    obtain ⟨h1, h2, h3⟩ := h
    refine ⟨(hprev x mem_cons_self).trans h1, (hnext x mem_cons_self).trans h2, ?_⟩
    exact ih h3 (fun y hy => hnext y (mem_cons_of_mem _ hy))
      fun y hy => hprev y (mem_cons_of_mem _ hy)

theorem Seg.at {x : ι} (h : Seg next prev p (a ++ x :: b) q) :
    prev x = a.getLast?.or p ∧ next x = b.head?.or q := by
  obtain ⟨-, hprev, hnext, -⟩ := seg_append.mp h
  exact ⟨hprev, hnext⟩

section Set

variable [DecidableEq ι] {α : Type}

/-- The assignment of a field through a pointer that is tested before. -/
def setAt (f : ι → α) (x : Option ι) (v : α) : ι → α :=
  match x with
  | none => f
  | some x => update f x v

@[simp] theorem setAt_some (f : ι → α) (x : ι) (v : α) : setAt f (some x) v = update f x v := rfl

theorem setAt_of_ne {f : ι → α} {x : Option ι} {v : α} {y : ι} (h : x ≠ some y) :
    setAt f x v y = f y := by
  cases x with
  | none => rfl
  | some x => exact update_of_ne (fun hyx => h (by rw [hyx])) ..

theorem Seg.set_prev_head (h : Seg next prev p b q) (hnd : b.Nodup) (p' : Option ι) :
    Seg next (setAt prev b.head? p') p' b q := by
  cases b with
  | nil => trivial
  | cons x b =>
    obtain ⟨-, h2, h3⟩ := h
    refine ⟨update_self .., h2, h3.congr (fun _ _ => rfl) fun y hy => update_of_ne ?_ ..⟩
    rintro rfl
    exact (nodup_cons.mp hnd).1 hy

theorem Seg.set_next_last (h : Seg next prev p a q) (hnd : a.Nodup) :
    Seg (setAt next a.getLast? q') prev p a q' := by
  rcases eq_nil_or_concat a with rfl | ⟨l, x, rfl⟩
  · trivial
  · rw [concat_eq_append] at h hnd ⊢
    obtain ⟨h1, h2, -, -⟩ := seg_append.mp h
    rw [getLast?_concat, setAt_some]
    refine seg_append.mpr ⟨?_, h2, ?_, trivial⟩
    · refine h1.congr (fun y hy => update_of_ne ?_ ..) fun _ _ => rfl
      rintro rfl
      exact (nodup_append.mp hnd).2.2 y hy y (by simp) rfl
    · rw [update_self]
      rfl

theorem Seg.join (ha : Seg next prev p a q') (hb : Seg next prev p' b q) (hnd : (a ++ b).Nodup) :
    Seg (setAt next a.getLast? (b.head?.or q)) (setAt prev b.head? (a.getLast?.or p)) p (a ++ b)
      q := by
  obtain ⟨hnda, hndb, hdisj⟩ := nodup_append.mp hnd
  refine seg_append.mpr ⟨?_, ?_⟩
  · refine (ha.set_next_last hnda).congr (fun _ _ => rfl) fun x hx => setAt_of_ne fun h => ?_
    exact hdisj x hx x (mem_of_head? h) rfl
  · refine (hb.set_prev_head hndb _).congr (fun x hx => setAt_of_ne fun h => ?_) fun _ _ => rfl
    exact hdisj x (mem_of_getLast? h) x hx rfl

theorem Seg.cut {m : List ι} (h : Seg next prev p (a ++ (m ++ b)) q) (hnd : (a ++ (m ++ b)).Nodup) :
    Seg (setAt next a.getLast? (b.head?.or q)) (setAt prev b.head? (a.getLast?.or p)) p (a ++ b)
      q := by
  obtain ⟨ha, hmb⟩ := seg_append.mp h
  obtain ⟨-, hb⟩ := seg_append.mp hmb
  exact ha.join hb (hnd.sublist ((sublist_append_right m b).append_left a))

theorem Seg.link {n : ι} (h : Seg next prev p (a ++ b) q) (hnd : (a ++ b).Nodup) (hn : n ∉ a ++ b) :
    Seg (update (setAt next a.getLast? (some n)) n (b.head?.or q))
      (setAt (update prev n (a.getLast?.or p)) b.head? (some n)) p (a ++ n :: b) q := by
  obtain ⟨ha, hb⟩ := seg_append.mp h
  obtain ⟨hnda, hndb, hdisj⟩ := nodup_append.mp hnd
  obtain ⟨hna, hnb⟩ := not_or.mp fun h' => hn (mem_append.mpr h')
  have hne : ∀ {x}, x ∈ a ∨ x ∈ b → x ≠ n := by
    rintro x (hx | hx) rfl
    · exact hna hx
    · exact hnb hx
  have hhead : b.head? ≠ some n := fun h' => hnb (mem_of_head? h')
  refine seg_append.mpr ⟨?_, ?_, ?_, ?_⟩
  · refine (ha.set_next_last hnda).congr (fun x hx => update_of_ne (hne (.inl hx)) ..)
      fun x hx => ?_
    rw [setAt_of_ne fun h' => hdisj x hx x (mem_of_head? h') rfl, update_of_ne (hne (.inl hx))]
  · rw [setAt_of_ne hhead, update_self]
  · rw [update_self]
  · have hb' := hb.set_prev_head hndb (some n)
    refine hb'.congr (fun x hx => ?_) fun x hx => ?_
    · rw [update_of_ne (hne (.inr hx)), setAt_of_ne fun h' => hdisj x (mem_of_getLast? h') x hx rfl]
    · by_cases h' : b.head? = some x
      · rw [h', setAt_some, setAt_some, update_self, update_self]
      · rw [setAt_of_ne h', setAt_of_ne h', update_of_ne (hne (.inr hx))]

end Set

end LinuxKernel.Dlist
