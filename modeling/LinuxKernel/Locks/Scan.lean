import Mathlib.Tactic
import LinuxKernel.Locks.Model

/-! # The loop over the locks of the requester

The locks of one owner are sorted, and between two of the same type there is a gap. The loop
passes the locks that lie before the request, absorbs those that it touches and stops at the
first one behind it. At most the first lock it touches reaches out of the request to the left,
and at most the last one to the right.
-/

namespace LinuxKernel.Locks

open List

variable {ω : Type*} {a b fl r : FileLock ω} {P R rest : List (FileLock ω)}
  {st : Scan ω} {x : ℤ} {t : LockType}

/-- One lock lies before another, with a gap between them if they have the same type. -/
def Before (a b : FileLock ω) : Prop :=
  a.flEnd < b.flStart ∧ (a.flType = b.flType → a.flEnd + 1 < b.flStart)

def Covers (a : FileLock ω) (x : ℤ) : Prop := a.flStart ≤ x ∧ x ≤ a.flEnd

instance (a : FileLock ω) (x : ℤ) : Decidable (Covers a x) := inferInstanceAs (Decidable (_ ∧ _))

/-- Does a list have a lock of a type at a byte? -/
def Holds (l : List (FileLock ω)) (t : LockType) (x : ℤ) : Prop :=
  ∃ a ∈ l, a.flType = t ∧ Covers a x

structure Group (o : ω) (l : List (FileLock ω)) : Prop where
  mine : ∀ a ∈ l, a.flPosix = true ∧ a.flOwner = o
  sorted : l.Pairwise Before
  range : ∀ a ∈ l, a.flStart ≤ a.flEnd
  type : ∀ a ∈ l, a.flType ≠ .unlck
  ids : (l.map (·.id)).Nodup

section Before

theorem Before.mono {a' b' : FileLock ω} (h : Before a b) (ha : a'.flEnd ≤ a.flEnd)
    (hb : b.flStart ≤ b'.flStart) (hta : a'.flType = a.flType) (htb : b'.flType = b.flType) :
    Before a' b' := by
  obtain ⟨h₁, h₂⟩ := h
  rw [← hta, ← htb] at h₂
  refine ⟨by omega, fun ht => ?_⟩
  have := h₂ ht
  omega

theorem Before.trans {c : FileLock ω} (h : Before a b) (hb : b.flStart ≤ b.flEnd)
    (h' : Before b c) : Before a c := by
  have h₁ := h.1
  have h₂ := h'.1
  exact ⟨by omega, fun _ => by omega⟩

theorem Before.not_covers (h : Before a b) (ha : Covers a x) : ¬ Covers b x := fun hb => by
  have h₁ := h.1
  have h₂ := ha.2
  have h₃ := hb.1
  omega

@[simp] theorem holds_nil : ¬ Holds ([] : List (FileLock ω)) t x := by
  rintro ⟨a, ha, -⟩
  cases ha

theorem holds_append {l l' : List (FileLock ω)} :
    Holds (l ++ l') t x ↔ Holds l t x ∨ Holds l' t x := by
  simp only [Holds, mem_append, or_and_right, exists_or]

theorem holds_cons : Holds (a :: rest) t x ↔ (a.flType = t ∧ Covers a x) ∨ Holds rest t x := by
  simp only [Holds, mem_cons, or_and_right, exists_or, exists_eq_left]

theorem holds_singleton : Holds [a] t x ↔ a.flType = t ∧ Covers a x := by
  rw [holds_cons, or_iff_left holds_nil]

end Before

instance (a b : FileLock ω) : Decidable (Before a b) := inferInstanceAs (Decidable (_ ∧ (_ → _)))

/-- One round of the loop, in terms of the order of the locks. -/
theorem scan_cons [DecidableEq ω] (ho : st.request.flOwner = fl.flOwner) :
    scan st (fl :: rest) =
      if Before fl st.request then scan (st.next fl) rest
      else if Before st.request fl then (st, fl :: rest)
      else if st.request.flType = fl.flType then scan (st.merge fl) rest
      else if fl.flEnd > st.request.flEnd then ({ st.note fl with right := some fl }, fl :: rest)
      else if fl.flStart ≥ st.request.flStart then scan ((st.note fl).replace fl) rest
      else scan ((st.note fl).next fl) rest := by
  have hsame : posixSameOwner st.request fl = true := decide_eq_true ho
  rw [scan, hsame]
  by_cases ht : st.request.flType = fl.flType
  · have hb : Before fl st.request ↔ fl.flEnd < st.request.flStart - 1 :=
      ⟨fun h => by have := h.2 ht.symm; omega, fun h => ⟨by omega, fun _ => by omega⟩⟩
    have hb' : Before st.request fl ↔ fl.flStart - 1 > st.request.flEnd :=
      ⟨fun h => by have := h.2 ht; omega, fun h => ⟨by omega, fun _ => by omega⟩⟩
    simp [hb, hb', ht]
  · have hb : Before fl st.request ↔ fl.flEnd < st.request.flStart :=
      ⟨And.left, fun h => ⟨h, fun heq => absurd heq.symm ht⟩⟩
    have hb' : Before st.request fl ↔ fl.flStart > st.request.flEnd :=
      ⟨And.left, fun h => ⟨h, fun heq => absurd heq ht⟩⟩
    simp only [hb, hb', ht]
    rfl

theorem Scan.merge_of_fresh (fl : FileLock ω) (h : st.added = false) : st.merge fl =
    st.become { fl with flStart := st.mergeStart fl, flEnd := st.mergeEnd fl } := by
  rw [Scan.merge, h]
  rfl

theorem Scan.merge_of_added (fl : FileLock ω) (h : st.added = true) :
    st.merge fl = { st.wake fl with
      request := { st.request with flStart := st.mergeStart fl, flEnd := st.mergeEnd fl } } := by
  rw [Scan.merge, h]
  rfl

section SetEnd

variable {i : ℕ} {v : ℤ} {l l' : List (FileLock ω)}

theorem setEnd_of_notMem (h : i ∉ l.map (·.id)) : setEnd i v l = l := by
  refine (map_congr_left fun a ha => if_neg fun heq => h ?_).trans l.map_id
  exact heq ▸ mem_map_of_mem ha

theorem setEnd_append : setEnd i v (l ++ l') = setEnd i v l ++ setEnd i v l' := map_append

theorem setEnd_cons_self : setEnd a.id v (a :: l) = { a with flEnd := v } :: setEnd a.id v l := by
  rw [setEnd, map_cons, if_pos rfl]
  rfl

end SetEnd

/-- The locks left behind, with the end of the first lock that the request touches cut off. -/
def Scan.trimmed (st : Scan ω) : List (FileLock ω) := trimLeft st.request st.left st.before

/-- The state of the loop after the locks `P`, with `R` still to come. -/
structure Scanned (r : FileLock ω) (P R : List (FileLock ω)) (st : Scan ω) : Prop where
  sub : st.before.Sublist P
  ids : (st.done.map (·.id)).Sublist (P.map (·.id))
  after : st.after = []
  right : st.right = none
  left : ∀ {a}, st.left = some a → a ∈ st.before ∧ st.request.flStart ≤ a.flEnd
  posix : st.request.flPosix = true
  owner : st.request.flOwner = r.flOwner
  type : st.request.flType = r.flType
  wide : ∀ {x}, Covers r x → Covers st.request x
  clear : ∀ {a}, a ∈ st.trimmed → Before a st.request ∧ a.flStart ≤ a.flEnd
  same : ∀ {x} t, ¬ Covers st.request x → (Holds st.trimmed t x ↔ Holds P t x)
  gained : ∀ {x}, Covers st.request x → ¬ Covers r x → Holds P r.flType x
  idle : (∀ a ∈ P, Before a r) → st.left = none ∧ st.added = false
  quiet : r.flType = .unlck → st.added = false → ∀ a ∈ P, Before a r
  ahead : ¬ (∀ a ∈ P, Before a r) → ∀ b ∈ R, st.request.flStart ≤ b.flStart
  fresh : st.added = false → st.before = P ∧ st.aliased = false
  plain : st.aliased = false → st.request = r
  kind : st.added = true → (st.aliased = true ↔ r.flType ≠ .unlck)

namespace Scanned

theorem init (hr : r.flPosix = true) :
    Scanned r [] R ⟨[], r, false, [], false, none, none, []⟩ where
  sub := .slnil
  ids := .slnil
  after := rfl
  right := rfl
  left h := by cases h
  posix := hr
  owner := rfl
  type := rfl
  wide := id
  clear h := by cases h
  same _ _ := Iff.rfl
  gained h h' := (h' h).elim
  idle _ := ⟨rfl, rfl⟩
  quiet _ _ _ ha := by cases ha
  ahead h := (h fun a ha => by cases ha).elim
  fresh _ := ⟨rfl, rfl⟩
  plain _ := rfl
  kind h := by cases h

variable (hG : Group r.flOwner (P ++ fl :: R)) (hs : Scanned r P (fl :: R) st)
include hs

theorem pristine (h : ∀ a ∈ P, Before a r) :
    st.left = none ∧ st.added = false ∧ st.before = P ∧ st.aliased = false ∧ st.request = r := by
  obtain ⟨hleft, hadded⟩ := hs.idle h
  obtain ⟨hbefore, haliased⟩ := hs.fresh hadded
  exact ⟨hleft, hadded, hbefore, haliased, hs.plain haliased⟩

theorem untouched (h : fl.flStart < st.request.flStart) : ∀ a ∈ P, Before a r := by
  by_contra hn
  have := hs.ahead hn fl mem_cons_self
  omega

include hG

omit hs in
theorem range_fl : fl.flStart ≤ fl.flEnd := hG.range fl (by simp)

omit hs in
theorem before_fl (ha : a ∈ P) : Before a fl :=
  (pairwise_append.mp hG.sorted).2.2 a ha fl mem_cons_self

omit hs in
theorem fl_before (hb : b ∈ R) : Before fl b :=
  (pairwise_cons.mp (pairwise_append.mp hG.sorted).2.1).1 b hb

omit hG in
/-- A lock that is passed before the request has changed. -/
theorem pass {left : Option (FileLock ω)} {added : Bool} (hP : ∀ a ∈ P, Before a r)
    (hleft : ∀ {a}, left = some a → a ∈ P ++ [fl] ∧ r.flStart ≤ a.flEnd)
    (hclear : ∀ {a}, a ∈ trimLeft r left (P ++ [fl]) → Before a r ∧ a.flStart ≤ a.flEnd)
    (hsame : ∀ {x} t, ¬ Covers r x →
      (Holds (trimLeft r left (P ++ [fl])) t x ↔ Holds (P ++ [fl]) t x))
    (hidle : (∀ a ∈ P ++ [fl], Before a r) → left = none ∧ added = false)
    (hquiet : r.flType = .unlck → added = false → ∀ a ∈ P ++ [fl], Before a r)
    (hahead : ¬ (∀ a ∈ P ++ [fl], Before a r) → ∀ b ∈ R, r.flStart ≤ b.flStart)
    (hkind : added = true → r.flType = .unlck) :
    Scanned r (P ++ [fl]) R { st with before := P ++ [fl], left := left, added := added } := by
  obtain ⟨-, -, -, haliased, hreq⟩ := hs.pristine hP
  subst hreq
  exact {
    sub := .refl _
    ids := by simp [Scan.done, haliased, hs.after]
    after := hs.after
    right := hs.right
    left := hleft
    posix := hs.posix
    owner := rfl
    type := rfl
    wide := id
    clear := hclear
    same := hsame
    gained := absurd
    idle := hidle
    quiet := hquiet
    ahead := hahead
    fresh := fun _ => ⟨rfl, haliased⟩
    plain := fun _ => rfl
    kind := fun h => by simp [haliased, hkind h] }

theorem next (h : Before fl st.request) : Scanned r (P ++ [fl]) R (st.next fl) := by
  have hrange := range_fl hG
  have hP := hs.untouched (by have := h.1; omega)
  obtain ⟨hleft, hadded, hbefore, haliased, hreq⟩ := hs.pristine hP
  have hall : ∀ a ∈ P ++ [fl], Before a r :=
    forall_mem_append.mpr ⟨hP, forall_mem_singleton.mpr (hreq ▸ h)⟩
  have hnext : st.next fl = { st with before := P ++ [fl], left := none, added := false } := by
    simp [Scan.next, haliased, hbefore, ← hleft, ← hadded]
  rw [hnext]
  refine hs.pass hP (fun h => by cases h) (fun ha => ⟨hall _ ha, hG.range _ ?_⟩)
    (fun _ _ => Iff.rfl) (fun _ => ⟨rfl, rfl⟩) (fun _ _ => hall) (fun h => absurd hall h)
    (fun h => by cases h)
  rw [append_cons]
  exact mem_append_left _ ha

/-- A lock that the request absorbs: `q` is the request that covers both. -/
theorem absorb {st' : Scan ω} (hn : ¬ Before fl st.request) (hbefore : st'.before = st.before)
    (hleft : st'.left = st.left) (hright : st'.right = st.right) (hafter : st'.after = st.after)
    (hadded : st'.added = true)
    (hids : (st'.done.map (·.id)).Sublist ((P ++ [fl]).map (·.id)))
    (hposix : st'.request.flPosix = true) (howner : st'.request.flOwner = r.flOwner)
    (htype : st'.request.flType = r.flType)
    (hcovers : ∀ x, Covers st'.request x ↔ Covers st.request x ∨ Covers fl x)
    (hnew : ∀ x, Covers fl x → ¬ Covers st.request x → fl.flType = r.flType)
    (hstart : st'.request.flStart = st.request.flStart ∨ fl.flType = r.flType ∧
      st'.request.flStart = fl.flStart ∧ fl.flStart < st.request.flStart)
    (hplain : st'.aliased = false → st'.request = r)
    (hkind : st'.aliased = true ↔ r.flType ≠ .unlck) : Scanned r (P ++ [fl]) R st' := by
  have hrange := range_fl hG
  have htouched : ¬ ∀ a ∈ P ++ [fl], Before a r := by
    intro hall
    obtain ⟨-, -, -, -, hreq⟩ := hs.pristine fun a ha => hall a (mem_append_left _ ha)
    rw [hreq] at hn
    exact hn (hall fl (by simp))
  have htrim : st'.trimmed = st.trimmed := by
    rw [Scan.trimmed, Scan.trimmed, hbefore, hleft]
    rcases hl : st.left with _ | a
    · rfl
    rcases hstart with hstart | ⟨-, -, hlt⟩
    · rw [trimLeft, trimLeft, hstart]
    · obtain ⟨hnone, -⟩ := hs.pristine (hs.untouched hlt)
      rw [hnone] at hl
      cases hl
  constructor
  case sub =>
    rw [hbefore]
    exact hs.sub.trans (sublist_append_left P [fl])
  case ids => exact hids
  case after => rw [hafter, hs.after]
  case right => rw [hright, hs.right]
  case left =>
    intro a ha
    obtain ⟨hmem, hle⟩ := hs.left (hleft ▸ ha)
    rw [hbefore]
    exact ⟨hmem, by omega⟩
  case posix => exact hposix
  case owner => exact howner
  case type => exact htype
  case wide => exact fun hx => (hcovers _).mpr (.inl (hs.wide hx))
  case clear =>
    intro a ha
    rw [htrim] at ha
    obtain ⟨hbef, hrg⟩ := hs.clear ha
    refine ⟨?_, hrg⟩
    rcases hstart with hstart | ⟨hty, hstart, hlt⟩
    · exact hbef.mono le_rfl hstart.ge rfl (htype.trans hs.type.symm)
    · obtain ⟨hnone, -, hP, -, -⟩ := hs.pristine (hs.untouched hlt)
      rw [Scan.trimmed, hnone, hP] at ha
      exact (before_fl hG ha).mono le_rfl hstart.ge rfl (htype.trans hty.symm)
  case same =>
    intro x t hx
    rw [hcovers, not_or] at hx
    rw [htrim, hs.same t hx.1, holds_append, holds_singleton]
    exact (or_iff_left fun h => hx.2 h.2).symm
  case gained =>
    intro x hx hr
    rw [holds_append, holds_singleton]
    by_cases hq : Covers st.request x
    · exact .inl (hs.gained hq hr)
    · have hfl := ((hcovers x).mp hx).resolve_left hq
      exact .inr ⟨hnew x hfl hq, hfl⟩
  case idle => exact fun h => (htouched h).elim
  case quiet =>
    rw [hadded]
    exact fun _ h => by cases h
  case ahead =>
    intro _ b hb
    have h₁ := ((hcovers fl.flStart).mpr (.inr ⟨le_rfl, hrange⟩)).1
    have h₂ := (fl_before hG hb).1
    omega
  case fresh =>
    rw [hadded]
    exact fun h => by cases h
  case plain => exact hplain
  case kind => exact fun _ => hkind

omit hG hs in
theorem covers_merge (st : Scan ω) (fl : FileLock ω)
    (h : st.request.flStart ≤ fl.flEnd + 1) (h' : fl.flStart ≤ st.request.flEnd + 1) (x : ℤ) :
    st.mergeStart fl ≤ x ∧ x ≤ st.mergeEnd fl ↔ Covers st.request x ∨ Covers fl x := by
  rw [Scan.mergeStart, Scan.mergeEnd, Covers, Covers]
  split_ifs <;> omega

theorem merge (ht : st.request.flType = fl.flType)
    (hn : ¬ Before fl st.request) (hn' : ¬ Before st.request fl) :
    Scanned r (P ++ [fl]) R (st.merge fl) := by
  have hmem : fl ∈ P ++ fl :: R := by simp
  have hty : fl.flType = r.flType := ht.symm.trans hs.type
  have hlock : r.flType ≠ .unlck := hty ▸ hG.type fl hmem
  have hcovers := covers_merge st fl
    (by by_contra hlt; exact hn ⟨by omega, fun _ => by omega⟩)
    (by by_contra hlt; exact hn' ⟨by omega, fun _ => by omega⟩)
  have hstart : st.mergeStart fl = st.request.flStart ∨ fl.flType = r.flType ∧
      st.mergeStart fl = fl.flStart ∧ fl.flStart < st.request.flStart := by
    rw [Scan.mergeStart]
    split_ifs with h
    · exact .inl rfl
    · rcases (not_lt.mp h).eq_or_lt with heq | hlt
      · exact .inl heq
      · exact .inr ⟨hty, rfl, hlt⟩
  rcases hadded : st.added with _ | _
  · obtain ⟨hbefore, -⟩ := hs.fresh hadded
    have hst := Scan.merge_of_fresh fl hadded
    have hids : ((st.merge fl).done.map (·.id)) = (P ++ [fl]).map (·.id) := by
      rw [hst, Scan.done, ← hbefore]
      simp [Scan.become, hs.after]
    rw [hst] at hids ⊢
    exact hs.absorb hG hn rfl rfl rfl rfl rfl (by rw [hids]) (hG.mine fl hmem).1 (hG.mine fl hmem).2
      hty hcovers (fun _ _ _ => hty) hstart (fun h => by cases h) ⟨fun _ => hlock, fun _ => rfl⟩
  · have haliased := (hs.kind hadded).mpr hlock
    have hst := Scan.merge_of_added fl hadded
    have hids : ((st.merge fl).done.map (·.id)) = st.done.map (·.id) := by
      rw [hst, Scan.done, Scan.done]
      simp [Scan.wake, haliased]
    rw [hst] at hids ⊢
    refine hs.absorb hG hn rfl rfl rfl rfl hadded ?_ hs.posix hs.owner hs.type hcovers
      (fun _ _ _ => hty) hstart (fun h => ?_) ⟨fun _ => hlock, fun _ => haliased⟩
    · rw [hids, map_append]
      exact hs.ids.trans (sublist_append_left _ _)
    · rw [show (st.wake fl).aliased = true from haliased] at h
      cases h

/-- A lock of another type inside of the request is replaced or deleted. -/
theorem replace (hend : fl.flEnd ≤ st.request.flEnd) (hle : st.request.flStart ≤ fl.flStart)
    (hn : ¬ Before fl st.request) :
    Scanned r (P ++ [fl]) R ((st.note fl).replace fl) := by
  have hmem : fl ∈ P ++ fl :: R := by simp
  have hleft : (st.note fl).left = st.left := if_neg (not_lt.mpr hle)
  have hcovers : ∀ x, Covers st.request x ↔ Covers st.request x ∨ Covers fl x := fun x =>
    (or_iff_left_of_imp fun h => ⟨hle.trans h.1, h.2.trans hend⟩).symm
  have hnew : ∀ x, Covers fl x → ¬ Covers st.request x → fl.flType = r.flType := fun x h h' =>
    (h' ⟨hle.trans h.1, h.2.trans hend⟩).elim
  rcases hadded : (st.note fl).added with _ | _
  · obtain ⟨hst, hty⟩ := Bool.or_eq_false_iff.mp hadded
    obtain ⟨hbefore, haliased⟩ := hs.fresh hst
    have hlock : r.flType ≠ .unlck := by
      rw [← hs.type]
      exact of_decide_eq_false hty
    have heq : (st.note fl).replace fl = ((st.note fl).wake fl).become { fl with
        flStart := st.request.flStart, flEnd := st.request.flEnd,
        flType := st.request.flType } := by
      rw [Scan.replace, hadded]
      rfl
    have hids : (((st.note fl).replace fl).done.map (·.id)) = (P ++ [fl]).map (·.id) := by
      rw [heq, Scan.done, ← hbefore]
      simp [Scan.become, Scan.wake, Scan.note, hs.after]
    rw [heq] at hids ⊢
    exact hs.absorb hG hn rfl hleft rfl rfl rfl (by rw [hids]) (hG.mine fl hmem).1
      (hG.mine fl hmem).2 hs.type hcovers hnew (.inl rfl) (fun h => by cases h)
      ⟨fun _ => hlock, fun _ => rfl⟩
  · have heq : (st.note fl).replace fl = (st.note fl).wake fl := by
      rw [Scan.replace, hadded]
      rfl
    have hkind : st.aliased = true ↔ r.flType ≠ .unlck := by
      rcases hst : st.added with _ | _
      · have hty : st.request.flType = .unlck := by
          rw [Scan.note, hst] at hadded
          exact of_decide_eq_true hadded
        rw [(hs.fresh hst).2, ← hs.type, hty]
        simp
      · exact hs.kind hst
    rw [heq]
    refine hs.absorb hG hn rfl hleft rfl rfl hadded ?_ hs.posix hs.owner hs.type hcovers hnew
      (.inl rfl) hs.plain hkind
    rw [map_append]
    exact hs.ids.trans (sublist_append_left _ _)

/-- A lock of another type that begins before the request becomes `left`. -/
theorem cutLeft (ht : st.request.flType ≠ fl.flType) (hend : fl.flEnd ≤ st.request.flEnd)
    (hlt : fl.flStart < st.request.flStart) (hn : ¬ Before fl st.request) :
    Scanned r (P ++ [fl]) R ((st.note fl).next fl) := by
  have hP := hs.untouched hlt
  obtain ⟨hleft, hadded, hbefore, haliased, hreq⟩ := hs.pristine hP
  have hty : fl.flType ≠ r.flType := fun heq => ht (hs.type.trans heq.symm)
  have hge : r.flStart ≤ fl.flEnd := by
    rw [← hreq]
    by_contra h
    exact hn ⟨not_le.mp h, fun heq => (ht heq.symm).elim⟩
  have heq : (st.note fl).next fl = { st with
      before := P ++ [fl], left := some fl, added := r.flType = .unlck } := by
    rw [Scan.note, ← hs.type]
    simp only [haliased, hadded, hbefore, if_pos hlt]
    rfl
  have hid : fl.id ∉ P.map (·.id) := by
    have hids := hG.ids
    rw [map_append, map_cons, nodup_middle, nodup_cons] at hids
    exact fun h => hids.1 (mem_append_left _ h)
  have htrim : trimLeft r (some fl) (P ++ [fl]) = P ++ [{ fl with flEnd := r.flStart - 1 }] := by
    rw [trimLeft, setEnd_append, setEnd_of_notMem hid, setEnd_cons_self]
    rfl
  rw [hreq] at hlt hend
  rw [heq]
  refine hs.pass hP ?_ ?_ (fun t hx => ?_) (fun hall => ?_) ?_ ?_ (of_decide_eq_true)
  · rintro a ⟨⟩
    exact ⟨mem_append_right _ (mem_singleton_self _), hge⟩
  · rw [htrim]
    intro a ha
    rcases mem_append.mp ha with ha | ha
    · exact ⟨hP a ha, hG.range a (mem_append_left _ ha)⟩
    · rw [mem_singleton.mp ha]
      refine ⟨⟨?_, fun h => (hty h).elim⟩, ?_⟩
      · show r.flStart - 1 < r.flStart
        omega
      · show fl.flStart ≤ r.flStart - 1
        omega
  · rw [htrim, holds_append, holds_append, holds_singleton, holds_singleton]
    refine or_congr_right (and_congr_right fun _ => ?_)
    -- the request covers what is cut off
    simp only [Covers] at hx ⊢
    omega
  · have := (hall fl (by simp)).1
    omega
  · exact fun ht hadd => (of_decide_eq_false hadd ht).elim
  · intro _ b hb
    have := (fl_before hG hb).1
    omega

end Scanned

section Run

inductive Ends (st : Scan ω) (R tail : List (FileLock ω)) :
    Scan ω × List (FileLock ω) → Prop where
  | clear : (∀ b ∈ R, Before st.request b) → Ends st R tail (st, R ++ tail)
  | right {b : FileLock ω} {R' : List (FileLock ω)} : R = b :: R' →
      st.request.flType ≠ b.flType → ¬ Before b st.request → ¬ Before st.request b →
      st.request.flEnd < b.flEnd →
      Ends st R tail ({ st.note b with right := some b }, R ++ tail)

theorem scan_spec [DecidableEq ω] {tail : List (FileLock ω)}
    (htail : ∀ b ∈ tail.head?, b.flOwner ≠ r.flOwner) : ∀ {P st},
    Group r.flOwner (P ++ R) → Scanned r P R st → ∃ P' R' st', P' ++ R' = P ++ R ∧
      Scanned r P' R' st' ∧ Ends st' R' tail (scan st (R ++ tail)) := by
  induction R with
  | nil =>
    intro P st hG hs
    refine ⟨P, [], st, rfl, hs, ?_⟩
    have hscan : scan st tail = (st, tail) := by
      cases tail with
      | nil => rfl
      | cons b tail =>
        have hne : posixSameOwner st.request b = false :=
          decide_eq_false fun h => htail b rfl (h.symm.trans hs.owner)
        rw [scan, hne]
        rfl
    rw [nil_append, hscan]
    exact .clear fun b hb => by cases hb
  | cons fl R ih =>
    intro P st hG hs
    have hmine : st.request.flOwner = fl.flOwner := hs.owner.trans (hG.mine fl (by simp)).2.symm
    have hG' : Group r.flOwner (P ++ [fl] ++ R) := by rwa [← append_cons]
    rw [append_cons P, cons_append, scan_cons hmine]
    by_cases hn : Before fl st.request
    · rw [if_pos hn]
      exact ih hG' (hs.next hG hn)
    rw [if_neg hn]
    by_cases hn' : Before st.request fl
    · rw [if_pos hn', ← append_cons]
      refine ⟨P, fl :: R, st, rfl, hs, .clear (forall_mem_cons.mpr ⟨hn', fun b hb => ?_⟩)⟩
      exact hn'.trans (Scanned.range_fl hG) (Scanned.fl_before hG hb)
    rw [if_neg hn']
    by_cases ht : st.request.flType = fl.flType
    · rw [if_pos ht]
      exact ih hG' (hs.merge hG ht hn hn')
    rw [if_neg ht]
    by_cases hend : fl.flEnd > st.request.flEnd
    · rw [if_pos hend, ← append_cons]
      exact ⟨P, fl :: R, st, rfl, hs, .right rfl ht hn hn' hend⟩
    rw [if_neg hend]
    by_cases hstart : fl.flStart ≥ st.request.flStart
    · rw [if_pos hstart]
      exact ih hG' (hs.replace hG (not_lt.mp hend) hstart hn)
    · rw [if_neg hstart]
      exact ih hG' (hs.cutLeft hG ht (not_lt.mp hend) (not_le.mp hstart) hn)

end Run

end LinuxKernel.Locks
