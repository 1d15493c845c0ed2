import Mathlib.Data.Finset.Basic
import LinuxKernel.Ida.Chunks
import LinuxKernel.Idr.Refine

/-! # Getting and removing ids

Runs of `ida_simple_get` and `ida_simple_remove`, in which the allocator never fails. The ids that
are out are kept next to the ida, and each call is compared with them.
-/

namespace LinuxKernel.Ida

open Idr Finset List Nat Option

variable {s s' : Ida} {node : ℕ × ℕ → Option ℕ} {C : ℕ → Option ℕ} {B : Finset ℕ}
  {id start stop max fuel : ℕ} {layers : List ℕ} {b : ℕ}

section Calls

/-- The bitmap of a chunk, as it is found from the top. -/
def bitmapAt (s : Ida) (c : ℕ) : Option ℕ :=
  (layerAt s.idr 0 (c / 64)).bind fun p => (s.idr.mem p).ary (c % 64)

def isBusy (s : Ida) (id : ℕ) : Bool :=
  ((bitmapAt s (id / 960)).map fun b => (s.bmem b).bitmap.getLsbD (id % 960)).getD false

/-- What the allocator returns, when it does not fail: enough layers and a bitmap, none of which is
in use. -/
structure Allocated (s : Ida) (layers : List ℕ) (b : ℕ) : Prop where
  enough : 12 ≤ s.idr.idFree.length + layers.length
  nodup : layers.Nodup
  layer {p : ℕ} : p ∈ layers → p ∉ s.idr.idFree ∧ ∀ l q, layerAt s.idr l q ≠ some p
  bitmap (c : ℕ) : bitmapAt s c ≠ some b

inductive Op where
  | simpleGet (start stop : ℕ) (layers : List ℕ) (b : ℕ) (res : Except Errno ℕ)
  | simpleRemove (id : ℕ)

def outstanding (B : Finset ℕ) : Op → Finset ℕ
  | .simpleGet _ _ _ _ (.ok id) => insert id B
  | .simpleGet _ _ _ _ (.error _) => B
  | .simpleRemove id => B.erase id

/-- The ranges that do not stop at a `BUG_ON`. -/
def Range (start stop : ℕ) : Prop := start < 2 ^ 31 ∧ stop < 2 ^ 31 ∧ (stop = 0 ∨ start ≤ stop)

def Allowed (s : Ida) (B : Finset ℕ) : Op → Prop
  | .simpleGet start stop layers b _ => Range start stop ∧ Allocated s layers b
  | .simpleRemove id => id ∈ B

def Returns (fuel : ℕ) (s s' : Ida) : Op → Prop
  | .simpleGet start stop layers b res =>
    idaSimpleGet fuel s start stop [(layers, some b)] = some (res, s')
  | .simpleRemove id => idaSimpleRemove s id = some s'

/-- A call on the ida, next to the ids that are out. -/
def Step (fuel : ℕ) (c : Ida × Finset ℕ) (op : Op) (c' : Ida × Finset ℕ) : Prop :=
  Allowed c.1 c.2 op ∧ Returns fuel c.1 c'.1 op ∧ c'.2 = outstanding c.2 op

/-- The ida gives out the first ids that are not out, and its bitmaps and bits say which are. -/
structure Correct (fuel : ℕ) (s : Ida) (B : Finset ℕ) : Prop where
  simpleGet {start stop : ℕ} {layers : List ℕ} {b : ℕ} : Range start stop → Allocated s layers b →
    ∃ res s', idaSimpleGet fuel s start stop [(layers, some b)] = some (res, s') ∧
      (∀ id, res = .ok id → IsLeast {id | start ≤ id ∧ id ∉ B} id ∧ (stop ≠ 0 → id < stop)) ∧
      (∀ e, res = .error e → e = .enospc ∧ ∀ id, isBusy s' id = isBusy s id) ∧
      (stop ≠ 0 → (res = .error .enospc ↔ ∀ id, start ≤ id → id < stop → id ∈ B))
  simpleRemove {id : ℕ} : id ∈ B → (idaSimpleRemove s id).isSome
  busy (id : ℕ) : isBusy s id = true ↔ id ∈ B
  nrBusy {c b : ℕ} : bitmapAt s c = some b → (s.bmem b).nrBusy = Word.ones (s.bmem b).bitmap
  bit {l q p n : ℕ} : layerAt s.idr l q = some p → n < 64 →
    ((s.idr.mem p).bitmap.getLsbD n = true ↔
      ∀ c, c / 64 ^ l = 64 * q + n → ∀ k < 960, c * 960 + k ∈ B)

end Calls

section Bitmaps

theorem Chunks.bitmapAt_eq (h : Chunks s node C B) {c : ℕ} : bitmapAt s c = C c := by
  rw [bitmapAt, h.tree.shape.layerAt_eq]
  rcases hp : node (0, c / 64) with _ | p
  · have hempty := h.tree.shape.absent hp
    rcases hC : C c with _ | b
    · rfl
    · rw [slots_of_some hC] at hempty
      exact absurd (congrArg Slot.used hempty) nofun
  · exact h.ary_eq hp

theorem Chunks.isBusy_iff (h : Chunks s node C B) : isBusy s id = true ↔ id ∈ B := by
  have hmod : id % 960 < 960 := mod_lt _ (by omega)
  rw [isBusy, h.bitmapAt_eq]
  rcases hC : C (id / 960) with _ | b
  · have := h.absent hC hmod
    rw [div_add_mod'] at this
    exact iff_of_false nofun this
  · have := h.bit hC hmod
    rw [div_add_mod'] at this
    exact this

theorem chunks_init (mem : ℕ → Layer) (bmem : ℕ → Bitmap) :
    Chunks (idaInit mem bmem) (fun _ => none) (fun _ => none) ∅ :=
  ⟨tree_init mem, fun _ _ => notMem_empty _, nofun, nofun, nofun, nofun,
    fun h => absurd h (notMem_empty _)⟩

end Bitmaps

section SimpleGet

theorem idrPreGet_enough {idr : Idr.Idr} (h : 12 ≤ idr.idFree.length + layers.length) :
    (idrPreGet layers idr).1 = true ∧ 12 ≤ (idrPreGet layers idr).2.idFree.length := by
  induction layers generalizing idr with
  | nil => exact ⟨decide_eq_true h, h⟩
  | cons p layers ih =>
    rw [idrPreGet]
    split_ifs with hlt
    · exact ih (by simp only [moveToFreeList, length_cons] at *; omega)
    · exact ⟨rfl, not_lt.mp hlt⟩

theorem idaPreGet_spec (h : Chunks s node C B) (ha : Allocated s layers b) :
    ∃ s', idaPreGet s layers (some b) = (true, s') ∧ 12 ≤ s'.idr.idFree.length ∧
      s'.freeBitmap.isSome ∧ Chunks s' node C B := by
  obtain ⟨hok, hlen⟩ := idrPreGet_enough ha.enough
  have ht : Tree (idrPreGet layers s.idr).2 node (slots C s.bmem) :=
    h.tree.preGet ha.nodup fun p hp => ⟨(ha.layer hp).1, fun x => by
      rw [← h.tree.shape.layerAt_eq]
      exact (ha.layer hp).2 _ _⟩
  have h₁ : Chunks { s with idr := (idrPreGet layers s.idr).2 } node C B := { h with tree := ht }
  rw [idaPreGet]
  rcases hpre : idrPreGet layers s.idr with ⟨ok, idr⟩
  rw [hpre] at hok hlen h₁
  cases hok
  rcases hfree : s.freeBitmap with _ | b'
  · refine ⟨{ s with idr := idr, freeBitmap := some b }, ?_, hlen, rfl, ?_⟩
    · simp [freeBitmap]
    · refine { h₁ with free := fun {c b'} hb => ?_ }
      obtain rfl := some.inj hb
      rw [← h.bitmapAt_eq]
      exact ha.bitmap c
  · exact ⟨{ s with idr := idr }, by simp [hfree], hlen, by simp [hfree], h₁⟩

inductive SimplyGot (B : Finset ℕ) (start max : ℕ) : Except Errno ℕ × Ida → Prop
  | ok {id : ℕ} {s' : Ida} {node' : ℕ × ℕ → Option ℕ} {C' : ℕ → Option ℕ} :
      IsLeast {id | start ≤ id ∧ id ∉ B} id → id ≤ max → Chunks s' node' C' (insert id B) →
      SimplyGot B start max (.ok id, s')
  | enospc {s' : Ida} {node' : ℕ × ℕ → Option ℕ} {C' : ℕ → Option ℕ} :
      (∀ id, start ≤ id → id ≤ max → id < 2 ^ 31 → id ∈ B) → Chunks s' node' C' B →
      SimplyGot B start max (.error .enospc, s')

theorem simpleGetLoop_spec (h : Chunks s node C B) (ha : Allocated s layers b)
    (hfuel : 2 ^ 33 ≤ fuel) (hstart : start < 2 ^ 31) :
    ∃ res, simpleGetLoop fuel start max [(layers, some b)] s = some res ∧
      SimplyGot B start max res := by
  obtain ⟨s₁, hpre, hlen, hfree, h₁⟩ := idaPreGet_spec h ha
  have hmod : start % 960 < 960 := mod_lt _ (by omega)
  obtain ⟨res, heq, hgot⟩ := getLoop_spec (n := fuel) h₁ (by omega) hfree hmod
    (by omega : start / 960 < 2236964) (by omega) (by omega) hfuel
  rw [div_add_mod'] at hgot
  rw [simpleGetLoop, hpre]
  dsimp only
  rw [idaGetNewAbove, heq, bind_some]
  cases hgot with
  | @ok id s₂ node₂ C₂ hid hnot hall hlt h₂ =>
    dsimp only
    by_cases hmax : max < id
    · obtain ⟨s₃, node₃, C₃, hremove, h₃⟩ := idaRemove_spec h₂ (mem_insert_self ..)
      rw [erase_insert hnot] at h₃
      rw [if_pos hmax, hremove]
      exact ⟨_, rfl, .enospc (fun x hx hxmax _ => hall x hx (by omega)) h₃⟩
    · rw [if_neg hmax]
      refine ⟨_, rfl, .ok ⟨⟨hid, hnot⟩, fun x hx => ?_⟩ (not_lt.mp hmax) h₂⟩
      by_contra hlt
      exact hx.2 (hall x hx.1 (not_le.mp hlt))
  | enospc hall h₂ => exact ⟨_, rfl, .enospc (fun x hx _ hlt => hall x hx hlt) h₂⟩

/-- The last id that `ida_simple_get` may return. -/
def lastId (stop : ℕ) : ℕ := if stop = 0 then 2 ^ 31 else stop - 1

theorem idaSimpleGet_spec (h : Chunks s node C B) (hr : Range start stop)
    (ha : Allocated s layers b)
    (hfuel : 2 ^ 33 ≤ fuel) :
    ∃ res, idaSimpleGet fuel s start stop [(layers, some b)] = some res ∧
      SimplyGot B start (lastId stop) res := by
  obtain ⟨hstart, hstop, hle⟩ := hr
  rw [idaSimpleGet, if_neg (by omega), lastId]
  split_ifs
  · exact simpleGetLoop_spec h ha hfuel hstart
  · omega
  · exact simpleGetLoop_spec h ha hfuel hstart

theorem idaSimpleRemove_spec (h : Chunks s node C B) (hid : id ∈ B) :
    ∃ s' node' C', idaSimpleRemove s id = some s' ∧ Chunks s' node' C' (B.erase id) := by
  rw [idaSimpleRemove, if_neg (not_le.mpr (h.bound hid))]
  exact idaRemove_spec h hid

end SimpleGet

section Runs

theorem Chunks.step {c : Ida × Finset ℕ} {op : Op} (h : Chunks s node C B)
    (hstep : Step fuel (s, B) op c) (hfuel : 2 ^ 33 ≤ fuel) :
    ∃ node' C', Chunks c.1 node' C' c.2 := by
  obtain ⟨hallowed, hreturns, hout⟩ := hstep
  rw [hout]
  cases op with
  | simpleGet start stop layers b res =>
    obtain ⟨res', heq, hgot⟩ := idaSimpleGet_spec h hallowed.1 hallowed.2 hfuel
    obtain rfl := some.inj (heq.symm.trans hreturns)
    cases hgot with
    | ok _ _ h' => exact ⟨_, _, h'⟩
    | enospc _ h' => exact ⟨_, _, h'⟩
  | simpleRemove id =>
    obtain ⟨s', node', C', heq, h'⟩ := idaSimpleRemove_spec h hallowed
    obtain rfl := some.inj (heq.symm.trans hreturns)
    exact ⟨node', C', h'⟩

theorem Chunks.correct (h : Chunks s node C B) (hfuel : 2 ^ 33 ≤ fuel) : Correct fuel s B where
  simpleGet {start stop layers b} hr ha := by
    obtain ⟨res, heq, hgot⟩ := idaSimpleGet_spec h hr ha hfuel
    have hstop := hr.2.1
    cases hgot with
    | ok hleast hmax h' =>
      refine ⟨_, _, heq, fun id hid => ?_, nofun, fun hne => iff_of_false nofun fun hall => ?_⟩
      · cases hid
        refine ⟨hleast, fun hne => ?_⟩
        rw [lastId, if_neg hne] at hmax
        omega
      · rw [lastId, if_neg hne] at hmax
        exact hleast.1.2 (hall _ hleast.1.1 (by omega))
    | enospc hall h' =>
      refine ⟨_, _, heq, nofun, fun e he => ⟨(Except.error.inj he).symm, fun id => ?_⟩,
        fun hne => iff_of_true rfl fun id hid hlt => hall id hid ?_ (hlt.trans hstop)⟩
      · rw [Bool.eq_iff_iff, h'.isBusy_iff, h.isBusy_iff]
      · rw [lastId, if_neg hne]
        omega
  simpleRemove hid := by
    obtain ⟨s', _, _, heq, -⟩ := idaSimpleRemove_spec h hid
    rw [heq]
    rfl
  busy _ := h.isBusy_iff
  nrBusy hb := h.busy (h.bitmapAt_eq ▸ hb)
  bit {l q p n} hp hn := by
    rw [h.tree.shape.layerAt_eq] at hp
    have hq : (64 * q + n) / 64 = q := by omega
    have hbit := h.tree.bits l (64 * q + n) p (by rwa [hq])
    rw [mul_add_mod, mod_eq_of_lt hn] at hbit
    rw [hbit, FullBlock, Radix.Full]
    simp only [h.full_iff]

end Runs

section First

def fresh : Ida := idaInit (fun _ => .zero) fun _ => ⟨0, 0⟩

def first (start stop : ℕ) : Ida × Finset ℕ :=
  (((idaSimpleGet (2 ^ 33) fresh start stop [(List.range 12, some 0)]).map Prod.snd).getD fresh,
    {start})

theorem step_first (hr : Range start stop)
    (h : ((idaSimpleGet (2 ^ 33) fresh start stop [(List.range 12, some 0)]).bind
      fun r => r.1.toOption) = some start) :
    Step (2 ^ 33) (fresh, ∅) (.simpleGet start stop (List.range 12) 0 (.ok start))
      (first start stop) := by
  refine ⟨⟨hr, by simp, nodup_range, fun _ => ⟨not_mem_nil, fun _ _ => nofun⟩,
    fun c => nofun⟩, ?_, rfl⟩
  obtain ⟨⟨res, s'⟩, heq, hres⟩ := bind_eq_some_iff.mp h
  rw [Returns, first, heq]
  cases res with
  | ok id' => cases hres; rfl
  | error e => cases hres

end First

/-- In each run, the ida gives out the first ids that are not out. -/
theorem ida_gives_first_free {fuel : ℕ} (hfuel : 2 ^ 33 ≤ fuel) (mem : ℕ → Layer)
    (bmem : ℕ → Bitmap) {ops : List Op} {c : Ida × Finset ℕ}
    (hrun : Run (Step fuel) (idaInit mem bmem, ∅) ops c) : Correct fuel c.1 c.2 := by
  have hinv : ∃ node C, Chunks c.1 node C c.2 :=
    Run.invariant (I := fun c : Ida × Finset ℕ => ∃ node C, Chunks c.1 node C c.2)
      (fun ⟨_, _, h⟩ hstep => h.step hstep hfuel) hrun ⟨_, _, chunks_init mem bmem⟩
  obtain ⟨_, _, h⟩ := hinv
  exact h.correct hfuel

theorem ida_gives_first_free_once : isBusy (first 1000 1001).1 1000 = true ∧
    Correct (2 ^ 33) (first 1000 1001).1 (first 1000 1001).2 :=
  ⟨by decide +kernel, ida_gives_first_free (le_refl _) (fun _ => .zero) (fun _ => ⟨0, 0⟩)
    (.cons (step_first ⟨by decide, by decide, by decide⟩ (by decide +kernel)) (.nil _))⟩

end LinuxKernel.Ida
