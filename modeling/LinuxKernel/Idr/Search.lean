import LinuxKernel.Idr.Grow

/-! # The search for an empty slot

From the top, `sub_alloc` goes down to the first slot with space that is not before an id. It
creates the layers that are missing on the way. Where a layer has no space it goes on with the next
one, up to the point where the whole tree behind the id is full. Then the tree has to grow.
-/

namespace LinuxKernel.Idr

open Function Radix Option Nat

variable {s s₀ s' : Idr} {node node' : ℕ × ℕ → Option ℕ} {slot : ℕ → Slot} {pa : Path}
  {l k q p p' c id id' start i new n m fuel layers : ℕ} {x y : ℕ × ℕ}

section Digits

theorem digit : id >>> (6 * l) &&& 63 = id / 64 ^ l % 64 := digit_eq

theorem shiftRight_digits : id >>> (6 * l) = id / 64 ^ l := shiftRight_mul

theorem next_block : (id ||| (1 <<< (6 * l) - 1)) + 1 = (id / 64 ^ l + 1) * 64 ^ l :=
  or_mask_add_one

theorem replace_digit (hm : m < 64) :
    ((id >>> (6 * l)) ^^^ (id / 64 ^ l % 64) ^^^ m) <<< (6 * l) =
      (64 * (id / 64 ^ (l + 1)) + m) * 64 ^ l := by
  rw [shiftRight_digits, shiftLeft_eq, pow_mul, div_pow_succ]
  exact congrArg (· * 64 ^ l) (xor_digit (k := 6) hm)

end Digits

section Bits

theorem Tree.find_cases (h : Tree s node slot) (hp : node (l, q) = some p) :
    (Word.findNextBit (~~~(s.mem p).bitmap) n = 64 ∧
      ∀ k, n ≤ k → k < 64 → FullBlock slot l (64 * q + k)) ∨
    ∃ m, Word.findNextBit (~~~(s.mem p).bitmap) n = m ∧ n ≤ m ∧ m < 64 ∧
      ¬ FullBlock slot l (64 * q + m) ∧ ∀ k, n ≤ k → k < m → FullBlock slot l (64 * q + k) := by
  have hbit {k} (hk : k < 64) :
      (~~~(s.mem p).bitmap).getLsbD k = false ↔ FullBlock slot l (64 * q + k) := by
    have hq : (64 * q + k) / 64 = q := by omega
    have := h.bits l (64 * q + k) p (by rwa [hq])
    rw [mul_add_mod, mod_eq_of_lt hk] at this
    rw [← this]
    simp [hk]
  rcases Word.findNextBit_cases with
    ⟨heq, hset⟩ | ⟨m, heq, hnm, hm, hclear, hset⟩
  · exact .inl ⟨heq, fun k hnk hk => (hbit hk).mp (hset k hnk hk)⟩
  · refine .inr ⟨m, heq, hnm, hm, ?_, fun k hnk hk => (hbit (by omega)).mp (hset k hnk hk)⟩
    rw [← hbit hm, hclear]
    nofun

end Bits

section Search

/-- The state of the search at the layer `p` of level `l`. All ids that it has passed are full. If
it has created a layer, there is nothing below the one it is at. -/
structure Search (s₀ : Idr) (slot : ℕ → Slot) (start : ℕ) (s : Idr) (node : ℕ × ℕ → Option ℕ)
    (p l id : ℕ) (pa : Path) : Prop where
  tree : Tree s node slot
  here : node (l, id / 64 ^ (l + 1)) = some p
  path {i : ℕ} : l < i → i < s.layers → pa i = node (i, id / 64 ^ (i + 1))
  stop : pa s.layers = none
  start_le : start ≤ id
  full {x : ℕ} : start ≤ x → x < id → (slot x).full = true
  same : s.layers = s₀.layers
  clean : s = s₀ ∨ (∀ x, x / 64 ^ (l + 1) = id / 64 ^ (l + 1) → slot x = .empty) ∧
    (s₀.layers ≤ s₀.idFree.length + 1 → l ≤ s.idFree.length)

inductive Searched (s₀ : Idr) (slot : ℕ → Slot) (start : ℕ) : Found × Path × Idr → Prop
  | found {id p : ℕ} {pa : Path} {s : Idr} {node : ℕ × ℕ → Option ℕ} : Tree s node slot →
      node (0, id / 64) = some p → (∀ i, i < s.layers → pa i = node (i, id / 64 ^ (i + 1))) →
      pa s.layers = none → start ≤ id → (slot id).full = false →
      (∀ x, start ≤ x → x < id → (slot x).full = true) → ((slot id).used = true → s = s₀) →
      Searched s₀ slot start (.id id, pa, s)
  | noMemory {pa : Path} {s : Idr} {node : ℕ × ℕ → Option ℕ} : Tree s node slot →
      s₀.idFree.length + 1 < s₀.layers → Searched s₀ slot start (.noMemory, pa, s)
  | needToGrow {pa : Path} : (∀ x, start ≤ x → x < 64 ^ s₀.layers → (slot x).full = true) →
      Searched s₀ slot start (.needToGrow (64 ^ s₀.layers), pa, s₀)

theorem next_id (hnm : id / 64 ^ l % 64 ≤ m) (hm : m < 64)
    (hfull : ∀ k, id / 64 ^ l % 64 ≤ k → k < m → FullBlock slot l (64 * (id / 64 ^ (l + 1)) + k)) :
    ∃ id', (if m ≠ id / 64 ^ l % 64 then
        ((id >>> (6 * l)) ^^^ (id / 64 ^ l % 64) ^^^ m) <<< (6 * l) else id) = id' ∧
      id ≤ id' ∧ id' / 64 ^ l = 64 * (id / 64 ^ (l + 1)) + m ∧
      id' / 64 ^ (l + 1) = id / 64 ^ (l + 1) ∧
      ∀ x, id ≤ x → x < id' → (slot x).full = true := by
  have hpos : 0 < 64 ^ l := Nat.pow_pos (by omega)
  have hid : id / 64 ^ l = 64 * (id / 64 ^ (l + 1)) + id / 64 ^ l % 64 := div_pow_eq
  rcases eq_or_ne m (id / 64 ^ l % 64) with rfl | hne
  · refine ⟨id, if_neg fun h => h rfl, le_refl _, hid, rfl, fun x h₁ h₂ => ?_⟩
    omega
  · have hdiv : (64 * (id / 64 ^ (l + 1)) + m) * 64 ^ l / 64 ^ l = 64 * (id / 64 ^ (l + 1)) + m :=
      Nat.mul_div_cancel _ hpos
    refine ⟨_, (if_pos hne).trans (replace_digit hm), ?_, hdiv, ?_, fun x h₁ h₂ => ?_⟩
    · refine le_of_lt (lt_of_div_lt_div (c := 64 ^ l) ?_)
      omega
    · rw [div_pow_succ]
      omega
    · exact full_between (by omega) hfull h₁ h₂

theorem Search.atTop (h : Tree s node slot) (htop : s.top = some p) (hid : id < 64 ^ s.layers)
    (hstart : start ≤ id) (hfull : ∀ x, start ≤ x → x < id → (slot x).full = true) :
    Search s slot start s node p (s.layers - 1) id (update pa s.layers none) := by
  have hpos : s.layers - 1 + 1 = s.layers := by
    have : s.layers ≠ 0 := fun hzero => by
      rw [← h.shape.top_eq_none, htop] at hzero
      cases hzero
    omega
  refine ⟨h, ?_, fun _ _ => ?_, update_self .., hstart, hfull _, rfl, .inl rfl⟩
  · rw [h.shape.root hpos, hpos, div_eq_of_lt hid, if_pos rfl, htop]
  · omega

/-- A layer without space is left. Nothing has been created, as that would be space. -/
theorem Search.up (h : Search s₀ slot start s node p l id pa)
    (hfull : ∀ k, id / 64 ^ l % 64 ≤ k → k < 64 → FullBlock slot l (64 * (id / 64 ^ (l + 1)) + k)) :
    s = s₀ ∧ id < (id / 64 ^ (l + 1) + 1) * 64 ^ (l + 1) ∧
      (id / 64 ^ (l + 1) + 1) * 64 ^ (l + 1) ≤ 64 ^ s.layers ∧
      ∀ x, start ≤ x → x < (id / 64 ^ (l + 1) + 1) * 64 ^ (l + 1) → (slot x).full = true := by
  have hpos : 0 < 64 ^ (l + 1) := Nat.pow_pos (by omega)
  refine ⟨h.clean.resolve_right fun hclean => ?_, ?_, ?_, fun x hx hxlt => ?_⟩
  · refine not_fullBlock_of_first (hclean.1 _ ?_) (hfull 63 (by omega) (by omega))
    rw [div_pow_succ, Nat.mul_div_cancel _ (Nat.pow_pos (by omega))]
    omega
  · rw [add_mul, one_mul]
    exact lt_div_mul_add hpos
  · have hl := h.tree.shape.lt_layers h.here
    have hid := h.tree.shape.id_lt h.here
    have hpow : 64 ^ s.layers = 64 ^ (s.layers - (l + 1)) * 64 ^ (l + 1) := by
      rw [← pow_add, Nat.sub_add_cancel (succ_le_of_lt hl)]
    rw [hpow] at hid ⊢
    exact mul_le_mul_right _ (Nat.div_lt_of_lt_mul (Nat.mul_comm .. ▸ hid))
  · rcases lt_or_ge x id with hlt | hge
    · exact h.full hx hlt
    · refine full_between (by omega) hfull hge ?_
      rwa [← mul_succ, mul_comm 64, mul_assoc, mul_comm 64]

section

variable (h : Search s₀ slot start s node p l id pa)
include h

theorem Search.passed (hfull : ∀ x, id ≤ x → x < id' → (slot x).full = true) :
    ∀ x, start ≤ x → x < id' → (slot x).full = true := by
  intro x hx hxlt
  rcases lt_or_ge x id with hlt | hge
  · exact h.full hx hlt
  · exact hfull x hge hxlt

theorem Search.path_here (hq : id' / 64 ^ (l + 1) = id / 64 ^ (l + 1)) (hli : l ≤ i)
    (hi : i < s.layers) : update pa l (some p) i = node (i, id' / 64 ^ (i + 1)) := by
  rcases eq_or_lt_of_le hli with rfl | hlt
  · rw [update_self, hq, h.here]
  · rw [update_of_ne (by omega), h.path hlt hi, div_pow_congr hq (by omega)]

theorem Search.stop_here : update pa l (some p) s.layers = none :=
  (update_of_ne (h.tree.shape.lt_layers h.here).ne' ..).trans h.stop

end

section

variable (h : Search s₀ slot start s node p (l + 1) id pa) (hid : id ≤ id')
  (hq : id' / 64 ^ (l + 2) = id / 64 ^ (l + 2))
  (hfull : ∀ x, id ≤ x → x < id' → (slot x).full = true)
include h hid hq hfull

/-- The search goes down from a layer with space, into a layer that is there. -/
theorem Search.down (hc : node (l, id' / 64 ^ (l + 1)) = some c) :
    Search s₀ slot start s node c l id' (update pa (l + 1) (some p)) := by
  refine ⟨h.tree, hc, h.path_here hq, h.stop_here, h.start_le.trans hid, h.passed hfull _, h.same,
    h.clean.imp_right fun ⟨hempty, hroom⟩ => ⟨fun x hx => hempty x ?_, fun h => ?_⟩⟩
  · rw [← hq]
    exact div_pow_congr hx (by omega)
  · exact le_of_succ_le (hroom h)

/-- The search goes down into a layer that it has to create. -/
theorem Search.create {rest : List ℕ} (hc : node (l, id' / 64 ^ (l + 1)) = none)
    (hfree : s.idFree = new :: rest) :
    Search s₀ slot start
      (Idr.addLayer { s with idFree := rest } p (id' / 64 ^ (l + 1) % 64) new l)
      (update node (l, id' / 64 ^ (l + 1)) (some new)) new l id' (update pa (l + 1) (some p)) := by
  obtain ⟨ht, hnew⟩ := h.tree.take hfree
  have hl := h.tree.shape.lt_layers h.here
  have hp : node (l + 1, id' / 64 ^ (l + 1) / 64) = some p := by
    rw [← div_pow_succ, hq]
    exact h.here
  refine ⟨ht.addLayer hnew hp hc, update_self .., fun {i} hli hi => ?_, h.stop_here,
    h.start_le.trans hid, h.passed hfull _, h.same, .inr ⟨fun x hx => ?_, fun hroom => ?_⟩⟩
  · rw [update_of_ne fun hx => absurd (Prod.mk.inj hx).1 (by omega)]
    exact h.path_here hq hli hi
  · refine h.tree.shape.absent_below (l := l) (by omega) ?_
    rwa [hx]
  · have hlen : l + 1 ≤ s.idFree.length := by
      rcases h.clean with rfl | ⟨-, hclean⟩
      · omega
      · exact hclean hroom
    rw [hfree] at hlen
    exact succ_le_succ_iff.mp hlen

end

/-- Every time the search goes up, it goes on with a larger id. -/
theorem subAllocLoop_spec (h : Search s₀ slot start s node p l id pa)
    (hfuel : (64 ^ s₀.layers - id) * 6 + l < fuel) :
    ∃ res, subAllocLoop fuel p l id pa s = some res ∧ Searched s₀ slot start res := by
  induction fuel generalizing s node p l id pa with
  | zero => omega
  | succ fuel ih =>
    have hs := h.tree.shape
    have hid := hs.id_lt h.here
    have hl := hs.lt_layers h.here
    have hlayers := hs.layers_le
    have hpow : 64 ^ s.layers ≤ 64 ^ 5 := Nat.pow_le_pow_right (by omega) hlayers
    rw [subAllocLoop]
    simp only [digit]
    rcases h.tree.find_cases h.here with
      ⟨hm, hfull⟩ | ⟨m, hm, hnm, hm64, hspace, hfull⟩
    · obtain ⟨rfl, hlt, hle, hall⟩ := h.up hfull
      simp only [hm, if_true, next_block]
      simp only [one_shiftLeft_mul, shiftRight_digits]
      generalize hid' : (id / 64 ^ (l + 1) + 1) * 64 ^ (l + 1) = id' at hlt hle hall ⊢
      by_cases hgrow : id' < 2 ^ 31 ∧ 64 ^ s.layers ≤ id'
      · rw [if_pos hgrow]
        obtain rfl : id' = 64 ^ s.layers := le_antisymm hle hgrow.2
        exact ⟨_, rfl, .needToGrow hall⟩
      · have hlt' : id' < 64 ^ s.layers := by omega
        have hl' : l + 1 < s.layers := by
          refine lt_of_le_of_ne hl fun heq => ?_
          rw [← hid', heq, div_eq_of_lt hid] at hlt'
          omega
        obtain ⟨p', hp', -⟩ := hs.exists_parent h.here hl'
        rw [← div_pow_succ] at hp'
        simp only [h.path (lt_succ_self l) hl', hp', bind_eq_bind]
        split_ifs with hsame
        · refine ih ⟨h.tree, hsame ▸ hp', fun {i} hli hi => ?_,
            h.stop, by have := h.start_le; omega, hall _, rfl, .inl rfl⟩ (by omega)
          rw [h.path (by omega) hi, div_pow_congr hsame (by omega)]
        · obtain ⟨t, ht⟩ := ne_none_iff_exists'.mp fun htop =>
            absurd (hs.top_eq_none.mp htop) (by omega)
          rw [ht]
          exact ih (.atTop h.tree ht hlt' (by have := h.start_le; omega) hall) (by omega)
    · obtain ⟨id', hid', hle, hdiv, hq, hall⟩ := next_id hnm hm64 hfull
      have hnode : node (l, id' / 64 ^ (l + 1)) = some p := hq ▸ h.here
      have hlt := hs.id_lt hnode
      simp only [hm, if_neg hm64.ne, hid', if_neg (show ¬ 2 ^ 31 ≤ id' by omega)]
      cases l with
      | zero =>
        have hslot : (slot id').full = false := by
          rw [← hdiv, FullBlock, pow_zero] at hspace
          simpa using hspace
        refine ⟨_, rfl, .found (p := p) h.tree ?_ (fun i => h.path_here hq i.zero_le) h.stop_here
          (h.start_le.trans hle) hslot (h.passed hall) fun hused =>
          h.clean.resolve_right fun hclean => ?_⟩
        · exact hnode
        · rw [hclean.1 id' hq] at hused
          cases hused
      | succ l =>
        have hchild : (s.mem p).ary m = node (l, id' / 64 ^ (l + 1)) := by
          rw [hs.child hl, ← div_pow_succ, hnode, bind_some, hdiv, mul_add_mod, mod_eq_of_lt hm64]
        rcases hc : node (l, id' / 64 ^ (l + 1)) with _ | c
        · rw [hchild, hc]
          rcases hfree : s.idFree with _ | ⟨new, rest⟩
          · rw [getFromFreeList_nil hfree]
            refine ⟨_, rfl, .noMemory h.tree ?_⟩
            rcases h.clean with rfl | ⟨-, hroom⟩
            · rw [hfree, List.length_nil]
              omega
            · by_contra hlen
              have := hroom (by omega)
              rw [hfree] at this
              cases this
          · rw [getFromFreeList_cons hfree]
            have hm' : m = id' / 64 ^ (l + 1) % 64 := by
              rw [hdiv, mul_add_mod, mod_eq_of_lt hm64]
            rw [hm']
            exact ih (h.create hle hq hall hc hfree) (by omega)
        · rw [hchild, hc]
          exact ih (h.down hle hq hall hc) (by omega)

end Search

section EmptySlot

theorem subAlloc_spec (pa : Path) (h : Tree s node slot) (hpos : 0 < s.layers)
    (hid : id < 64 ^ s.layers)
    (hfuel : 2 ^ 33 ≤ fuel) :
    ∃ res, subAlloc fuel id pa s = some res ∧ Searched s slot id res := by
  obtain ⟨t, ht⟩ := ne_none_iff_exists'.mp fun htop =>
    absurd (h.shape.top_eq_none.mp htop) hpos.ne'
  have hpow : 64 ^ s.layers ≤ 64 ^ 5 := Nat.pow_le_pow_right (by omega) h.shape.layers_le
  have := h.shape.layers_le
  rw [subAlloc, ht]
  exact subAllocLoop_spec (.atTop h ht hid (le_refl _) fun x h₁ h₂ => absurd h₁ (by omega))
    (by omega)

/-- What `idr_get_empty_slot` can end with: the first id with space, with the layers on the way to
it, or no layer was left. Layers are only created for an id that is not in use. -/
inductive Slotted (s : Idr) (slot : ℕ → Slot) (start : ℕ) : Found × Path × Idr → Prop
  | found {id p : ℕ} {pa : Path} {s' : Idr} {node' : ℕ × ℕ → Option ℕ} : Tree s' node' slot →
      node' (0, id / 64) = some p → (∀ i, i < s'.layers → pa i = node' (i, id / 64 ^ (i + 1))) →
      pa s'.layers = none → start ≤ id → (slot id).full = false →
      (∀ x, start ≤ x → x < id → (slot x).full = true) → ((slot id).used = true → s' = s) →
      Slotted s slot start (.id id, pa, s')
  | noMemory {pa : Path} {s' : Idr} {node' : ℕ × ℕ → Option ℕ} : Tree s' node' slot →
      s.idFree.length + s.layers < 9 → Slotted s slot start (.noMemory, pa, s')

theorem emptySlotLoop_spec (h : Tree s node slot)
    (hex : ∃ x, id ≤ x ∧ x < 64 ^ 5 ∧ (slot x).full = false) (hfuel : 2 ^ 33 ≤ fuel)
    (hn : 6 ≤ s.layers + n) (hn' : id < 64 ^ s.layers → 7 ≤ s.layers + n) :
    ∃ res, emptySlotLoop fuel n id pa s = some res ∧ Slotted s slot id res := by
  induction n generalizing s node id pa with
  | zero => exact absurd h.shape.layers_le (by omega)
  | succ n ih =>
    rw [emptySlotLoop]
    rcases firstTop_cases h with ⟨heq, hlayers, hfree⟩ |
      ⟨p, layers, s₁, node₁, heq, ht₁, hpos, ha, hlen₁, hsame₁⟩
    · rw [heq]
      exact ⟨_, rfl, .noMemory h (by rw [hfree, hlayers]; simp)⟩
    rw [heq]
    obtain ⟨res, heq, hgrown⟩ := growLoop_spec id fuel ht₁ hpos ha (by omega)
    dsimp only
    rw [heq, bind_some]
    cases hgrown with
    | failed ht _ _ hlen => exact ⟨_, rfl, .noMemory ht (by omega)⟩
    | @done p' layers' s₂ node₂ ht₂ hle hlarge hlen₂ hsame₂ =>
      obtain ⟨x, hx, hx5, hxfull⟩ := hex
      have hid : id < 64 ^ layers' := by
        rcases hlarge with rfl | hlt
        · omega
        · exact hlt
      -- an id that is in use was in the tree before
      have hused {y} (hy : id ≤ y) (hyused : (slot y).used = true) : s₂.setTop p' layers' = s := by
        rcases hsame₁ with ⟨hs₁, rfl⟩ | hzero
        · rcases hsame₂ with ⟨rfl, rfl, rfl⟩ | hge
          · exact hs₁
          · rw [h.shape.absent_beyond (hge.trans hy)] at hyused
            cases hyused
        · rw [h.shape.absent (h.shape.above (by omega))] at hyused
          cases hyused
      obtain ⟨res, heq, hres⟩ := subAlloc_spec pa ht₂ (lt_of_lt_of_le hpos hle) hid hfuel
      dsimp only
      rw [heq]
      cases hres with
      | found ht hp hpath hstop hstart hfull hall hclean =>
        exact ⟨_, rfl, .found ht hp hpath hstop hstart hfull hall fun hu =>
          (hclean hu).trans (hused hstart hu)⟩
      | noMemory ht hlen =>
        have : layers' ≤ 5 := ht₂.shape.layers_le
        have hlen : s₂.idFree.length + 1 < layers' := hlen
        exact ⟨_, rfl, .noMemory ht (by omega)⟩
      | needToGrow hall =>
        have hx' : 64 ^ layers' ≤ x := by
          by_contra hlt
          rw [hall x hx (not_le.mp hlt)] at hxfull
          cases hxfull
        have hgrown : 64 ^ s.layers ≤ id → s.layers < layers' := fun hge =>
          (Nat.pow_lt_pow_iff_right (by omega)).mp (lt_of_le_of_lt hge hid)
        obtain ⟨res, heq, hres⟩ := ih ht₂ ⟨x, hx', hx5, hxfull⟩ (show 6 ≤ layers' + n by omega)
          (fun h => absurd h (lt_irrefl _))
        refine ⟨res, heq, ?_⟩
        cases hres with
        | found ht hp hpath hstop hstart hfull hall' hclean =>
          refine .found ht hp hpath hstop (by omega) hfull (fun y hy hylt => ?_) fun hu => ?_
          · rcases lt_or_ge y (64 ^ layers') with hlt | hge
            · exact hall y hy hlt
            · exact hall' y hge hylt
          · rw [ht₂.shape.absent_beyond hstart] at hu
            cases hu
        | noMemory ht hlen =>
          have hlen : s₂.idFree.length + layers' < 9 := hlen
          exact .noMemory ht (by omega)

theorem idrGetEmptySlot_spec (h : Tree s node slot)
    (hex : ∃ x, start ≤ x ∧ x < 64 ^ 5 ∧ (slot x).full = false) (hfuel : 2 ^ 33 ≤ fuel) :
    ∃ res, idrGetEmptySlot fuel s start = some res ∧ Slotted s slot start res :=
  emptySlotLoop_spec h hex hfuel (by omega) (by omega)

end EmptySlot

end LinuxKernel.Idr
