import Mathlib.Data.BitVec
import Mathlib.Order.Bounds.Basic

/-! # Knuth-Morris-Pratt search

A text comes in blocks. The search keeps the length of the longest beginning of the pattern that
ends at the current character, also from one block to the next. On a mismatch the prefix table gives
the next shorter one.
-/

namespace LinuxKernel.Textsearch

open Function List Nat

section Source

abbrev Byte := BitVec 8

/-- The bytes that the table `_ctype` marks with `_L`. -/
def islower (c : Byte) : Bool := 0x61 ≤ c && c ≤ 0x7a || 0xdf ≤ c && c ≠ 0xf7

def toupper (c : Byte) : Byte := if islower c then c - 0x20 else c

/-- What is compared of a byte, with and without `TS_IGNORECASE`. -/
def fold (icase : Bool) (c : Byte) : Byte := if icase then toupper c else c

def uintMax : ℕ := 2 ^ 32 - 1

section Automaton

variable (pattern : List Byte) (prefixTbl : ℕ → ℕ) (c : Byte)

/-- The loop that falls back to shorter beginnings of the pattern. -/
def fallBack : ℕ → ℕ → ℕ
  | 0, q => q
  | fuel + 1, q => if q > 0 ∧ pattern[q]? ≠ some c then fallBack fuel (prefixTbl (q - 1)) else q

/-- What is done for a character. The loop has at most `q` rounds. -/
def advance (q : ℕ) : ℕ :=
  let q := fallBack pattern prefixTbl c q q
  if pattern[q]? = some c then q + 1 else q

/-- The loop of `compute_prefix_tbl`, for the rest of the pattern from `q` on. -/
def prefixLoop : List Byte → ℕ → ℕ → (ℕ → ℕ) → ℕ → ℕ
  | [], _, _, prefixTbl => prefixTbl
  | c :: rest, q, k, prefixTbl =>
    let k := advance pattern prefixTbl c k
    prefixLoop rest (q + 1) k (update prefixTbl q k)

/-- The table is cleared when it is allocated. -/
def computePrefixTbl : ℕ → ℕ := prefixLoop pattern pattern.tail 1 0 fun _ => 0

end Automaton

structure TsKmp where
  pattern : List Byte
  prefixTbl : ℕ → ℕ

def kmpInit (icase : Bool) (pattern : List Byte) : TsKmp :=
  ⟨pattern.map (fold icase), computePrefixTbl (pattern.map (fold icase))⟩

variable (icase : Bool) (kmp : TsKmp)

/-- The loop over a block, from index `i` on. Returned are `q` and the index behind a match. -/
def scanBlock : List Byte → ℕ → ℕ → ℕ × Option ℕ
  | [], _, q => (q, none)
  | c :: text, i, q =>
    let q := advance kmp.pattern kmp.prefixTbl (fold icase c) q
    if q = kmp.pattern.length then (q, some (i + 1)) else scanBlock text (i + 1) q

/-- The loop over the blocks, at most `fuel` of them. Returned are the result and the offset that
is left in the state. -/
def findLoop (getNextBlock : ℕ → List Byte) (offset : ℕ) : ℕ → ℕ → ℕ → Option (ℕ × ℕ)
  | 0, _, _ => none
  | fuel + 1, consumed, q =>
    if getNextBlock consumed = [] then some (uintMax, offset)
    else
      match scanBlock icase kmp (getNextBlock consumed) 0 q with
      | (_, some i) => some (consumed + i - kmp.pattern.length, consumed + i)
      | (q, none) => findLoop getNextBlock offset fuel (consumed + (getNextBlock consumed).length) q

def kmpFind (fuel : ℕ) (getNextBlock : ℕ → List Byte) (offset : ℕ) : Option (ℕ × ℕ) :=
  findLoop icase kmp getNextBlock offset fuel offset 0

end Source

structure Splits (text : List Byte) (getNextBlock : ℕ → List Byte) : Prop where
  piece : ∀ consumed, getNextBlock consumed <+: text.drop consumed
  nonempty : ∀ consumed < text.length, getNextBlock consumed ≠ []

section Automaton

variable {p s t : List Byte} {tbl : ℕ → ℕ} {c : Byte} {k j q fuel : ℕ}

/-- The longest beginning of the pattern that ends a text. -/
structure Longest (p s : List Byte) (k : ℕ) : Prop where
  le : k ≤ p.length
  suffix : p.take k <:+ s
  max : ∀ j ≤ p.length, p.take j <:+ s → j ≤ k

theorem take_succ_suffix (hj : j < p.length) :
    p.take (j + 1) <:+ s ++ [c] ↔ p.take j <:+ s ∧ p[j]? = some c := by
  rw [← take_append_getElem hj, suffix_concat_iff, getElem?_eq_getElem hj]
  constructor
  · rintro (hnil | ⟨t, heq, ht⟩)
    · cases (append_eq_nil_iff.mp hnil).2
    · obtain ⟨rfl, hc⟩ := append_inj' heq rfl
      exact ⟨ht, congrArg some (cons.inj hc).1⟩
  · rintro ⟨hs, hc⟩
    exact .inr ⟨p.take j, by rw [Option.some.inj hc], hs⟩

/-- An entry of the prefix table: the longest proper beginning that is also an end. -/
def Entry (p : List Byte) (tbl : ℕ → ℕ) (j : ℕ) : Prop :=
  Longest p ((p.take (j + 1)).drop 1) (tbl j)

theorem Entry.lt (h : Entry p tbl j) : tbl j ≤ j := by
  have := h.suffix.length_le
  have := h.le
  simp only [length_take, length_drop] at *
  omega

/-- No beginning of the pattern that can be continued is passed over. -/
theorem fallBack_spec (htbl : ∀ j < k, Entry p tbl j) (hk : k < p.length) (hs : p.take k <:+ s)
    (hmax : ∀ j < p.length, p.take (j + 1) <:+ s ++ [c] → j ≤ k) (hfuel : k ≤ fuel) :
    fallBack p tbl c fuel k < p.length ∧ p.take (fallBack p tbl c fuel k) <:+ s ∧
      (fallBack p tbl c fuel k = 0 ∨ p[fallBack p tbl c fuel k]? = some c) ∧
      ∀ j < p.length, p.take (j + 1) <:+ s ++ [c] → j ≤ fallBack p tbl c fuel k := by
  induction fuel generalizing k with
  | zero => exact ⟨hk, hs, .inl (le_zero.mp hfuel), hmax⟩
  | succ fuel ih =>
    rw [fallBack]
    split_ifs with hcond
    · obtain ⟨hpos, hne⟩ := hcond
      have hentry := htbl (k - 1) (by omega)
      have hlt := hentry.lt
      have hsuf := hentry.suffix
      rw [show k - 1 + 1 = k by omega] at hsuf
      refine ih (fun j hj => htbl j (by omega)) (by omega)
        (hsuf.trans ((drop_suffix 1 _).trans hs)) (fun j hj hend => ?_) (by omega)
      -- a shorter beginning ends the longer one
      obtain ⟨hend', hc⟩ := (take_succ_suffix hj).mp hend
      have hjk : j ≠ k := fun h => hne (h ▸ hc)
      have hle := hmax j hj hend
      refine hentry.max j hj.le (suffix_of_suffix_length_le hend' ?_ ?_)
      · rw [show k - 1 + 1 = k by omega]
        exact (drop_suffix 1 _).trans hs
      · simp only [length_take, length_drop]
        omega
    · refine ⟨hk, hs, ?_, hmax⟩
      by_cases hzero : k = 0
      · exact .inl hzero
      · exact .inr (not_not.mp fun hne => hcond ⟨Nat.pos_of_ne_zero hzero, hne⟩)

theorem Longest.advance (h : Longest p s k) (hk : k < p.length) (htbl : ∀ j < k, Entry p tbl j) :
    Longest p (s ++ [c]) (advance p tbl c k) := by
  obtain ⟨hlt, hsuf, hstop, hmax⟩ := fallBack_spec (c := c) htbl hk h.suffix
    (fun j hj hend => h.max j hj.le ((take_succ_suffix hj).mp hend).1) le_rfl
  rw [Textsearch.advance]
  generalize fallBack p tbl c k k = r at *
  split_ifs with hc
  · refine ⟨hlt, (take_succ_suffix hlt).mpr ⟨hsuf, hc⟩, fun j hj hend => ?_⟩
    rcases j with _ | j
    · omega
    · exact succ_le_succ (hmax j hj hend)
  · obtain rfl := hstop.resolve_right hc
    refine ⟨hlt.le, nil_suffix, fun j hj hend => ?_⟩
    rcases j with _ | j
    · exact le_rfl
    · have := hmax j hj hend
      obtain rfl : j = 0 := by omega
      exact (hc ((take_succ_suffix hj).mp hend).2).elim

/-- The table is computed by running the automaton over the rest of the pattern. -/
theorem prefixLoop_spec {rest : List Byte} (hq : 0 < q) (hrest : p.drop q = rest)
    (htbl : ∀ j < q, Entry p tbl j) (hk : Longest p ((p.take q).drop 1) k) :
    ∀ j < p.length, Entry p (prefixLoop p rest q k tbl) j := by
  induction rest generalizing q k tbl with
  | nil => exact fun j hj => htbl j (hj.trans_le (drop_eq_nil_iff.mp hrest))
  | cons c rest ih =>
    have hlen : q < p.length := by
      by_contra hle
      rw [drop_eq_nil_iff.mpr (by omega)] at hrest
      cases hrest
    have hcut := drop_eq_getElem_cons hlen
    rw [hrest] at hcut
    obtain ⟨rfl, hrest'⟩ := cons.inj hcut
    have hkq := hk.suffix.length_le
    simp only [length_take, length_drop] at hkq
    have hnext := hk.advance (c := p[q]) (by omega) fun j hj => htbl j (by omega)
    have hgrow : (p.take q).drop 1 ++ [p[q]] = (p.take (q + 1)).drop 1 := by
      rw [← take_append_getElem hlen, drop_append_of_le_length]
      rw [length_take]
      omega
    rw [hgrow] at hnext
    refine ih (succ_pos q) hrest'.symm (fun j hj => ?_) hnext
    rcases Nat.lt_succ_iff_lt_or_eq.mp hj with hj | rfl
    · have hentry := htbl j hj
      unfold Entry
      rwa [update_of_ne hj.ne]
    · unfold Entry
      rwa [update_self]

theorem longest_nil : Longest p [] 0 :=
  ⟨zero_le _, nil_suffix, fun j hj h => by
    have := h.length_le
    rw [length_take, length_nil] at this
    omega⟩

theorem computePrefixTbl_entry : ∀ j < p.length, Entry p (computePrefixTbl p) j := by
  have hdrop : (p.take 1).drop 1 = [] := drop_eq_nil_of_le (length_take_le 1 p)
  refine prefixLoop_spec one_pos drop_one (fun j hj => ?_) (hdrop ▸ longest_nil)
  obtain rfl : j = 0 := by omega
  show Longest p ((p.take 1).drop 1) 0
  exact hdrop ▸ longest_nil

end Automaton

section Find

variable {icase : Bool} {kmp : TsKmp} {p s text block : List Byte} {i q q' fuel offset consumed : ℕ}
  {getNextBlock : ℕ → List Byte}

/-- The state of the search behind a part of the text: the pattern has not ended yet. -/
structure Searching (kmp : TsKmp) (s : List Byte) (q : ℕ) : Prop where
  longest : Longest kmp.pattern s q
  lt : q < kmp.pattern.length
  none : ∀ t, t <+: s → ¬ kmp.pattern <:+ t

variable (htbl : ∀ j < kmp.pattern.length, Entry kmp.pattern kmp.prefixTbl j)
include htbl

/-- A character either ends the first occurrence, or the search goes on. -/
theorem Searching.step (h : Searching kmp s q) (c : Byte) :
    if advance kmp.pattern kmp.prefixTbl c q = kmp.pattern.length then kmp.pattern <:+ s ++ [c]
    else Searching kmp (s ++ [c]) (advance kmp.pattern kmp.prefixTbl c q) := by
  have hnext := h.longest.advance (c := c) h.lt fun j hj => htbl j (hj.trans h.lt)
  split_ifs with hend
  · have := hnext.suffix
    rwa [hend, take_length] at this
  · refine ⟨hnext, lt_of_le_of_ne hnext.le hend, fun t ht hsuf => ?_⟩
    rcases prefix_concat_iff.mp ht with rfl | ht
    · have := hnext.max _ le_rfl (by rwa [take_length])
      exact hend (le_antisymm hnext.le this)
    · exact h.none t ht hsuf

theorem scanBlock_spec (h : Searching kmp s q) (icase : Bool) (block : List Byte) (i : ℕ) :
    match scanBlock icase kmp block i q with
    | (q', none) => Searching kmp (s ++ block.map (fold icase)) q'
    | (_, some n) => ∃ m < block.length, n = i + m + 1 ∧
        kmp.pattern <:+ s ++ (block.map (fold icase)).take (m + 1) ∧
        ∀ t, t <+: s ++ (block.map (fold icase)).take m → ¬ kmp.pattern <:+ t := by
  induction block generalizing s i q with
  | nil => simpa [scanBlock] using h
  | cons c block ih =>
    have hstep := h.step htbl (fold icase c)
    rw [scanBlock]
    split_ifs at hstep ⊢ with hend
    · exact ⟨0, by simp, rfl, hstep, by simpa using h.none⟩
    · have hrest := ih hstep (i + 1)
      rcases hscan : scanBlock icase kmp block (i + 1) _ with ⟨q', _ | n⟩ <;> rw [hscan] at hrest
      · simpa using hrest
      · obtain ⟨m, hm, rfl, hsuf, hnone⟩ := hrest
        exact ⟨m + 1, by simpa using hm, by omega, by simpa using hsuf, by simpa using hnone⟩

omit htbl in
theorem Splits.take_add (h : Splits text getNextBlock) (hle : offset ≤ consumed) {m : ℕ}
    (hm : m ≤ (getNextBlock consumed).length) :
    ((text.map (fold icase)).drop offset).take (consumed - offset) ++
        ((getNextBlock consumed).map (fold icase)).take m =
      ((text.map (fold icase)).drop offset).take (consumed - offset + m) := by
  obtain ⟨t, ht⟩ := h.piece consumed
  rw [List.take_add, drop_drop, Nat.add_sub_cancel' hle]
  congr 1
  rw [← map_drop, ← ht, map_append, take_append_of_le_length (by simpa using hm)]

/-- The search stops at the first end of an occurrence behind the offset. -/
theorem Searching.findLoop (hsplit : Splits text getNextBlock) (hle : offset ≤ consumed)
    (h : Searching kmp (((text.map (fold icase)).drop offset).take (consumed - offset)) q)
    (hfuel : text.length - consumed < fuel) :
    (Textsearch.findLoop icase kmp getNextBlock offset fuel consumed q = some (uintMax, offset) ∧
      ∀ m, ¬ kmp.pattern <:+ ((text.map (fold icase)).drop offset).take m) ∨
    ∃ m ≤ text.length - offset, Textsearch.findLoop icase kmp getNextBlock offset fuel consumed q =
        some (offset + m - kmp.pattern.length, offset + m) ∧
      kmp.pattern <:+ ((text.map (fold icase)).drop offset).take m ∧
      ∀ m' < m, ¬ kmp.pattern <:+ ((text.map (fold icase)).drop offset).take m' := by
  induction fuel generalizing consumed q with
  | zero => omega
  | succ fuel ih =>
    rw [Textsearch.findLoop]
    by_cases hblock : getNextBlock consumed = []
    · rw [if_pos hblock]
      refine .inl ⟨rfl, fun m => h.none _ ?_⟩
      have hend := not_lt.mp fun hlt => hsplit.nonempty consumed hlt hblock
      rw [take_of_length_le (i := consumed - offset) (by simp; omega)]
      exact take_prefix _ _
    rw [if_neg hblock]
    have hlen := (hsplit.piece consumed).length_le
    have hpos := length_pos_iff.mpr hblock
    rw [length_drop] at hlen
    have hscan := scanBlock_spec htbl h icase (getNextBlock consumed) 0
    rcases hres : scanBlock icase kmp (getNextBlock consumed) 0 q with ⟨q', _ | n⟩ <;>
      rw [hres] at hscan <;> dsimp only
    · rw [← take_length (l := (getNextBlock consumed).map _), length_map,
        hsplit.take_add hle le_rfl, ← Nat.sub_add_comm hle] at hscan
      exact ih (by omega) hscan (by omega)
    · obtain ⟨m, hm, rfl, hsuf, hnone⟩ := hscan
      rw [hsplit.take_add hle hm] at hsuf
      rw [hsplit.take_add hle hm.le] at hnone
      refine .inr ⟨consumed - offset + (m + 1), by omega, ?_, hsuf, fun m' hm' => hnone _ ?_⟩
      · rw [show offset + (consumed - offset + (m + 1)) = consumed + (0 + m + 1) by omega]
      · exact take_prefix_take_left (by omega)

end Find

section Main

variable {icase : Bool} {pattern text s p : List Byte} {offset fuel m : ℕ}
  {getNextBlock : ℕ → List Byte}

def OccursAt (icase : Bool) (pattern text : List Byte) (i : ℕ) : Prop :=
  pattern.map (fold icase) <+: (text.map (fold icase)).drop i

theorem suffix_take_iff (hm : m ≤ s.length) :
    p <:+ s.take m ↔ p.length ≤ m ∧ p <+: s.drop (m - p.length) := by
  have hlen : (s.take m).length = m := by simp [hm]
  constructor
  · intro h
    have hle := h.length_le
    rw [hlen] at hle
    refine ⟨hle, ?_⟩
    rw [suffix_iff_eq_drop, hlen, drop_take, Nat.sub_sub_self hle] at h
    exact prefix_iff_eq_take.mpr h
  · rintro ⟨hle, h⟩
    rw [suffix_iff_eq_drop, hlen, drop_take, Nat.sub_sub_self hle]
    exact prefix_iff_eq_take.mp h

/-- The search returns the first position of the pattern at or behind the offset and sets the offset
behind it, however the text is split, and returns `UINT_MAX` just when there is none. -/
theorem kmp_find_first (hpat : pattern ≠ []) (htext : text.length ≤ uintMax)
    (hsplit : Splits text getNextBlock) (hfuel : text.length < fuel) :
    ∃ ret offset',
      kmpFind icase (kmpInit icase pattern) fuel getNextBlock offset = some (ret, offset') ∧
      (ret = uintMax ↔ ∀ i ≥ offset, ¬ OccursAt icase pattern text i) ∧
      (ret ≠ uintMax → IsLeast {i | offset ≤ i ∧ OccursAt icase pattern text i} ret ∧
        offset' = ret + pattern.length) := by
  have hlen : 0 < (pattern.map (fold icase)).length := by
    rw [length_map]
    exact length_pos_iff.mpr hpat
  have hstart : Searching (kmpInit icase pattern)
      (((text.map (fold icase)).drop offset).take (offset - offset)) 0 := by
    rw [Nat.sub_self]
    refine ⟨longest_nil, hlen, fun t ht hsuf => ?_⟩
    rw [prefix_nil.mp ht, suffix_nil] at hsuf
    exact hlen.ne' (length_eq_zero_iff.mpr hsuf)
  -- an occurrence ends where the pattern is the end of what has been searched
  have hends : ∀ i ≥ offset, OccursAt icase pattern text i →
      i + pattern.length ≤ text.length ∧ pattern.map (fold icase) <:+
        ((text.map (fold icase)).drop offset).take (i - offset + pattern.length) := by
    intro i hi hocc
    have hle := hocc.length_le
    simp only [length_map, length_drop] at hle hlen
    refine ⟨by omega, (suffix_take_iff ?_).mpr ⟨by simp, ?_⟩⟩
    · simp only [length_drop, length_map]
      omega
    · rwa [drop_drop, length_map, Nat.add_sub_cancel, Nat.add_sub_cancel' hi]
  have hfind := hstart.findLoop computePrefixTbl_entry hsplit le_rfl
    (show text.length - offset < fuel by omega)
  rcases hfind with ⟨hfind, hnone⟩ | ⟨m, hm, hfind, hsuf, hfirst⟩
  · exact ⟨_, _, hfind, ⟨fun _ i hi hocc => hnone _ (hends i hi hocc).2, fun _ => rfl⟩,
      fun h => (h rfl).elim⟩
  · obtain ⟨hle, hocc⟩ := (suffix_take_iff (by simpa using hm)).mp hsuf
    have hsize : (kmpInit icase pattern).pattern.length = pattern.length := length_map _
    rw [hsize] at hle hocc hfind
    rw [length_map] at hlen
    rw [drop_drop, ← Nat.add_sub_assoc hle] at hocc
    have hmem : offset ≤ offset + m - pattern.length ∧
        OccursAt icase pattern text (offset + m - pattern.length) := ⟨by omega, hocc⟩
    have hne : offset + m - pattern.length ≠ uintMax := by omega
    refine ⟨_, _, hfind, ⟨fun h => (hne h).elim, fun h => (h _ hmem.1 hmem.2).elim⟩,
      fun _ => ⟨⟨hmem, fun i ⟨hi, hocc'⟩ => ?_⟩, by omega⟩⟩
    have := not_lt.mp fun hlt => hfirst _ hlt (hends i hi hocc').2
    omega

/-- The pattern begins in the first block of a text and ends in the second one. -/
theorem kmp_find_first_across :
    let text : List Byte := [0x78, 0x41, 0x62]
    let next : ℕ → List Byte := fun consumed => (text.drop consumed).take 2
    kmpFind true (kmpInit true [0x61, 0x42]) 4 next 0 = some (1, 3) ∧
      IsLeast {i | 0 ≤ i ∧ OccursAt true [0x61, 0x42] text i} 1 := by
  intro text next
  have hrun : kmpFind true (kmpInit true [0x61, 0x42]) 4 next 0 = some (1, 3) := by decide
  have hsplit : Splits text next := by
    refine ⟨fun consumed => take_prefix _ _, fun consumed h => ?_⟩
    rw [Ne, take_eq_nil_iff, drop_eq_nil_iff]
    omega
  have htext : text.length < 4 := by decide
  have hpat : ([0x61, 0x42] : List Byte) ≠ [] := by decide
  obtain ⟨ret, offset', h, -, hleast⟩ := kmp_find_first hpat (by decide) hsplit htext
  obtain ⟨rfl, -⟩ := Prod.mk.inj (Option.some.inj (hrun.symm.trans h))
  exact ⟨hrun, (hleast (by decide)).1⟩

end Main

end LinuxKernel.Textsearch
