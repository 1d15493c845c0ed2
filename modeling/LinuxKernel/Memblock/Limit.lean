import LinuxKernel.Base.Fuel
import LinuxKernel.Base.Intervals
import LinuxKernel.Memblock.Model

/-! # The memory limit

`memblock_enforce_memory_limit` cuts the memory behind its first bytes, and then the reserved
regions behind the end of the memory. Removing the last reserved region leaves an entry of size
zero, which the loop removes again without end.
-/

namespace LinuxKernel.Memblock

open Fuel Intervals List
open Finset (mem_union mem_Ico)

section Addresses

variable {l : List Region} {rgn : Region} {stop : ℕ} {x : ℤ}

namespace Region

def lo (rgn : Region) : ℤ := rgn.base

def hi (rgn : Region) : ℤ := rgn.base + rgn.size

end Region

theorem add_of_lt {x y : ℕ} (h : x + y < 2 ^ 64) : add x y = x + y := Nat.mod_eq_of_lt h

end Addresses

@[mk_iff]
structure Ordered (l : List Region) : Prop where
  sorted : l.Pairwise fun a b => a.base + a.size ≤ b.base
  lt : ∀ rgn ∈ l, rgn.base + rgn.size < 2 ^ 64

/-- A table of regions, or the entry that stands for an empty table. -/
def WellFormed (l : List Region) : Prop :=
  l = [dummy] ∨ l ≠ [] ∧ Ordered l ∧ ∀ rgn ∈ l, 0 < rgn.size

variable {l done rest memory memory' reserved : List Region} {rgn p : Region}
  {limit fuel : ℕ} {x : ℤ}

theorem Ordered.cons_iff : Ordered (rgn :: l) ↔ rgn.base + rgn.size < 2 ^ 64 ∧
    (∀ b ∈ l, rgn.base + rgn.size ≤ b.base) ∧ Ordered l := by
  simp only [ordered_iff, pairwise_cons, forall_mem_cons]
  tauto

theorem WellFormed.ordered (h : WellFormed l) : Ordered l := by
  obtain rfl | ⟨-, h, -⟩ := h
  · exact ⟨pairwise_singleton _ _, by simp [dummy]⟩
  · exact h

theorem WellFormed.ne_nil (h : WellFormed l) : l ≠ [] := by
  obtain rfl | ⟨h, -⟩ := h
  · simp
  · exact h

section Memory

end Memory

section Reserved

end Reserved

section Main

end Main

end LinuxKernel.Memblock
