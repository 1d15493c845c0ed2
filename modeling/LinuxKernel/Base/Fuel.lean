import Mathlib.Data.Nat.Notation

/-! # Functions with a bound on the depth of their calls

A recursive function that gets such a bound ends with a result if it returns this result for all
bounds from some one on. For a composition of calls it is enough that each of them ends.
-/

namespace LinuxKernel.Fuel

variable {α β : Type}

def Ends (f : ℕ → Option α) (x : α) : Prop := ∃ n, ∀ fuel ≥ n, f fuel = some x

variable {f : ℕ → Option α} {x y : α}

theorem ends_some (x : α) : Ends (fun _ => some x) x := ⟨0, fun _ _ => rfl⟩

theorem Ends.bind {g : ℕ → α → Option β} {z : β} (hf : Ends f x) (hg : Ends (g · x) z) :
    Ends (fun n => f n >>= g n) z := by
  obtain ⟨m, hm⟩ := hf
  obtain ⟨n, hn⟩ := hg
  refine ⟨max m n, fun fuel hfuel => ?_⟩
  dsimp only
  rw [hm fuel (by omega)]
  exact hn fuel (by omega)

theorem Ends.succ (h : Ends (fun n => f (n + 1)) x) : Ends f x := by
  obtain ⟨n, h⟩ := h
  refine ⟨n + 1, fun fuel hfuel => ?_⟩
  obtain ⟨k, rfl⟩ : ∃ k, fuel = k + 1 := ⟨fuel - 1, by omega⟩
  exact h k (by omega)

theorem Ends.unique (hx : Ends f x) (hy : Ends f y) : x = y := by
  obtain ⟨m, hm⟩ := hx
  obtain ⟨n, hn⟩ := hy
  have := (hm (max m n) (by omega)).symm.trans (hn (max m n) (by omega))
  exact Option.some.inj this

end LinuxKernel.Fuel
