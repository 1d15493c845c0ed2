import Mathlib.Algebra.Group.Nat.Defs

/-! # Numbers in little endian order -/

namespace LinuxKernel.LittleEndian

/-- The `k` lowest bytes of a number. -/
def leBytes : ℕ → ℕ → List UInt8
  | 0, _ => []
  | k + 1, x => UInt8.ofNat x :: leBytes k (x / 256)

def leValue : List UInt8 → ℕ
  | [] => 0
  | x :: l => x.toNat + 256 * leValue l

@[simp] theorem length_leBytes (k x : ℕ) : (leBytes k x).length = k := by
  induction k generalizing x with
  | zero => rfl
  | succ k ih => rw [leBytes, List.length_cons, ih]

theorem leValue_leBytes (k x : ℕ) : leValue (leBytes k x) = x % 256 ^ k := by
  induction k generalizing x with
  | zero => rw [pow_zero, Nat.mod_one]; rfl
  | succ k ih =>
    rw [leBytes, leValue, ih, pow_succ, mul_comm (256 ^ k), Nat.mod_mul]
    rfl

theorem leValue_leBytes_of_lt {k x : ℕ} (h : x < 256 ^ k) : leValue (leBytes k x) = x := by
  rw [leValue_leBytes, Nat.mod_eq_of_lt h]

end LinuxKernel.LittleEndian
