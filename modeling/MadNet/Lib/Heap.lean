import Mathlib

/-!
# Indices of binary heaps

The children of index `i` are `2 * i + 1` and `2 * i + 2`. `Under i x` says that `x` is below `i`;
what is below one child is not below the other.
-/

namespace Heap

variable {i x : Nat}

/-- `x` is some levels below `i`. -/
def Under (i x : Nat) : Prop := ∃ m, (i + 1) * 2 ^ (m + 1) ≤ x + 1 ∧ x + 1 < (i + 2) * 2 ^ (m + 1)

theorem under_left : Under i (2 * i + 1) := ⟨0, by omega, by omega⟩

theorem under_right : Under i (2 * i + 2) := ⟨0, by omega, by omega⟩

theorem ne_of_not_under (h : ¬Under i x) : x ≠ 2 * i + 1 ∧ x ≠ 2 * i + 2 :=
  ⟨fun hx => h (hx ▸ under_left), fun hx => h (hx ▸ under_right)⟩

theorem Under.of_child {c : Nat} (hc : c = 2 * i + 1 ∨ c = 2 * i + 2) (h : Under c x) :
    Under i x := by
  obtain ⟨m, h1, h2⟩ := h
  refine ⟨m + 1, ?_, ?_⟩
  · calc (i + 1) * 2 ^ (m + 1 + 1) = (2 * i + 2) * 2 ^ (m + 1) := by ring
      _ ≤ (c + 1) * 2 ^ (m + 1) := Nat.mul_le_mul_right _ (by omega)
      _ ≤ x + 1 := h1
  · calc x + 1 < (c + 2) * 2 ^ (m + 1) := h2
      _ ≤ (2 * i + 4) * 2 ^ (m + 1) := Nat.mul_le_mul_right _ (by omega)
      _ = (i + 2) * 2 ^ (m + 1 + 1) := by ring

theorem Under.of_left (h : Under (2 * i + 1) x) : Under i x := h.of_child (.inl rfl)

theorem Under.of_right (h : Under (2 * i + 2) x) : Under i x := h.of_child (.inr rfl)

/-- What is below `i` is not before its first child. -/
theorem Under.le (h : Under i x) : 2 * i + 1 ≤ x := by
  obtain ⟨m, h1, -⟩ := h
  have : (i + 1) * 2 ≤ (i + 1) * 2 ^ (m + 1) := Nat.mul_le_mul_left _ (Nat.le_self_pow (by omega) 2)
  omega

/-- The two sides of an index do not meet. -/
theorem Under.not_both (hl : Under (2 * i + 1) x) : ¬Under (2 * i + 2) x := by
  rintro ⟨n, hr1, hr2⟩
  obtain ⟨m, hl1, hl2⟩ := hl
  rcases Nat.lt_or_ge n m with h | h
  · -- `x` is more levels below the left child
    have : (2 * i + 2 + 2) * 2 ^ (n + 1) ≤ (2 * i + 1 + 1) * 2 ^ (m + 1) := by
      calc (2 * i + 2 + 2) * 2 ^ (n + 1) ≤ ((2 * i + 1 + 1) * 2) * 2 ^ (n + 1) :=
            Nat.mul_le_mul_right _ (by omega)
        _ = (2 * i + 1 + 1) * 2 ^ (n + 1 + 1) := by ring
        _ ≤ (2 * i + 1 + 1) * 2 ^ (m + 1) :=
            Nat.mul_le_mul_left _ (Nat.pow_le_pow_right (by omega) (by omega))
    omega
  · have : (2 * i + 1 + 2) * 2 ^ (m + 1) ≤ (2 * i + 2 + 1) * 2 ^ (n + 1) :=
      Nat.mul_le_mul_left _ (Nat.pow_le_pow_right (by omega) (by omega))
    omega

end Heap
