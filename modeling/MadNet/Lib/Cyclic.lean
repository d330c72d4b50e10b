import Mathlib

/-!
# Counters that wrap around

A counter with the values `0, …, M` is reduced modulo `M` once it is above `M`, so that `0` and `M`
are two names for one residue. The distance from a remembered value is what the counter has advanced
since, as long as that is less than `M`.
-/

namespace Cyclic

variable {M p d e a : Nat}

/-- The counter `d` further. -/
def advance (M a d : Nat) : Nat := if M < a + d then (a + d) % M else a + d

/-- How far the counter is from a value that it had. -/
def distance (M a p : Nat) : Nat := if a < p then M - p + a else a - p

/-- The counter is at `a`, and has advanced by `d` since it was at `p`. -/
structure Follows (M p d a : Nat) : Prop where
  start_le : p ≤ M
  le : a ≤ M
  modEq : a ≡ p + d [MOD M]
  still : d = 0 → a = p

theorem advance_le (hM : 0 < M) : advance M a d ≤ M := by
  unfold advance
  split
  · exact (Nat.mod_lt _ hM).le
  · omega

theorem Follows.refl (h : a ≤ M) : Follows M a 0 a := ⟨h, h, Nat.ModEq.refl _, fun _ => rfl⟩

theorem Follows.advance (hM : 0 < M) (h : Follows M p d a) :
    Follows M p (d + e) (advance M a e) := by
  refine ⟨h.start_le, advance_le hM, ?_, fun hde => ?_⟩
  · have hmod : Cyclic.advance M a e ≡ a + e [MOD M] := by
      unfold Cyclic.advance
      split
      · exact Nat.mod_modEq _ _
      · exact Nat.ModEq.refl _
    rw [← Nat.add_assoc]
    exact hmod.trans (h.modEq.add_right e)
  · obtain ⟨rfl, rfl⟩ := Nat.add_eq_zero_iff.mp hde
    have hle := h.le
    rw [Cyclic.advance, if_neg (by omega), Nat.add_zero]
    exact h.still rfl

/-- What the counter has advanced, read off its two values. -/
theorem Follows.distance_eq (h : Follows M p d a) (hd : d < M) : distance M a p = d := by
  obtain ⟨hp, ha, hmod, hstill⟩ := h
  unfold distance
  split
  next hlt =>
    have hmod' : M - p + a ≡ d [MOD M] := by
      have h1 : M - p + a ≡ M - p + (p + d) [MOD M] := hmod.add_left _
      have h2 : M - p + (p + d) = d + M := by omega
      rw [h2] at h1
      exact h1.trans (Nat.add_modEq_right)
    exact hmod'.eq_of_lt_of_lt (by omega) hd
  next hle =>
    have hsub : a - p ≡ d [MOD M] := by
      have : p + (a - p) ≡ p + d [MOD M] := by rwa [Nat.add_sub_cancel' (by omega)]
      exact Nat.ModEq.add_left_cancel' p this
    rcases Nat.eq_zero_or_pos d with rfl | hpos
    · rw [hstill rfl, Nat.sub_self]
    · refine hsub.eq_of_lt_of_lt ?_ hd
      by_contra hge
      -- the counter is at `M` and the value was `0`, so that it has not advanced
      have hap : a - p = M := by omega
      rw [hap] at hsub
      have := (Nat.modEq_zero_iff_dvd.mpr (dvd_refl M)).symm.trans hsub
      have := this.eq_of_lt_of_lt (by omega) hd
      omega

theorem Follows.distance_modEq (h : Follows M p d a) (hd : d < M) : (a + (M - p)) % M = d := by
  have hp := h.start_le
  have h1 : a + (M - p) ≡ p + d + (M - p) [MOD M] := h.modEq.add_right _
  have h2 : p + d + (M - p) = d + M := by omega
  rw [h2] at h1
  have h3 := h1.trans Nat.add_modEq_right
  rw [Nat.ModEq, Nat.mod_eq_of_lt hd] at h3
  exact h3

end Cyclic
