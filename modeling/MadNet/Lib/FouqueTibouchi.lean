import Mathlib

/-!
# The map of Fouque and Tibouchi to the curve y² = x³ + b

For every `t` of a field with a square root `c` of -3 there are three candidates for the coordinate
`x`, and the product of the three values of `x³ + b` at them is a square. In a finite field one of
the three values is a square then, and if `1 + b` is a square this is also so where the inverse in
the candidates is that of 0.
-/

namespace FouqueTibouchi

-- the numerals of the candidates, for every field
instance atLeastTwo_two : Nat.AtLeastTwo 2 := ⟨Nat.le_refl 2⟩
instance atLeastTwo_three : Nat.AtLeastTwo 3 := ⟨by decide⟩

section Field

variable {K : Type*} [Field K] (b c t : K)

/-- The right side of the curve's equation. -/
def rhs (x : K) : K := x ^ 3 + b

def alpha : K := (t ^ 2 * (t ^ 2 + (1 + b)))⁻¹

def x₁ : K := (-1 + c) / 2 - c * t ^ 4 * alpha b t

def x₂ : K := -1 - x₁ b c t

def x₃ : K := 1 - 3⁻¹ * (t ^ 2 + (1 + b)) ^ 3 * alpha b t

variable {b c t}

/-- A primitive third root of unity is the x coordinate of a point if `1 + b` is a square. -/
theorem rhs_x₁_of_alpha_eq_zero (hc : c ^ 2 = -3) (h2 : (2 : K) ≠ 0) (halpha : alpha b t = 0) :
    rhs b (x₁ b c t) = 1 + b := by
  have hx : 2 * x₁ b c t = -1 + c := by
    rw [x₁, halpha]
    field_simp
    ring
  have h8 : (8 : K) ≠ 0 := by
    rw [show (8 : K) = 2 * 2 * 2 by ring]
    exact mul_ne_zero (mul_ne_zero h2 h2) h2
  apply mul_left_cancel₀ h8
  have hcube : (2 * x₁ b c t) ^ 3 = 8 := by
    rw [hx]
    linear_combination (c - 3) * hc
  rw [rhs]
  linear_combination hcube

/-- The argument `w` in which the three values are polynomials. -/
theorem rhs_mul_rhs {w v : K} (hv : v ^ 2 + v + 1 = -(1 + b) * w ^ 2) :
    rhs b v * rhs b (-1 - v) = (1 + b) ^ 2 * (1 + 3 * w ^ 2 + 3 * w ^ 4 + (1 + b) * w ^ 6) := by
  have h1 : rhs b v = (1 + b) * (1 - (v - 1) * w ^ 2) := by
    rw [rhs]
    linear_combination (v - 1) * hv
  have h₂ : rhs b (-1 - v) = (1 + b) * (1 + (v + 2) * w ^ 2) := by
    rw [rhs]
    linear_combination -(v + 2) * hv
  rw [h1, h₂]
  linear_combination -(1 + b) ^ 2 * w ^ 4 * hv

theorem rhs_inv {w : K} (hw : w ≠ 0) :
    rhs b (1 + (w ^ 2)⁻¹) = (1 + 3 * w ^ 2 + 3 * w ^ 4 + (1 + b) * w ^ 6) / w ^ 6 := by
  rw [rhs]
  field_simp
  ring

theorem isSquare_rhs_mul (hc : c ^ 2 = -3) (h2 : (2 : K) ≠ 0) (h3 : (3 : K) ≠ 0) (ht : t ≠ 0)
    (hd : t ^ 2 + (1 + b) ≠ 0) :
    IsSquare (rhs b (x₁ b c t) * rhs b (x₂ b c t) * rhs b (x₃ b t)) := by
  have hc0 : c ≠ 0 := by
    rintro rfl
    apply h3
    linear_combination hc
  -- the three candidates in terms of w = c·t / (t² + 1 + b)
  obtain ⟨w, hw⟩ : ∃ w, w = c * t / (t ^ 2 + (1 + b)) := ⟨_, rfl⟩
  have hw0 : w ≠ 0 := by
    rw [hw]
    exact div_ne_zero (mul_ne_zero hc0 ht) hd
  have hwd : w * (t ^ 2 + (1 + b)) = c * t := by
    rw [hw, div_mul_cancel₀ _ hd]
  have hx1 : x₁ b c t = (-1 + c) / 2 - t * w := by
    rw [x₁, alpha, hw]
    field_simp
  have hx3 : x₃ b t = 1 + (w ^ 2)⁻¹ := by
    rw [x₃, alpha, hw, div_pow, mul_pow, hc]
    field_simp
    ring
  have hv : x₁ b c t ^ 2 + x₁ b c t + 1 = -(1 + b) * w ^ 2 := by
    have h2x : 2 * x₁ b c t = -1 + c - 2 * t * w := by
      rw [hx1]
      field_simp
    have h4 : (4 : K) ≠ 0 := by
      rw [show (4 : K) = 2 * 2 by ring]
      exact mul_ne_zero h2 h2
    apply mul_left_cancel₀ h4
    linear_combination (2 * x₁ b c t + 1 + c - 2 * t * w) * h2x + hc + 4 * w * hwd
  refine ⟨(1 + b) * (1 + 3 * w ^ 2 + 3 * w ^ 4 + (1 + b) * w ^ 6) / w ^ 3, ?_⟩
  rw [x₂, rhs_mul_rhs hv, hx3, rhs_inv hw0]
  field_simp

end Field

section FiniteField

variable {K : Type*} [Field K] [Fintype K] [DecidableEq K] {b c t : K}

theorem isSquare_mul_of_not {x y : K} (hx : ¬ IsSquare x) (hy : ¬ IsSquare y) :
    IsSquare (x * y) := by
  have hx0 : x ≠ 0 := by
    rintro rfl
    exact hx (.zero)
  have hy0 : y ≠ 0 := by
    rintro rfl
    exact hy (.zero)
  rw [← quadraticChar_one_iff_isSquare (mul_ne_zero hx0 hy0), map_mul,
    quadraticChar_neg_one_iff_not_isSquare.mpr hx, quadraticChar_neg_one_iff_not_isSquare.mpr hy]
  rfl

/-- One of the three candidates is the x coordinate of a point. -/
theorem isSquare_rhs_x₃ (hc : c ^ 2 = -3) (h2 : (2 : K) ≠ 0) (h3 : (3 : K) ≠ 0)
    (hb : IsSquare (1 + b))
    (h1 : ¬ IsSquare (rhs b (x₁ b c t))) (h₂ : ¬ IsSquare (rhs b (x₂ b c t))) :
    IsSquare (rhs b (x₃ b t)) := by
  have halpha : alpha b t ≠ 0 := by
    intro halpha
    rw [rhs_x₁_of_alpha_eq_zero hc h2 halpha] at h1
    exact h1 hb
  have hden : t ^ 2 * (t ^ 2 + (1 + b)) ≠ 0 := fun h => halpha (by rw [alpha, h, inv_zero])
  obtain ⟨r, hr⟩ :=
    isSquare_rhs_mul hc h2 h3 (pow_ne_zero_iff two_ne_zero |>.mp (left_ne_zero_of_mul hden))
    (right_ne_zero_of_mul hden)
  obtain ⟨s, hs⟩ := isSquare_mul_of_not h1 h₂
  have hs0 : s ≠ 0 := by
    rintro rfl
    rw [mul_zero, mul_eq_zero] at hs
    rcases hs with h | h
    · exact h1 (h ▸ .zero)
    · exact h₂ (h ▸ .zero)
  refine ⟨r / s, ?_⟩
  rw [hs] at hr
  field_simp
  linear_combination hr

end FiniteField

end FouqueTibouchi
